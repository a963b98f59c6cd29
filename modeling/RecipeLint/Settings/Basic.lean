import RecipeLint.Files.World
import RecipeLint.Lint.Linter
import RecipeLint.Settings.Level
import RecipeLint.Text.Blank

/-!
# Settings

The settings of the linter come in layers: what the environment says counts most, then the
configuration file, then the defaults.  The layers are put together key by key, and only the result
is validated.
-/

namespace RecipeLint

structure Settings where
  buildScript : String
  logLevel : Level
  disabledChecks : List String
deriving DecidableEq, Repr

/-- The values that one source of settings gives. -/
structure Layer where
  buildScript : Option Yaml.Value := none
  logLevel : Option Yaml.Value := none
  disabledChecks : Option Yaml.Value := none

inductive SettingsCause where
  /-- The configuration file cannot be read, or is malformed. -/
  | unreadable
  | noMapping
  | buildScript
  | logLevel (value : Yaml.Value)
  | disabledChecks
  | unknownChecks (values : List Yaml.Value)

def SettingsCause.detail : SettingsCause → String
  | .unreadable => "Failed to load config"
  | .noMapping => "Config must be a mapping"
  | .buildScript => "build_script must be a non-empty string"
  | .logLevel value => "Invalid log level: " ++ value.shown
  | .disabledChecks => "disabled_checks must be a list"
  | .unknownChecks values =>
      "Unknown checks: " ++ ", ".intercalate (values.map Yaml.Value.plain)

/-- A configuration file that cannot be dealt with at all. -/
inductive SettingsFault where
  | undecodable
  /-- A key that is not known is no text. -/
  | unnamedKey
  /-- A scalar has the form of a value that does not exist. -/
  | scalar (fault : Yaml.ScalarFault)
deriving DecidableEq, Repr

inductive SettingsError where
  /-- They are invalid; the path is that of the configuration file, if there is one. -/
  | invalid (path : Option Path) (cause : SettingsCause)
  | fault (fault : SettingsFault)

def SettingsCause.message (cause : SettingsCause) (path : Option Path) : String :=
  match path with
  | some path => path.text ++ ": " ++ cause.detail
  | none => cause.detail

namespace Layer

/-- The values of the first layer, and of the second one where it has none. -/
def orElse (upper lower : Layer) : Layer where
  buildScript := upper.buildScript <|> lower.buildScript
  logLevel := upper.logLevel <|> lower.logLevel
  disabledChecks := upper.disabledChecks <|> lower.disabledChecks

def defaults : Layer where
  buildScript := some (.text "APKBUILD")
  logLevel := some (.text "WARNING")
  disabledChecks := some (.list [])

def namesOf (text : String) : List String :=
  let names := (text.toList.splitOn ',').map Text.trim
  (names.filter (!·.isEmpty)).map String.ofList

def ofEnvironment (environment : String → Option String) : Layer where
  buildScript := (environment "APKBUILD_LINT_BUILD_SCRIPT").map Yaml.Value.text
  logLevel := (environment "APKBUILD_LINT_LOG_LEVEL").map Yaml.Value.text
  disabledChecks := (environment "APKBUILD_LINT_DISABLE").map fun text =>
    .list ((namesOf text).map Yaml.Value.text)

def keys : List String :=
  ["build_script", "log_level", "disabled_checks"]

def lookup (pairs : List (Yaml.Value × Yaml.Value)) (key : String) : Option Yaml.Value :=
  (pairs.find? fun (name, _) => name.sameKey (.text key)).map (·.2)

def ofPairs (pairs : List (Yaml.Value × Yaml.Value)) : Layer where
  buildScript := lookup pairs "build_script"
  logLevel := lookup pairs "log_level"
  disabledChecks := lookup pairs "disabled_checks"

/-- The keys of a mapping that settings do not have; none are given if one is no text. -/
def unknownKeys (pairs : List (Yaml.Value × Yaml.Value)) : Except SettingsFault (List String) := do
  let names ← pairs.mapM fun (key, _) =>
    match key with
    | .text name => .ok name
    | _ => .error .unnamedKey
  return (names.filter (!keys.contains ·)).mergeSort fun left right => left ≤ right

end Layer

structure ConfigFile where
  path : Path
  unknown : List String
  layer : Layer

namespace ConfigFile

/-- The paths at which a configuration file is looked for. -/
def candidates (world : World) (explicit : Option String) : List Path :=
  match explicit.filter (!·.isEmpty) with
  | some path => [.ofText path]
  | none =>
      match (world.environment "APKBUILD_LINT_CONFIG").filter (!·.isEmpty) with
      | some path => [.ofText path]
      | none =>
          [.ofText ".apkbuild-lint.yaml",
            world.home.join (.ofText ".config/apkbuild-lint/config.yaml")]

/-- What a configuration file holds, given the value in it. -/
def ofValue (path : Path) (value : Yaml.Value) : Except SettingsError ConfigFile :=
  let read (pairs : List (Yaml.Value × Yaml.Value)) : Except SettingsError ConfigFile :=
    match Layer.unknownKeys pairs with
    | .ok unknown => .ok { path, unknown, layer := .ofPairs pairs }
    | .error fault => .error (.fault fault)
  if value.isVoid then read []
  else
    match value with
    | .mapping pairs => read pairs
    | _ => .error (.invalid (some path) .noMapping)

def read (world : World) (path : Path) : Except SettingsError ConfigFile :=
  match world.entry path.text with
  | .file octets =>
      match Text.decodeStrict? octets with
      | none => .error (.fault .undecodable)
      | some text =>
          match world.load text with
          | .ok value => ofValue path value
          | .error .malformed => .error (.invalid (some path) .unreadable)
          | .error (.scalar fault) => .error (.fault (.scalar fault))
  | _ => .error (.invalid (some path) .unreadable)

def find (world : World) (explicit : Option String) : Except SettingsError (Option ConfigFile) :=
  match (candidates world explicit).find? world.leadsSomewhere with
  | none => .ok none
  | some path => (read world path).map some

end ConfigFile

namespace Settings

/-- The settings that values are, if they are valid. -/
def validate (layer : Layer) : Except SettingsCause Settings := do
  let buildScript ← match layer.buildScript with
    | some (.text name) => if name.isEmpty then .error .buildScript else pure name
    | _ => .error .buildScript
  let logLevel ← match layer.logLevel with
    | some (.text name) =>
        match Level.of? name with
        | some level => pure level
        | none => .error (.logLevel (.text name))
    | value => .error (.logLevel (value.getD .null))
  let disabled ← match layer.disabledChecks with
    | some (.list values) => pure values
    | _ => .error .disabledChecks
  let isRule (value : Yaml.Value) : Bool :=
    match value with
    | .text name => Rule.names.contains name
    | _ => false
  let unknown := disabled.filter (!isRule ·)
  if unknown.isEmpty then
    let names := (disabled.map Yaml.Value.plain).eraseDups
    let sorted := names.mergeSort fun left right => left ≤ right
    return { buildScript, logLevel, disabledChecks := sorted }
  else
    .error (.unknownChecks unknown)

/-- The settings that the environment and a configuration file give. -/
def combine (world : World) (file : Option ConfigFile) : Except SettingsError Settings :=
  let below := (file.map ConfigFile.layer).getD {}
  let layer := (Layer.ofEnvironment world.environment).orElse (below.orElse .defaults)
  match validate layer with
  | .ok settings => .ok settings
  | .error cause => .error (.invalid (file.map ConfigFile.path) cause)

/-- The settings in the given surroundings, the configuration file being at an explicit path if one
is given. -/
def load (world : World) (explicit : Option String) : Except SettingsError Settings := do
  combine world (← ConfigFile.find world explicit)

end Settings
end RecipeLint
