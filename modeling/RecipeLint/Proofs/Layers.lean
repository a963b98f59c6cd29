import Mathlib.Data.List.Sort
import RecipeLint.Proofs.Selection
import RecipeLint.Settings.Basic

/-!
# Layers of settings

Settings are put together key by key from the environment, one configuration file and the defaults,
and only the result is validated.  `Settings.load_layered` says which file is looked at, that
nothing depends on any other one, and that there are settings exactly if the values that come out on
top are valid.  A value that a higher layer covers may be anything. -/

namespace RecipeLint

namespace ConfigFile

/-- The path that is given, an empty text being none. -/
def given (text : Option String) : Option Path :=
  (text.filter (!·.isEmpty)).map .ofText

/-- The pairs that a configuration file gives: none if it is absent or its value is void, and
otherwise those of the mapping that it holds. -/
inductive Gives (world : World) (path : Path) : List (Yaml.Value × Yaml.Value) → Prop
  | absent (missing : world.leadsSomewhere path = false) : Gives world path []
  | void {octets : ByteArray} {text : List Char} {value : Yaml.Value}
    (entry : world.entry path.text = .file octets)
      (decoded : Text.decodeStrict? octets = some text) (loaded : world.load text = .ok value)
      (void : value.isVoid = true) : Gives world path []
  | mapping {octets : ByteArray} {text : List Char} {pairs : List (Yaml.Value × Yaml.Value)}
      (entry : world.entry path.text = .file octets)
      (decoded : Text.decodeStrict? octets = some text)
      (loaded : world.load text = .ok (.mapping pairs)) : Gives world path pairs

/-- Whether all keys of a mapping that settings do not have are texts. -/
def Named (pairs : List (Yaml.Value × Yaml.Value)) : Prop :=
  ∀ pair ∈ pairs, (∀ key ∈ Layer.keys, pair.1 ≠ .text key) → ∃ name, pair.1 = .text name

section Reading

variable {world : World} {path : Path} {octets : ByteArray} {text : List Char} {value : Yaml.Value}

end Reading

end ConfigFile

/-! ## Validation -/

namespace Level

/-- A text in capitals. -/
def upper (text : String) : String :=
  String.ofList (text.toList.flatMap capitals)

theorem of?_eq_some_iff {text : String} {level : Level} : of? text = some level ↔
    upper text = level.name := by
  change all.find? (fun other => other.name = upper text) = some level ↔ _
  constructor
  · intro found
    have written := List.find?_some found
    exact (of_decide_eq_true written).symm
  · intro same
    rw [same]
    cases level <;> decide

end Level

namespace Settings

/-- The value of each key that comes out on top. -/
structure Merged where
  buildScript : Yaml.Value
  logLevel : Yaml.Value
  disabledChecks : Yaml.Value

/-- The values that come out on top, each key for itself: that of the environment if it is set, else
that of the file if it has the key, else the default. -/
def merged (environment : String → Option String) (pairs : List (Yaml.Value × Yaml.Value)) :
    Merged where
  buildScript :=
    match environment "APKBUILD_LINT_BUILD_SCRIPT", Layer.lookup pairs "build_script" with
    | some text, _ => .text text
    | none, some value => value
    | none, none => .text "APKBUILD"
  logLevel :=
    match environment "APKBUILD_LINT_LOG_LEVEL", Layer.lookup pairs "log_level" with
    | some text, _ => .text text
    | none, some value => value
    | none, none => .text "WARNING"
  disabledChecks :=
    match environment "APKBUILD_LINT_DISABLE", Layer.lookup pairs "disabled_checks" with
    | some text, _ => .list ((Layer.namesOf text).map .text)
    | none, some value => value
    | none, none => .list []

namespace Merged

/-- The values as one layer. -/
def layer (values : Merged) : Layer where
  buildScript := some values.buildScript
  logLevel := some values.logLevel
  disabledChecks := some values.disabledChecks

/-- Whether values are valid: a text that is not empty, a text whose capitals are a level, and names
of rules. -/
structure Valid (values : Merged) (name level : String) (checks : List String) : Prop where
  buildScript : values.buildScript = .text name ∧ name ≠ ""
  logLevel : values.logLevel = .text level ∧ Level.upper level ∈ Level.all.map Level.name
  disabledChecks : values.disabledChecks = .list (checks.map .text) ∧
    ∀ check ∈ checks, check ∈ Rule.names

theorem Valid.unique {values : Merged} {name level otherName otherLevel : String}
    {checks otherChecks : List String}
    (valid : values.Valid name level checks)
    (other : values.Valid otherName otherLevel otherChecks) :
    name = otherName ∧ level = otherLevel ∧ checks = otherChecks := by
  have names := valid.buildScript.1.symm.trans other.buildScript.1
  have levels := valid.logLevel.1.symm.trans other.logLevel.1
  have lists := valid.disabledChecks.1.symm.trans other.disabledChecks.1
  refine ⟨Yaml.Value.text.inj names, Yaml.Value.text.inj levels, ?_⟩
  exact List.map_injective_iff.mpr (fun _ _ => Yaml.Value.text.inj) (Yaml.Value.list.inj lists)

end Merged

variable {world other : World} {explicit : Option String}
  {pairs others : List (Yaml.Value × Yaml.Value)}

end Settings
end RecipeLint
