import RecipeLint.Text.Digit
import RecipeLint.Text.Quoted

/-!
# Arguments

The command line has two options, each of which ends the work at once, and paths.  A long option may
be cut short as long as it stays unambiguous, and short ones may be written together.  A double
hyphen ends the options.  All paths stand together; what else is found is reported as unrecognized.
-/

namespace RecipeLint

inductive Flag where
  | help
  | version
deriving DecidableEq, Repr

namespace Flag

def spellings : Flag → List String
  | .help => ["-h", "--help"]
  | .version => ["--version"]

/-- All spellings with the options that they are of. -/
def table : List (String × Flag) :=
  [("-h", .help), ("--help", .help), ("--version", .version)]

def text (flag : Flag) : String :=
  "/".intercalate flag.spellings

end Flag

inductive UsageError where
  /-- A short form that several options have. -/
  | ambiguous (argument : String) (spellings : List String)
  | ignoredValue (flag : Flag) (value : String)
  /-- Arguments that are neither options nor among the paths. -/
  | unrecognized (arguments : List String)
deriving DecidableEq, Repr

def UsageError.detail : UsageError → String
  | .ambiguous argument spellings =>
      "ambiguous option: " ++ argument ++ " could match " ++ ", ".intercalate spellings
  | .ignoredValue flag value =>
      "argument " ++ flag.text ++ ": ignored explicit argument " ++ Text.quoted value
  | .unrecognized arguments => "unrecognized arguments: " ++ " ".intercalate arguments

inductive Argument where
  | path (text : String)
  /-- An option by one of its spellings, and the value behind it. -/
  | flag (flag : Flag) (spelling : String) (value : Option (List Char))
  /-- Something that looks like an option but is none. -/
  | unknown (text : String)
  | separator
deriving DecidableEq, Repr

namespace Argument

def isNegativeNumber (text : List Char) : Bool :=
  let line := if text.getLast? = some '\n' then text.dropLast else text
  match line with
  | '-' :: digits =>
      match digits.span Text.isDecimal with
      | (whole, []) => !whole.isEmpty
      | (_, '.' :: fraction) => !fraction.isEmpty && fraction.all Text.isDecimal
      | _ => false
  | _ => false

/-- The text in front of the first equals sign, and the text behind it if there is one. -/
def assigned (text : List Char) : List Char × Option (List Char) :=
  match text.span (· ≠ '=') with
  | (name, _ :: value) => (name, some value)
  | (name, []) => (name, none)

/-- The options that an argument may be, each with the value behind it. -/
def candidates (text : List Char) : List Argument :=
  match text with
  | '-' :: '-' :: _ =>
      let (name, value) := assigned text
      (Flag.table.filter fun (spelling, _) => name.isPrefixOf spelling.toList).map
        fun (spelling, it) => .flag it spelling value
  | '-' :: c :: rest =>
      (Flag.table.filter fun (spelling, _) => spelling.toList = ['-', c]).map
        fun (spelling, it) => .flag it spelling (some rest)
  | _ => []

/-- The option that a text is exactly, perhaps with a value behind an equals sign. -/
def spelled? (text : List Char) : Option Argument :=
  let option (name : List Char) (value : Option (List Char)) : Option Argument :=
    (Flag.table.lookup (String.ofList name)).map fun it => .flag it (String.ofList name) value
  let (name, value) := assigned text
  option text none <|> value.bind fun _ => option name value

def spelling : Argument → String
  | .flag _ spelling _ => spelling
  | _ => ""

/-- What an argument in front of a double hyphen is. -/
def classify (argument : String) : Except UsageError Argument :=
  let text := argument.toList
  if text.head? ≠ some '-' then .ok (.path argument)
  else
    match spelled? text with
    | some option => .ok option
    | none =>
        if text.length = 1 then .ok (.path argument)
        else
          match candidates text with
          | [option] => .ok option
          | [] =>
              if isNegativeNumber text || text.contains ' ' then .ok (.path argument)
              else .ok (.unknown argument)
          | options => .error (.ambiguous argument (options.map spelling))

def classifyAll : List String → Except UsageError (List Argument)
  | [] => .ok []
  | "--" :: arguments => .ok (.separator :: arguments.map .path)
  | argument :: arguments => do
      let first ← classify argument
      return first :: (← classifyAll arguments)

/-- The option that is asked for in the end where short options are written together. -/
def expand (asked : Flag) (spelling : String) : List Char → Except UsageError Flag
  | [] => .error (.ignoredValue asked "")
  | c :: rest =>
      let value := String.ofList (c :: rest)
      if spelling.toList.take 2 = ['-', '-'] then .error (.ignoredValue asked value)
      else
        let next := String.ofList ['-', c]
        match Flag.table.lookup next with
        | none => .error (.ignoredValue asked value)
        | some further => if rest.isEmpty then .ok further else expand further next rest

end Argument

inductive Request where
  | flag (flag : Flag)
  | check (paths : List String)
deriving DecidableEq, Repr

namespace Request

def written : Argument → String
  | .path text | .unknown text => text
  | .separator => "--"
  | .flag _ spelling _ => spelling

def isPathLike : Argument → Bool
  | .path _ | .separator => true
  | _ => false

/-- The paths in a run of arguments, the first separator left out. -/
def pathsIn (arguments : List Argument) : List String :=
  (arguments.erase .separator).map written

/-- Goes through the arguments.  The first run of paths is kept; later ones, and unknown options,
are `extras`; the first option decides. -/
def resolve : Nat → Option (List String) → List String → List Argument →
    Except UsageError Request
  | 0, _, extras, _ => .error (.unrecognized extras)
  | _, paths, extras, [] =>
      if extras.isEmpty then .ok (.check (paths.getD [])) else .error (.unrecognized extras)
  | fuel + 1, paths, extras, argument :: arguments =>
      match argument with
      | .flag it spelling value =>
          match value with
          | none => .ok (.flag it)
          | some value => (Argument.expand it spelling value).map .flag
      | .unknown text => resolve fuel paths (extras ++ [text]) arguments
      | .path _ | .separator =>
          let (run, rest) := (argument :: arguments).span isPathLike
          match paths with
          | none => resolve fuel (some (pathsIn run)) extras rest
          | some _ => resolve fuel paths (extras ++ run.map written) rest

def ofArguments (arguments : List String) : Except UsageError Request := do
  let arguments ← Argument.classifyAll arguments
  resolve (arguments.length + 1) none [] arguments

end Request
end RecipeLint
