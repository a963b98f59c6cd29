import RecipeLint.Lint.Violation
import RecipeLint.Recipe.Basic

/-!
# Checks of the dialect

Recipes are written in the dialect of the POSIX shell, without needless braces, with a space at the
start of every comment, and without commands that run while the recipe is only being read.
-/

namespace RecipeLint

/-- The violations that a check finds at the nodes of a script, parents before children. -/
def Script.violations (script : Script) (check : Node → List Violation) : List Violation :=
  Descent.full.collect (fun node => (true, check node)) (.script script)

/-- A comment that does not start with a space; an empty one is fine. -/
def Node.commentViolations : Node → List Violation
  | .comment it =>
      match it.text.toList with
      | [] => []
      | c :: _ => if c = ' ' then [] else [.found .badCommentPrefix it.pos []]
  | _ => []

def Recipe.commentViolations (recipe : Recipe) : List Violation :=
  recipe.script.violations Node.commentViolations

def Recipe.substitutionViolations (recipe : Recipe) : List Violation :=
  let visit (node : Node) : Bool × List Violation :=
    match node with
    | .command (.function ..) => (false, [])
    | .part (.substitution pos _ _) => (false, [.found .cmdSubstInGlobalVar pos []])
    | _ => (true, [])
  Descent.full.collect visit (.script recipe.script)

/-- Whether a parameter is a number of more than one digit, which needs braces. -/
def isLongNumber (name : String) : Bool :=
  name.length > 1 && name.toList.all Char.isDigit

/-- Whether a text would be taken for a part of a name in front of it. -/
def extendsName (text : String) : Bool :=
  text.toList.head?.any isNameChar

/-- What is wrong with the braces of a part in front of the next one. -/
def Part.braceViolation? (part : Part) (next : Option Part) : Option Violation := do
  let name ← part.parameter?
  if part.isShort || part.isModified || isLongNumber name then
    none
  else if (next.bind literal?).any extendsName then
    none
  else
    some (.found .trivialLongParamExp part.pos [name, name])

/-- The expansions among adjacent parts whose braces could be left out. -/
def braceViolations : List Part → List Violation
  | [] => []
  | part :: parts => (part.braceViolation? parts.head?).toList ++ braceViolations parts

/-- The adjacent parts that a node holds. -/
def Node.adjacentParts : Node → List Part
  | .word it => it.parts
  | .part (.double _ parts _) => parts
  | .part (.arithmetic _ parts _) => parts
  | _ => []

def Recipe.braceViolations (recipe : Recipe) : List Violation :=
  recipe.script.violations fun node => RecipeLint.braceViolations node.adjacentParts

/-- The construct of another shell that a command is. -/
def Command.foreign? : Command → Option String
  | .test .. => some "test clause"
  | .evaluation .. => some "let clause"
  | .declaration _ declarator _ _ => if declarator.isPosix then none else some declarator.text
  | .iteration _ _ _ select => if select then some "select clause" else none
  | .function _ _ _ keyword => if keyword then some "non-POSIX function declaration" else none
  | _ => none

/-- The construct of another shell that a part of a word is. -/
def Part.foreign? : Part → Option String
  | .glob .. => some "extended globbing expression"
  | .process .. => some "process substitution"
  | .braced _ .value _ none (some (.slice ..)) => some "advanced parameter expression"
  | .braced _ .value _ none _ => none
  | .braced .. => some "advanced parameter expression"
  | _ => none

/-- The construct of another shell that a node is. -/
def Node.foreign? : Node → Option String
  | .command it => it.foreign?
  | .part it => it.foreign?
  | _ => none

def Recipe.dialectViolations (recipe : Recipe) : List Violation :=
  recipe.script.violations fun node =>
    node.foreign?.toList.map fun feature => .found .forbiddenBashism node.pos [feature]

end RecipeLint
