import RecipeLint.Source.Lexeme

/-!
# Shell scripts as trees

The syntax of a shell script: words and their parts, commands, statements and the script itself.
Every construct records the position where it starts.  The language is a permissive superset of the
POSIX shell, so that constructs of other shells are read as well and can be reported.
-/

namespace RecipeLint

structure Comment where
  pos : Position
  text : String
deriving DecidableEq, Repr

/-- What a braced expansion asks of its parameter. -/
inductive Question where
  /-- The value: `${name}`. -/
  | value
  /-- The value of the parameter it names: `${!name}`. -/
  | indirect
  /-- The length of the value: `${#name}`. -/
  | length
  /-- The width of the value: `${%name}`. -/
  | width
deriving DecidableEq, Repr

/-- The mark in front of a text that makes a braced expansion ask for more than a value. -/
def Question.of? : List Char → Option Question
  | [] => none
  | c :: rest =>
      if c = '#' && rest.head?.any (fun d => isNameChar d || d = '@' || d = '*') then
        some .length
      else if c = '!' && rest.head?.any (fun d => isNameChar d || d = '@' || d =
        '*' || d = '#') then
        some .indirect
      else if c = '%' && rest.head?.any isNameStart then
        some .width
      else
        none

inductive Declarator where
  | declare
  | localName
  | exported
  | readonly
  | typeset
  | nameref
deriving DecidableEq, Repr

namespace Declarator

def text : Declarator → String
  | .declare => "declare"
  | .localName => "local"
  | .exported => "export"
  | .readonly => "readonly"
  | .typeset => "typeset"
  | .nameref => "nameref"

def all : List Declarator :=
  [.declare, .localName, .exported, .readonly, .typeset, .nameref]

/-- The declarator that a word spells. -/
def of? (word : String) : Option Declarator :=
  all.find? (·.text = word)

/-- Whether the keyword belongs to the dialect that recipes are written in. -/
def isPosix : Declarator → Bool
  | .localName | .exported => true
  | _ => false

end Declarator

inductive Connective where
  | both
  | either
  | pipe
  | pipeAll
deriving DecidableEq, Repr

def Connective.text : Connective → String
  | .both => "&&"
  | .either => "||"
  | .pipe => "|"
  | .pipeAll => "|&"

namespace Connective

def pipe? (text : List Char) : Option Connective :=
  if ['|', '|'].isPrefixOf text then none
  else [pipeAll, pipe].find? (·.text.toList.isPrefixOf text)

def logical? (text : List Char) : Option Connective :=
  [both, either].find? (·.text.toList.isPrefixOf text)

end Connective

inductive CaseEnd where
  | leave
  | fallThrough
  | resume
deriving DecidableEq, Repr

def CaseEnd.text : CaseEnd → String
  | .leave => ";;"
  | .fallThrough => ";&"
  | .resume => ";;&"

def CaseEnd.of? (text : List Char) : Option CaseEnd :=
  [resume, leave, fallThrough].find? (·.text.toList.isPrefixOf text)

mutual

structure Word where
  pos : Position
  parts : List Part

inductive Part where
  /-- Unquoted text, its backslashes kept. -/
  | literal (pos : Position) (text : String)
  /-- Text in single quotes, `dollar` if a dollar sign stands in front. -/
  | single (pos : Position) (text : String) (dollar : Bool)
  /-- Parts in double quotes, `dollar` if a dollar sign stands in front. -/
  | double (pos : Position) (parts : List Part) (dollar : Bool)
  /-- A parameter without braces: `$name`. -/
  | simple (pos : Position) (name : String)
  /-- A parameter in braces: `${name}` and its modifications. -/
  | braced (pos : Position) (question : Question) (name : String) (index : Option Word)
      (operation : Option Operation)
  /-- The output of commands: `$(...)`, or in backquotes. -/
  | substitution (pos : Position) (body : List Item) (backquoted : Bool)
  /-- The value of an arithmetic expression: `$((...))`, or in brackets `$[...]`. -/
  | arithmetic (pos : Position) (parts : List Part) (bracketed : Bool)
  /-- A file that commands write or read: `<(...)`, `>(...)`. -/
  | process (pos : Position) (direction : Char) (body : List Item)
  /-- A repeated pattern such as `*(a|b)`. -/
  | glob (pos : Position) (mark : Char) (pattern : String)

/-- What a braced expansion does with the value. -/
inductive Operation where
  /-- Takes a part of it: `:offset:length`. -/
  | slice (pos : Position) (offset length : Option Word)
  /-- Replaces a pattern in it, once or everywhere: `/pattern/replacement`. -/
  | replace (pos : Position) (everywhere : Bool) (pattern replacement : Option Word)
  /-- Any other operator with its operand: `:-word`, `%word`, `@Q`. -/
  | expand (pos : Position) (op : String) (operand : Option Word)

structure Assign where
  pos : Position
  name : String
  index : Option Word
  append : Bool
  value : Value

inductive Value where
  /-- Nothing: a declaration only names the variable. -/
  | naked
  | empty
  | scalar (word : Word)
  | array (elements : List Word)

structure Redirect where
  pos : Position
  op : RedirectOp
  /-- The descriptor, if one is written. -/
  fd : Option String
  target : Word
  body : Option Word

inductive Item where
  | comment (comment : Comment)
  | stmt (stmt : Stmt)

structure Stmt where
  pos : Position
  /-- The command; absent if there are only redirections. -/
  command : Option Command
  redirects : List Redirect
  negated : Bool
  background : Bool

inductive Command where
  /-- Assignments and a program with its arguments. -/
  | call (pos : Position) (assigns : List Assign) (args : List Word)
  /-- A declaration of variables with its options. -/
  | declaration (pos : Position) (declarator : Declarator) (opts : List Word)
      (assigns : List Assign)
  | evaluation (pos : Position) (exprs : List Word)
  /-- A declaration of a function, `keyword` if the word `function` introduces it. -/
  | function (pos : Position) (name : String) (body : Stmt) (keyword : Bool)
  | block (pos : Position) (body : List Item)
  | subshell (pos : Position) (body : List Item)
  /-- A conditional; a further `elif` is a conditional in its alternative. -/
  | conditional (pos : Position) (condition consequence alternative : List Item)
  | loop (pos : Position) (condition body : List Item) (untilTrue : Bool)
  /-- A loop over values, `select` if the user chooses among them. -/
  | iteration (pos : Position) (range : Range) (body : List Item) (select : Bool)
  | case (pos : Position) (subject : Word) (items : List CaseItem)
  | binary (pos : Position) (connective : Connective) (left right : Stmt)
  /-- A test in double brackets, operands and operators alike as words. -/
  | test (pos : Position) (words : List Word)
  | arithmetic (pos : Position) (expr : Word)

inductive Range where
  /-- Words, or the parameters if no list is given. -/
  | words (pos : Position) (name : String) (items : List Word) (listed : Bool)
  /-- Initialisation, condition and step in double parentheses. -/
  | arithmetic (pos : Position) (expr : Word)

structure CaseItem where
  pos : Position
  patterns : List Word
  body : List Item
  ending : CaseEnd

end

structure Script where
  name : String
  items : List Item

namespace Part

def pos : Part → Position
  | .literal pos .. | .single pos .. | .double pos .. | .simple pos .. | .braced pos ..
  | .substitution pos .. | .arithmetic pos .. | .process pos .. | .glob pos .. => pos

/-- The text of a part, if it is unquoted and literal. -/
def literal? : Part → Option String
  | .literal _ text => some text
  | _ => none

/-- The parameter that a part expands. -/
def parameter? : Part → Option String
  | .simple _ name => some name
  | .braced _ _ name _ _ => some name
  | _ => none

/-- Whether an expansion has no braces. -/
def isShort : Part → Bool
  | .simple .. => true
  | _ => false

/-- Whether an expansion is of more than the value of a parameter. -/
def isModified : Part → Bool
  | .braced _ question _ index operation => question ≠ .value || index.isSome || operation.isSome
  | _ => false

end Part

def Operation.pos : Operation → Position
  | .slice pos .. | .replace pos .. | .expand pos .. => pos

def Command.pos : Command → Position
  | .call pos .. | .declaration pos .. | .evaluation pos .. | .function pos .. | .block pos ..
  | .subshell pos .. | .conditional pos .. | .loop pos .. | .iteration pos .. | .case pos ..
  | .binary pos .. | .test pos .. | .arithmetic pos .. => pos

def Range.pos : Range → Position
  | .words pos .. | .arithmetic pos .. => pos

/-- The text of a word that consists of unquoted literals only. -/
def Word.literal? (word : Word) : Option String :=
  if word.parts.isEmpty then
    none
  else
    (word.parts.mapM Part.literal?).map fun texts => texts.foldl (· ++ ·) ""

/-- A function that changes the elements of a list one by one maps over it. -/
theorem eq_map_of_cons {α : Type} {change : List α → List α} {each : α → α} (nil : change [] = [])
    (cons : ∀ value values, change (value :: values) = each value :: change values)
    (values : List α) :
    change values = values.map each := by
  induction values with
  | nil => exact nil
  | cons value values ih => rw [cons, ih, List.map_cons]

end RecipeLint
