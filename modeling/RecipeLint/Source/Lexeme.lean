import RecipeLint.Source.Cursor
import RecipeLint.Text.Digit

/-!
# Lexemes

The fixed shapes that the grammar recognises in front of a text without reading it: the head of an
assignment, a redirection operator with its descriptor, a variable name, and the operators that are
longer than one character or depend on the next one.  A recogniser of a shape with parts returns the
parts; `text` puts them together again.
-/

namespace RecipeLint

/-- The part of an assignment in front of its value: `name=`, `name+=`, `name[index]=`. -/
structure AssignHead where
  name : List Char
  /-- What stands between the brackets, if there are any. -/
  index : Option (List Char)
  /-- Whether the operator is `+=`. -/
  append : Bool
deriving DecidableEq, Repr

namespace AssignHead

def indexText (head : AssignHead) : Option (List Char) :=
  head.index.map fun index => '[' :: index ++ [']']

def operator (head : AssignHead) : List Char :=
  if head.append then ['+', '='] else ['=']

def text (head : AssignHead) : List Char :=
  head.name ++ head.indexText.getD [] ++ head.operator

/-- Whether a text starts with an assignment operator, and if so whether it appends. -/
def operator? (text : List Char) : Option Bool :=
  if ['='].isPrefixOf text then some false
  else if ['+', '='].isPrefixOf text then some true
  else none

/-- The bracketed index in front of a text, without its brackets.  An index stays on its line. -/
def index? : List Char → Option (List Char)
  | '[' :: rest =>
      let index := rest.takeWhile fun c => c ≠ ']' && c ≠ '\n'
      if rest[index.length]? = some ']' then some index else none
  | _ => none

def of? (text : List Char) : Option AssignHead :=
  let name := nameRun text
  if name.isEmpty then
    none
  else
    let rest := text.drop name.length
    match index? rest with
    | some index =>
        (operator? (rest.drop (index.length + 2))).map ({ name, index := some index, append := · })
    | none => (operator? rest).map ({ name, index := none, append := · })

end AssignHead

inductive RedirectOp where
  | hereDocTabs
  | hereString
  | hereDoc
  | readWrite
  | duplicateInput
  | append
  | duplicateOutput
  | clobber
  | input
  | output
  | appendBoth
  | outputBoth
deriving DecidableEq, Repr

namespace RedirectOp

def text : RedirectOp → String
  | .hereDocTabs => "<<-"
  | .hereString => "<<<"
  | .hereDoc => "<<"
  | .readWrite => "<>"
  | .duplicateInput => "<&"
  | .append => ">>"
  | .duplicateOutput => ">&"
  | .clobber => ">|"
  | .input => "<"
  | .output => ">"
  | .appendBoth => "&>>"
  | .outputBoth => "&>"

/-- Whether the operator takes the lines that follow as its input. -/
def takesBody : RedirectOp → Bool
  | .hereDocTabs | .hereDoc => true
  | _ => false

/-- The longest operator in front of a text that a descriptor may precede. -/
def of? (text : List Char) : Option RedirectOp :=
  [hereDocTabs, hereString, hereDoc, readWrite, duplicateInput, append, duplicateOutput, clobber,
    input, output].find? (·.text.toList.isPrefixOf text)

/-- The longest operator in front of a text that redirects both outputs. -/
def both? (text : List Char) : Option RedirectOp :=
  [appendBoth, outputBoth].find? (·.text.toList.isPrefixOf text)

end RedirectOp

/-- A redirection operator with the descriptor in front of it. -/
structure RedirectHead where
  /-- The descriptor's digits, empty if there are none; absent for an operator that takes no
  descriptor. -/
  descriptor : Option (List Char)
  op : RedirectOp
deriving DecidableEq, Repr

namespace RedirectHead

def text (head : RedirectHead) : List Char :=
  head.descriptor.getD [] ++ head.op.text.toList

def of? (text : List Char) : Option RedirectHead :=
  let digits := text.takeWhile Text.isDecimal
  match RedirectOp.of? (text.drop digits.length) with
  | some op => some { descriptor := some digits, op }
  | none => (RedirectOp.both? text).map ({ descriptor := none, op := · })

/-- The redirection operator in front of a text, unless a process substitution starts there. -/
def starting? (text : List Char) : Option RedirectHead :=
  if [['<', '('], ['>', '(']].any (·.isPrefixOf text) then none else of? text

def fd (head : RedirectHead) : Option String :=
  match head.descriptor with
  | some (digit :: digits) => some (String.ofList (digit :: digits))
  | _ => none

end RedirectHead

def name? (text : List Char) : Option (List Char) :=
  match nameRun text with
  | [] => none
  | name => some name

def isName (text : List Char) : Bool :=
  text.head?.any isNameStart && text.all isNameChar

def specialParameters : List Char :=
  ['@', '*', '#', '?', '-', '$', '!']

/-- The operator of a test in front of a text. -/
def testOperator? (text : List Char) : Option (List Char) :=
  [['&', '&'], ['|', '|'], ['('], [')'], ['<'], ['>']].find? (·.isPrefixOf text)

/-- Whether a text starts with an operator that ends an item of a case command. -/
def closesCaseItem (text : List Char) : Bool :=
  [[';', ';'], [';', '&']].any (·.isPrefixOf text)

/-- Whether a text starts with the exclamation mark that negates a pipeline. -/
def negates (text : List Char) : Bool :=
  [['!', ' '], ['!', '\t'], ['!', '\n']].any (·.isPrefixOf text)

/-- The name of a parameter in front of a text, as it may stand in braces; empty if there is
none. -/
def parameterRun : List Char → List Char
  | [] => []
  | c :: rest =>
      if isNameStart c then (c :: rest).takeWhile isNameChar
      else if c.isDigit then (c :: rest).takeWhile Char.isDigit
      else if specialParameters.contains c then [c]
      else []

/-- Whether a text starts with the sign after an indirect parameter that asks for names. -/
def asksForNames (text : List Char) : Bool :=
  [['*', '}'], ['@', '}']].any (·.isPrefixOf text)

/-- The operator in front of a text that takes an operand up to the closing brace. -/
def operandOperator? (text : List Char) : Option (List Char) :=
  [[':', '-'], [':', '='], [':', '?'], [':', '+'], ['-'], ['='], ['?'], ['+'], ['%', '%'], ['%'],
    ['#', '#'], ['#'], ['^', '^'], ['^'], [',', ','], [',']].find? (·.isPrefixOf text)

end RecipeLint
