import RecipeLint.Grammar.Quote

/-!
# Expansions

What a dollar sign introduces: parameters with and without braces, the output of commands,
arithmetic, and quoted text.
-/

namespace RecipeLint

namespace Reading

/-- A loop state that counts open brackets besides the pieces read. -/
structure Nested (α : Type) where
  pieces : Pieces
  /-- The number of brackets opened and not closed. -/
  depth : α

/-- One round of reading an arithmetic expression up to `closing`. -/
def arithmeticRound (inner : Inner) (opening : Position) (closing : String) (state : Nested Int) :
    Reading (Round (Nested Int) (List Part)) := do
  let pos ← here
  let literal (c : Char) (depth : Int) : Reading (Round (Nested Int) (List Part)) := do
    skip 1
    return .again { pieces := state.pieces.push pos [c], depth }
  match ← rest with
  | [] => failAt opening (.unclosedArithmetic closing)
  | c :: rest =>
      if state.depth = 0 && (← cursor).startsWith closing then
        return .done state.pieces.finish
      else if c = '\\' && rest.head? = some '\n' then
        skip 2
        return .again state
      else if c = '$' then
        match ← inner.expansion false with
        | some part => return .again { state with pieces := state.pieces.add part }
        | none => literal c state.depth
      else if c = '\x60' then
        return .again { state with pieces := state.pieces.add (← backquoted inner) }
      else if c = '"' then
        return .again { state with pieces := state.pieces.add (← doubleQuoted inner pos false) }
      else if c = '(' then
        literal c (state.depth + 1)
      else if c = ')' then
        literal c (state.depth - 1)
      else
        literal c state.depth

/-- The parts of an arithmetic expression up to `closing`, which is read as well. -/
def arithmeticParts (inner : Inner) (closing : String) : Reading (List Part) := do
  let opening ← here
  let parts ← iterate (arithmeticRound inner opening closing) inner.rounds
    { pieces := .empty opening, depth := 0 }
  skip closing.length
  return parts

/-- One round of reading the operand of an operator in braces up to one of `stops`. -/
def operandRound (inner : Inner) (stops : List Char) (state : Nested Nat) :
    Reading (Round (Nested Nat) (List Part)) := do
  let pos ← here
  let literal (c : Char) (depth : Nat) : Reading (Round (Nested Nat) (List Part)) := do
    skip 1
    return .again { pieces := state.pieces.push pos [c], depth }
  match ← rest with
  | [] => fail (.unclosed "$\x7b" "\x7d")
  | c :: rest =>
      if state.depth = 0 && stops.contains c then
        return .done state.pieces.finish
      else if c = '\\' then
        skip 2
        if rest.head? = some '\n' then
          return .again state
        else
          return .again { state with pieces := state.pieces.push pos (c :: rest.take 1) }
      else if c = '\'' then
        return .again { state with pieces := state.pieces.add (← singleQuoted pos false) }
      else if c = '"' then
        return .again { state with pieces := state.pieces.add (← doubleQuoted inner pos false) }
      else if c = '\x60' then
        return .again { state with pieces := state.pieces.add (← backquoted inner) }
      else if c = '$' then
        match ← inner.expansion false with
        | some part => return .again { state with pieces := state.pieces.add part }
        | none => literal c state.depth
      else if c = '{' then
        literal c (state.depth + 1)
      else if c = '}' then
        literal c (state.depth - 1)
      else
        literal c state.depth

/-- The operand of an operator in braces up to one of `stops`; absent if it is empty. -/
def operand (inner : Inner) (stops : List Char) : Reading (Option Word) := do
  let pos ← here
  let parts ← iterate (operandRound inner stops) inner.rounds
    { pieces := .empty pos, depth := 0 }
  return if parts.isEmpty then none else some { pos, parts }

/-- The index of an array element in brackets. -/
def index (inner : Inner) : Reading Word := do
  skip 1
  let pos ← here
  let text ← rest
  match bracketEnd? '[' ']' 0 1 text with
  | none =>
      skip text.length
      fail (.unclosed "[" "]")
  | some length =>
      skip (length + 1)
      inlineWord inner (text.take length) pos

def question : Reading Question := do
  match Question.of? (← rest) with
  | some question =>
      skip 1
      return question
  | none => return .value

def parameterName : Reading String := do
  let name := parameterRun (← rest)
  if name.isEmpty then
    fail .invalidParameter
  else
    skip name.length
    return String.ofList name

/-- An operator that takes an operand up to the closing brace. -/
def expand (inner : Inner) (pos : Position) (op : List Char) : Reading (Option Operation) := do
  skip op.length
  return some (.expand pos (String.ofList op) (← operand inner ['}']))

/-- The operand behind a separator; absent if the separator is. -/
def furtherOperand (inner : Inner) (separator : Char) : Reading (Option Word) := do
  if (← current) = some separator then
    skip 1
    operand inner ['}']
  else
    return none

/-- The part of a value that an offset and a length select. -/
def slice (inner : Inner) (pos : Position) : Reading (Option Operation) := do
  skip 1
  let offset ← operand inner [':', '}']
  return some (.slice pos offset (← furtherOperand inner ':'))

def replace (inner : Inner) (pos : Position) : Reading (Option Operation) := do
  skip 1
  let everywhere := decide ((← current) = some '/')
  skipIf fun c => c = '/' || c = '#' || c = '%'
  let pattern ← operand inner ['/', '}']
  return some (.replace pos everywhere pattern (← furtherOperand inner '/'))

def operation (inner : Inner) : Reading (Option Operation) := do
  let pos ← here
  match operandOperator? (← rest) with
  | some op => expand inner pos op
  | none =>
      match ← rest with
      | [] => return none
      | c :: rest =>
          if c = '}' then
            return none
          else if c = ':' then
            slice inner pos
          else if c = '/' then
            replace inner pos
          else if c = '@' && rest.head?.any isNameStart then
            skip 2
            return some (.expand pos (String.ofList (c :: rest.take 1)) none)
          else
            fail (.invalidOperator c)

/-- The sign after an indirect parameter that asks for the names which start with it. -/
def namesMark (question : Question) : Reading Unit := do
  if question = .indirect && asksForNames (← rest) then
    skip 1

def optionalIndex (inner : Inner) : Reading (Option Word) := do
  if (← current) = some '[' then
    some <$> index inner
  else
    return none

def braced (inner : Inner) : Reading Part := do
  let pos ← here
  skip 2
  let question ← question
  let name ← parameterName
  let index ← optionalIndex inner
  namesMark question
  let operation ← operation inner
  if (← current) = some '}' then
    skip 1
    return .braced pos question name index operation
  else
    failAt pos (.unclosed "$\x7b" "\x7d")

/-- An expansion after a dollar sign, inside double quotes or not; absent if the sign stands for
itself. -/
def expansion (inner : Inner) (quoted : Bool) : Reading (Option Part) := do
  let pos ← here
  match (← rest).drop 1 with
  | [] => return none
  | c :: rest =>
      if c = '\'' && !quoted then
        skip 1
        some <$> singleQuoted pos true
      else if c = '"' && !quoted then
        skip 1
        some <$> doubleQuoted inner pos true
      else if c = '(' then
        if rest.head? = some '(' then
          skip 3
          return some (.arithmetic pos (← arithmeticParts inner "))") false)
        else
          return some (.substitution pos (← substituted inner "$(") false)
      else if c = '[' then
        skip 2
        return some (.arithmetic pos (← arithmeticParts inner "]") true)
      else if c = '{' then
        some <$> braced inner
      else if isNameStart c then
        let name := (c :: rest).takeWhile isNameChar
        skip (name.length + 1)
        return some (.simple pos (String.ofList name))
      else if c.isDigit || specialParameters.contains c then
        skip 2
        return some (.simple pos (String.singleton c))
      else
        return none

end Reading
end RecipeLint
