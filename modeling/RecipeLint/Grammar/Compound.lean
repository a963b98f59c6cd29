import RecipeLint.Grammar.Simple

/-!
# Compound commands

Commands that reserved words or brackets enclose, and the choice among all kinds of commands.
-/

namespace RecipeLint

def compoundWords : List String :=
  ["if", "while", "until", "for", "select", "case", "function", "[[", "\x7b"]

namespace Reading

def block (inner : Inner) : Reading Command := do
  let pos ← here
  skip 1
  let body ← inner.statements ["\x7d"]
  expectWord "\x7d"
  return .block pos body

def subshell (inner : Inner) : Reading Command := do
  let pos ← here
  skip 1
  let body ← inner.statements [")"]
  if (← current) = some ')' then
    skip 1
    return .subshell pos body
  else
    fail (.unclosed "(" ")")

/-- What follows the consequence of a conditional. -/
def alternative (inner : Inner) : Reading (List Item) := do
  skipBlanks
  let pos ← here
  match ← wordAt? ["elif", "else", "fi"] with
  | some "elif" =>
      let command ← inner.furtherConditional
      return [.stmt (.ofDraft pos (some command) [])]
  | some "else" =>
      skip 4
      let items ← inner.statements ["fi"]
      expectWord "fi"
      return items
  | some _ =>
      skip 2
      return []
  | none => fail .expectedFi

def conditional (inner : Inner) (keyword : String) : Reading Command := do
  let pos ← here
  skip keyword.length
  let condition ← inner.statements ["then"]
  expectWord "then"
  let consequence ← inner.statements ["elif", "else", "fi"]
  return .conditional pos condition consequence (← alternative inner)

def loopBody (inner : Inner) : Reading (List Item) := do
  linebreaks inner
  expectWord "do"
  let body ← inner.statements ["done"]
  expectWord "done"
  return body

def loop (inner : Inner) (keyword : String) : Reading Command := do
  let pos ← here
  skip keyword.length
  let condition ← inner.statements ["do"]
  return .loop pos condition (← loopBody inner) (keyword = "until")

def rangeRound (inner : Inner) (items : List Word) : Reading (Round (List Word) (List Word)) := do
  skipBlanks
  if (← current).all ['\n', ';', '#'].contains then
    return .done items.reverse
  else
    return .again ((← word inner) :: items)

/-- A semicolon that may follow the range of an iteration. -/
def rangeEnd : Reading Unit := do
  skipBlanks
  skipIf (· = ';')

def rangeName (keyword : String) : Reading String := do
  let name := nameRun (← rest)
  skip name.length
  if name.isEmpty || !(← cursor).wordEndsAt 0 then
    fail (.expectedName keyword)
  else
    return String.ofList name

/-- The words that an iteration runs over; absent if no list is given. -/
def rangeWords (inner : Inner) : Reading (Option (List Word)) := do
  if (← cursor).atWord "in" then
    skip 2
    some <$> iterate (rangeRound inner) inner.rounds []
  else
    return none

def wordRange (inner : Inner) (keyword : String) : Reading Range := do
  let pos ← here
  let name ← rangeName keyword
  linebreaks inner
  let items ← rangeWords inner
  rangeEnd
  return .words pos name (items.getD []) items.isSome

def arithmeticRange (inner : Inner) : Reading Range := do
  let pos ← here
  skip 2
  let parts ← arithmeticParts inner "))"
  rangeEnd
  return .arithmetic pos { pos := pos.right 2, parts }

def range (inner : Inner) (keyword : String) : Reading Range := do
  if keyword = "for" && (← cursor).startsWith "((" then
    arithmeticRange inner
  else
    wordRange inner keyword

def iteration (inner : Inner) (keyword : String) : Reading Command := do
  let pos ← here
  skip keyword.length
  skipBlanks
  let range ← range inner keyword
  return .iteration pos range (← loopBody inner) (keyword = "select")

def patternRound (inner : Inner) (patterns : List Word) :
    Reading (Round (List Word) (List Word)) := do
  skipBlanks
  let patterns := (← word inner) :: patterns
  skipBlanks
  if (← current) = some '|' then
    skip 1
    return .again patterns
  else
    return .done patterns.reverse

/-- The end of a case item.  The last item may go without one. -/
def caseEnd : Reading CaseEnd := do
  match CaseEnd.of? (← rest) with
  | some ending =>
      skip ending.text.length
      return ending
  | none => return .leave

def caseItem (inner : Inner) : Reading CaseItem := do
  let pos ← here
  skipIf (· = '(')
  let patterns ← iterate (patternRound inner) inner.rounds []
  if (← current) = some ')' then
    skip 1
    let body ← inner.statements ["esac"]
    return { pos, patterns, body, ending := ← caseEnd }
  else
    fail .expectedPatternEnd

def caseRound (inner : Inner) (items : List CaseItem) :
    Reading (Round (List CaseItem) (List CaseItem)) := do
  linebreaks inner
  if (← cursor).atWord "esac" then
    skip 4
    return .done items.reverse
  else if (← cursor).atEnd then
    fail .unclosedCase
  else
    return .again ((← caseItem inner) :: items)

def case (inner : Inner) : Reading Command := do
  let pos ← here
  skip 4
  skipBlanks
  let subject ← word inner
  linebreaks inner
  expectWord "in"
  return .case pos subject (← iterate (caseRound inner) inner.rounds [])

def optionalParentheses : Reading Unit := do
  if (← current) = some '(' then
    emptyParentheses

def keywordFunction (inner : Inner) : Reading Command := do
  let pos ← here
  skip 8
  skipBlanks
  match (← word inner).literal? with
  | none => fail .invalidFunctionName
  | some name =>
      skipBlanks
      optionalParentheses
      linebreaks inner
      return .function pos name (← inner.command) true

def testRound (inner : Inner) (words : List Word) : Reading (Round (List Word) (List Word)) := do
  linebreaks inner
  if (← cursor).atWord "]]" then
    skip 2
    return .done words.reverse
  else if (← cursor).atEnd then
    fail (.unclosed "[[" "]]")
  else
    match testOperator? (← rest) with
    | some operator =>
        let pos ← here
        skip operator.length
        let word : Word := { pos, parts := [.literal pos (String.ofList operator)] }
        return .again (word :: words)
    | none => return .again ((← wordUpTo inner testDelimiters) :: words)

def test (inner : Inner) : Reading Command := do
  let pos ← here
  skip 2
  return .test pos (← iterate (testRound inner) inner.rounds [])

def arithmetic (inner : Inner) : Reading Command := do
  let pos ← here
  skip 2
  let start ← here
  return .arithmetic pos { pos := start, parts := ← arithmeticParts inner "))" }

def redirectRound (inner : Inner) (redirects : List Redirect) :
    Reading (Round (List Redirect) (List Redirect)) := do
  skipBlanks
  match ← redirectAt? with
  | some head => return .again ((← redirect inner head) :: redirects)
  | none => return .done redirects

def compound? (inner : Inner) : Reading (Option Command) := do
  let cursor ← cursor
  if cursor.startsWith "((" then
    some <$> arithmetic inner
  else if cursor.current = some '(' then
    some <$> subshell inner
  else
    match compoundWords.find? cursor.atWord with
    | some "\x7b" => some <$> block inner
    | some "if" => some <$> conditional inner "if"
    | some "while" => some <$> loop inner "while"
    | some "until" => some <$> loop inner "until"
    | some "for" => some <$> iteration inner "for"
    | some "select" => some <$> iteration inner "select"
    | some "case" => some <$> case inner
    | some "function" => some <$> keywordFunction inner
    | some "[[" => some <$> test inner
    | _ => return none

def command (inner : Inner) : Reading Stmt := do
  skipBlanks
  let pos ← here
  match ← compound? inner with
  | some command =>
      let redirects ← iterate (redirectRound inner) inner.rounds []
      return .ofDraft pos (some command) redirects
  | none => call inner pos

end Reading
end RecipeLint
