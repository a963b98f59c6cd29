import RecipeLint.Grammar.Expansion

/-!
# Words

An unquoted word runs up to a delimiter and consists of literals, quoted parts, expansions, process
substitutions at its start, and extended patterns.  Between words come blanks, comments and
newlines; a newline is followed by the lines of the here-documents that wait for it.
-/

namespace RecipeLint

def testDelimiters : List Char :=
  [' ', '\t', '\r', '\n']

namespace Reading

/-- An extended pattern such as `*(a|b)`, which starts with `mark`. -/
def glob (mark : Char) : Reading Part := do
  let pos ← here
  skip 2
  let text ← rest
  match bracketEnd? '(' ')' 0 1 text with
  | none => failAt pos (.unclosed (String.ofList [mark, '(']) ")")
  | some length =>
      skip (length + 1)
      return .glob pos mark (String.ofList (text.take length))

/-- One round of reading a word up to one of `delimiters`. -/
def wordRound (inner : Inner) (delimiters : List Char) (pieces : Pieces) :
    Reading (Round Pieces (List Part)) := do
  let pos ← here
  match ← rest with
  | [] => return .done pieces.finish
  | c :: rest =>
      if c = '\\' then
        skip 2
        if rest.head? = some '\n' then
          return .again pieces
        else
          return .again (pieces.push pos (c :: rest.take 1))
      else if (c = '<' || c = '>') && rest.head? = some '(' && pieces.isEmpty then
        let items ← substituted inner (String.ofList [c, '('])
        return .again (pieces.add (.process pos c items))
      else if delimiters.contains c then
        return .done pieces.finish
      else if ['?', '*', '+', '@', '!'].contains c && rest.head? = some '(' then
        return .again (pieces.add (← glob c))
      else if c = '\'' then
        return .again (pieces.add (← singleQuoted pos false))
      else if c = '"' then
        return .again (pieces.add (← doubleQuoted inner pos false))
      else if c = '\x60' then
        return .again (pieces.add (← backquoted inner))
      else if c = '$' then
        match ← inner.expansion false with
        | some part => return .again (pieces.add part)
        | none =>
            skip 1
            return .again (pieces.push pos [c])
      else
        skip 1
        return .again (pieces.push pos [c])

/-- A word up to one of `delimiters`, which must not be empty. -/
def wordUpTo (inner : Inner) (delimiters : List Char) : Reading Word := do
  let pos ← here
  let parts ← iterate (wordRound inner delimiters) inner.rounds (.empty pos)
  if parts.isEmpty then
    match ← current with
    | none => fail .unexpectedEnd
    | some c => fail (.unexpected c)
  else
    return { pos, parts }

def word (inner : Inner) : Reading Word :=
  wordUpTo inner wordDelimiters

/-- One round of looking for the closing line of a here-document: the offset of its start, or of the
end of the text. -/
def hereDocRound (awaited : Awaited) (_ : Unit) : Reading (Round Unit Nat) := do
  let start ← cursor
  match start.readLine? with
  | none => return .done start.offset
  | some (line, next) =>
      move fun _ => next
      if awaited.closedBy line then
        return .done start.offset
      else
        return .again ()

def hereDocBody (inner : Inner) (awaited : Awaited) (text : List Char) (pos : Position) :
    Reading Word :=
  if awaited.quoted then
    return { pos, parts := [.literal pos (String.ofList text)] }
  else
    inlineWord inner text pos

/-- The lines of a here-document, which start at the cursor. -/
def hereDoc (inner : Inner) (awaited : Awaited) : Reading Unit := do
  let start ← cursor
  let stop ← iterate (hereDocRound awaited) inner.rounds ()
  let text := start.rest.take (stop - start.offset)
  let body ← hereDocBody inner awaited text start.position
  modify fun state => { state with bodies := (awaited.pos, body) :: state.bodies }

def newline (inner : Inner) : Reading Unit := do
  skip 1
  let awaited := (← get).awaited
  modify fun state => { state with awaited := [] }
  awaited.forM (hereDoc inner)

def comment : Reading Comment := do
  let pos ← here
  let text := lineRun ((← rest).drop 1)
  skip (text.length + 1)
  let comment : Comment := { pos, text := String.ofList text }
  modify fun state => { state with seen := comment :: state.seen }
  return comment

def linebreakRound (inner : Inner) (_ : Unit) : Reading (Round Unit Unit) := do
  skipBlanks
  match ← current with
  | some '\n' =>
      newline inner
      return .again ()
  | some '#' =>
      let comment ← comment
      modify fun state => { state with comments := state.comments ++ [comment] }
      return .again ()
  | _ => return .done ()

def linebreaks (inner : Inner) : Reading Unit :=
  iterate (linebreakRound inner) inner.rounds ()

end Reading
end RecipeLint
