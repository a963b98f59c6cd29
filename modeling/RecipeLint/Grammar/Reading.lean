import RecipeLint.Grammar.Error
import RecipeLint.Syntax.HereDoc

/-!
# Reading

A reading consumes text at a cursor and gives a value or an error.  Besides the cursor it keeps what
is met out of place: here-documents whose lines are still to come, those whose lines have been read,
and comments between the tokens of a statement, which the next list of statements takes up.

Constructs nest, so the productions of one level are defined from those of the level inside it, an
`Inner`.  Loops run at most a given number of rounds; each round reads at least one character.
-/

namespace RecipeLint

/-- What a reading keeps between two tokens. -/
structure ReadState where
  cursor : Cursor
  /-- Here-documents whose lines start after the current line. -/
  awaited : List Awaited
  bodies : Bodies
  /-- Comments that no list of statements has taken up. -/
  comments : List Comment
  /-- All comments that have been read, the last one first. -/
  seen : List Comment

/-- A computation that consumes text. -/
abbrev Reading := StateT ReadState (Except ParseError)

/-- How a round of a loop ends. -/
inductive Round (α β : Type) where
  | again (state : α)
  | done (result : β)

def ReadState.ofText (text : List Char) (pos : Position) : ReadState :=
  { cursor := .ofText text pos, awaited := [], bodies := [], comments := [], seen := [] }

namespace Reading

def cursor : Reading Cursor :=
  return (← get).cursor

def here : Reading Position :=
  return (← cursor).position

def rest : Reading (List Char) :=
  return (← cursor).rest

def current : Reading (Option Char) :=
  return (← cursor).current

def move (change : Cursor → Cursor) : Reading Unit :=
  modify fun state => { state with cursor := change state.cursor }

def skip (count : Nat) : Reading Unit :=
  move (Cursor.advance count)

def skipBlanks : Reading Unit :=
  move Cursor.skipBlanks

/-- Moves past the next character if it is one of the given kind. -/
def skipIf (accepted : Char → Bool) : Reading Unit := do
  if (← current).any accepted then
    skip 1

def failAt (pos : Position) (cause : Cause) : Reading α :=
  throw { cause, pos }

def fail (cause : Cause) : Reading α := do
  failAt (← here) cause

/-- Runs a loop for at most the given number of rounds. -/
def iterate (step : α → Reading (Round α β)) : Nat → α → Reading β
  | 0, _ => fail .exhausted
  | rounds + 1, state => do
      match ← step state with
      | .again state => iterate step rounds state
      | .done result => return result

/-- Reads a text of its own that starts at a position, and leaves the current one as it is; the
comments in it have been seen.  Also gives the here-documents that were read in it. -/
def within (text : List Char) (pos : Position) (reading : Reading α) : Reading (α × Bodies) :=
  fun outer =>
    match reading (.ofText text pos) with
    | .ok (value, inner) =>
        .ok ((value, inner.bodies), { outer with seen := inner.seen ++ outer.seen })
    | .error error => .error error

/-- The first of the given words that stands at the cursor on its own. -/
def wordAt? (words : List String) : Reading (Option String) :=
  return words.find? (← cursor).atWord

def expectWord (word : String) : Reading Unit := do
  skipBlanks
  if (← cursor).atWord word then
    skip word.length
  else
    fail (.expectedWord word)

end Reading

/-- The productions one level further in. -/
structure Inner where
  rounds : Nat
  /-- Statements up to the end of the text or one of the given words. -/
  statements : List String → Reading (List Item)
  /-- A command with its redirections, as the body of a function. -/
  command : Reading Stmt
  /-- A conditional that starts with the word `elif`. -/
  furtherConditional : Reading Command
  /-- An expansion after a dollar sign, inside double quotes or not; absent if the sign stands for
  itself. -/
  expansion : Bool → Reading (Option Part)

/-- Words that end a list of statements when they stand in the place of a command. -/
def listTerminators : List String :=
  ["then", "fi", "do", "done", "elif", "else", "esac", "\x7d"]

end RecipeLint
