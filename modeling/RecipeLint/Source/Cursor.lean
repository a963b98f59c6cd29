import RecipeLint.Source.Position

/-!
# Cursors

A cursor is a place in a text: what is left to read, how much has been read, and the position of the
next character.  Shell tokens depend on their context, so the grammar drives a cursor directly.
Every operation that moves is `Cursor.advance` by some number of characters, hence line, column and
offset stay in step.
-/

namespace RecipeLint

structure Cursor where
  /-- The characters not yet read. -/
  rest : List Char
  offset : Nat
  position : Position
deriving Repr

/-- No comment is in front of a cursor, which is left as it is here. -/
structure CommentExpected where
  cursor : Cursor
deriving Repr

namespace CommentExpected

def position (fault : CommentExpected) : Position :=
  fault.cursor.position

def detail (_ : CommentExpected) : String :=
  "Expected '#'"

def message (fault : CommentExpected) : String :=
  "Lexer error at line " ++ Text.intText fault.position.line ++ ", column " ++
    Text.intText fault.position.column ++ ": " ++ fault.detail

end CommentExpected

/-- Whether a variable name may start with the character. -/
def isNameStart (c : Char) : Bool :=
  c.isAlpha || c = '_'

def isNameChar (c : Char) : Bool :=
  c.isAlphanum || c = '_'

/-- The characters that end an unquoted word. -/
def wordDelimiters : List Char :=
  [' ', '\t', '\r', '\n', ';', '&', '|', '<', '>', '(', ')']

/-- The number of characters in front of a text that only separate words on one line: spaces, tabs,
carriage returns and escaped newlines. -/
def blankRun : List Char → Nat
  | ' ' :: rest | '\t' :: rest | '\r' :: rest => blankRun rest + 1
  | '\\' :: '\n' :: rest => blankRun rest + 2
  | _ => 0

/-- The variable name in front of a text; empty if none starts there. -/
def nameRun (text : List Char) : List Char :=
  if text.head?.any isNameStart then text.takeWhile isNameChar else []

def lineRun (text : List Char) : List Char :=
  text.takeWhile (· ≠ '\n')

namespace Cursor

def ofText (text : List Char) (position : Position) : Cursor :=
  { rest := text, offset := 0, position }

def current (cursor : Cursor) : Option Char :=
  cursor.rest.head?

/-- The character a number of places after the next one. -/
def peek (cursor : Cursor) (distance : Nat) : Option Char :=
  cursor.rest[distance]?

def atEnd (cursor : Cursor) : Bool :=
  cursor.rest.isEmpty

def step (cursor : Cursor) : Cursor :=
  match cursor.rest with
  | [] => cursor
  | c :: rest =>
      { rest, offset := cursor.offset + 1, position := cursor.position.after c }

/-- The cursor after a number of characters, or at the end if there are fewer. -/
def advance : Nat → Cursor → Cursor
  | 0, cursor => cursor
  | count + 1, cursor => if cursor.atEnd then cursor else advance count cursor.step

/-- The last of the next `count` characters, if there are that many. -/
def lastOf (cursor : Cursor) : Nat → Option Char
  | 0 => none
  | count + 1 => cursor.peek count

def startsWith (cursor : Cursor) (text : String) : Bool :=
  text.toList.isPrefixOf cursor.rest

/-- Whether an unquoted word would end after a number of characters. -/
def wordEndsAt (cursor : Cursor) (distance : Nat) : Bool :=
  (cursor.peek distance).all wordDelimiters.contains

/-- Whether the given word is the next one, standing on its own. -/
def atWord (cursor : Cursor) (word : String) : Bool :=
  cursor.startsWith word && cursor.wordEndsAt word.length

def skipBlanks (cursor : Cursor) : Cursor :=
  cursor.advance (blankRun cursor.rest)

/-- The text of a comment, without its mark, and the cursor at the end of its line. -/
def readComment (cursor : Cursor) : Except CommentExpected (String × Cursor) :=
  match cursor.rest with
  | '#' :: rest =>
      let text := lineRun rest
      .ok (String.ofList text, cursor.advance (text.length + 1))
  | _ => .error ⟨cursor⟩

/-- The variable name at the cursor, which may be empty, and the cursor after it. -/
def readName (cursor : Cursor) : String × Cursor :=
  let name := nameRun cursor.rest
  (String.ofList name, cursor.advance name.length)

/-- The rest of the line without its newline, and the cursor in front of the next line. -/
def readLine? (cursor : Cursor) : Option (List Char × Cursor) :=
  if cursor.atEnd then
    none
  else
    let line := lineRun cursor.rest
    some (line, cursor.advance (line.length + 1))

end Cursor
end RecipeLint
