import RecipeLint.Syntax.Tree

/-!
# Pieces of a word

While a word is read, literal characters are gathered until a part of another kind follows.  The
literal starts where its first character stands.
-/

namespace RecipeLint

/-- A word that is being read. -/
structure Pieces where
  /-- The complete parts, the last one first. -/
  parts : List Part
  /-- The literal characters after them, the last one first. -/
  run : List Char
  /-- Where the literal characters start. -/
  start : Position

namespace Pieces

def empty (pos : Position) : Pieces :=
  { parts := [], run := [], start := pos }

def isEmpty (pieces : Pieces) : Bool :=
  pieces.parts.isEmpty && pieces.run.isEmpty

/-- Adds literal characters that stand at a position. -/
def push (pieces : Pieces) (pos : Position) (chars : List Char) : Pieces :=
  { pieces with
    run := chars.reverse ++ pieces.run
    start := if pieces.run.isEmpty then pos else pieces.start }

def flush (pieces : Pieces) : Pieces :=
  if pieces.run.isEmpty then
    pieces
  else
    { pieces with
      parts := .literal pieces.start (String.ofList pieces.run.reverse) :: pieces.parts
      run := [] }

def add (pieces : Pieces) (part : Part) : Pieces :=
  let pieces := pieces.flush
  { pieces with parts := part :: pieces.parts }

def finish (pieces : Pieces) : List Part :=
  pieces.flush.parts.reverse

end Pieces
end RecipeLint
