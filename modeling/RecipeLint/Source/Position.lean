import RecipeLint.Text.Number

/-!
# Positions

A place in a script as a line and a column, both counted from one in code points.  Positions are
ordered by line and then by column.
-/

namespace RecipeLint

structure Position where
  /-- The line, counted from one. -/
  line : Int
  /-- The column within the line, counted from one. -/
  column : Int
deriving DecidableEq, Repr

namespace Position

def start : Position := ⟨1, 1⟩

/-- The position after a character that stands at the given one. -/
def after (position : Position) (c : Char) : Position :=
  if c = '\n' then ⟨position.line + 1, 1⟩ else ⟨position.line, position.column + 1⟩

def right (position : Position) (columns : Int) : Position :=
  ⟨position.line, position.column + columns⟩

/-- The order by line and then by column. -/
def le (left right : Position) : Bool :=
  left.line < right.line || (left.line = right.line && left.column ≤ right.column)

def lt (left right : Position) : Bool :=
  !right.le left

def text (position : Position) : String :=
  Text.intText position.line ++ ":" ++ Text.intText position.column

def sort (positions : List Position) : List Position :=
  positions.mergeSort le

end Position
end RecipeLint
