import RecipeLint.Text.Printable

/-!
# Quoted text

Messages show a text between quotation marks with everything that cannot be seen written as an
escape.  The single mark is used unless the text holds single marks and no double ones.
-/

namespace RecipeLint.Text

/-- The lower-case hexadecimal digits of a number, filled up with zeros to a width. -/
def hex (width number : Nat) : List Char :=
  let digits := Nat.toDigits 16 number
  List.replicate (width - digits.length) '0' ++ digits

def quoteMark (text : List Char) : Char :=
  if text.contains '\'' && !text.contains '"' then '"' else '\''

def escape (mark c : Char) : List Char :=
  if c = mark || c = '\\' then ['\\', c]
  else if c = '\n' then ['\\', 'n']
  else if c = '\r' then ['\\', 'r']
  else if c = '\t' then ['\\', 't']
  else if isPrintable c then [c]
  else if c.toNat < 0x100 then '\\' :: 'x' :: hex 2 c.toNat
  else if c.toNat < 0x10000 then '\\' :: 'u' :: hex 4 c.toNat
  else '\\' :: 'U' :: hex 8 c.toNat

/-- A text between quotation marks, its invisible characters escaped. -/
def quoted (text : String) : String :=
  let chars := text.toList
  let mark := quoteMark chars
  String.ofList (mark :: chars.flatMap (escape mark) ++ [mark])

def quotedChar (c : Char) : String :=
  quoted (String.singleton c)

end RecipeLint.Text
