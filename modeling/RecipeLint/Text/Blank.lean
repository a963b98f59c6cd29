import RecipeLint.Text.Ranges

/-!
# Blank characters

White space of all scripts, and the removal of it from the ends of a text.
-/

namespace RecipeLint.Text

def blankRanges : Ranges :=
  [(0x9, 5), (0x1c, 5), (0x85, 1), (0xa0, 1), (0x1680, 1), (0x2000, 11), (0x2028, 2), (0x202f, 1),
    (0x205f, 1), (0x3000, 1)]

def isBlank (c : Char) : Bool :=
  blankRanges.has c

def trimStart (text : List Char) : List Char :=
  text.dropWhile isBlank

def trimEnd (text : List Char) : List Char :=
  (text.reverse.dropWhile isBlank).reverse

def trim (text : List Char) : List Char :=
  trimEnd (trimStart text)

end RecipeLint.Text
