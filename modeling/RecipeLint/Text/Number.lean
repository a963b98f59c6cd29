/-!
# Numbers as text
-/

namespace RecipeLint.Text

def natText (number : Nat) : String :=
  String.ofList (Nat.toDigits 10 number)

/-- The decimal digits of an integer, after a minus sign if it is negative. -/
def intText : Int → String
  | .ofNat number => natText number
  | .negSucc number => "-" ++ natText (number + 1)

def hexDigit? (c : Char) : Option Nat :=
  if c.isDigit then some (c.toNat - 0x30)
  else if 'a' ≤ c && c ≤ 'f' then some (c.toNat - 0x57)
  else if 'A' ≤ c && c ≤ 'F' then some (c.toNat - 0x37)
  else none

end RecipeLint.Text
