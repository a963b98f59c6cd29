/-!
# Sets of characters given by ranges

A property of code points is kept as an ascending list of ranges.  `Ranges.has` decides membership;
the tables of the individual properties live in their own modules.
-/

namespace RecipeLint.Text

/-- Ranges of code points in ascending order, each with its first one and their number. -/
abbrev Ranges := List (Nat × Nat)

/-- Whether a character's code point lies in one of the ranges. -/
def Ranges.has (ranges : Ranges) (c : Char) : Bool :=
  ranges.any fun (first, count) => first ≤ c.toNat && c.toNat < first + count

end RecipeLint.Text
