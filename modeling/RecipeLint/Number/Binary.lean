/-!
# Numbers of double precision

A number of double precision is a natural number of at most 53 bits times a power of two.  Every
ratio has a nearest such number; of two equally near ones it is the even one.
-/

namespace RecipeLint.Number

/-- The nearest natural number to a ratio, the even one if two are equally near. -/
def roundRatio (num den : Nat) : Nat :=
  let floor := num / den
  let rest := num % den
  if 2 * rest < den then floor
  else if den < 2 * rest then floor + 1
  else floor + floor % 2

structure Ratio where
  num : Nat
  den : Nat
deriving DecidableEq, Repr

namespace Ratio

def shift (ratio : Ratio) (base : Nat) (exponent : Int) : Ratio :=
  if exponent < 0 then ⟨ratio.num * Nat.pow base exponent.natAbs, ratio.den⟩
  else ⟨ratio.num, ratio.den * Nat.pow base exponent.natAbs⟩

def add (left right : Ratio) : Ratio :=
  ⟨left.num * right.den + right.num * left.den, left.den * right.den⟩

def mul (left right : Ratio) : Ratio :=
  ⟨left.num * right.num, left.den * right.den⟩

def le (left right : Ratio) : Bool :=
  left.num * right.den ≤ right.num * left.den

def lt (left right : Ratio) : Bool :=
  left.num * right.den < right.num * left.den

end Ratio

/-- A positive number of double precision, or zero. -/
structure Binary where
  mantissa : Nat
  exponent : Int
deriving DecidableEq, Repr

namespace Binary

def least : Int := -1074

def greatest : Int := 971

def unit : Nat := 0x10000000000000

def ratio (number : Binary) : Ratio :=
  Ratio.shift ⟨number.mantissa, 1⟩ 2 (-number.exponent)

/-- The nearest number with at least the given exponent whose mantissa fits, `tries` being the
number of exponents that may be too small. -/
def nearestFrom (ratio : Ratio) (exponent : Int) : Nat → Option Binary
  | 0 => none
  | tries + 1 =>
      let scaled := ratio.shift 2 exponent
      let mantissa := roundRatio scaled.num scaled.den
      if greatest < exponent then none
      else if mantissa < 2 * unit then some { mantissa, exponent }
      else nearestFrom ratio (exponent + 1) tries

/-- The nearest number to a ratio; nothing if it is too large. -/
def nearest? (ratio : Ratio) : Option Binary :=
  let estimate : Int := (Nat.log2 ratio.num : Int) - (Nat.log2 ratio.den : Int) - 53
  nearestFrom ratio (max least estimate) 4

end Binary
end RecipeLint.Number
