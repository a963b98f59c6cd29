import RecipeLint.Number.Binary
import RecipeLint.Text.Number

/-!
# Shortest decimals

A number of double precision is written with the fewest digits that still tell it from its
neighbours; of the decimals with that many digits it is the nearest.
-/

namespace RecipeLint.Number

/-- A positive decimal, or zero: digits times a power of ten. -/
structure Decimal where
  digits : Nat
  exponent : Int
deriving DecidableEq, Repr

namespace Decimal

def ratio (decimal : Decimal) : Ratio :=
  Ratio.shift ⟨decimal.digits, 1⟩ 10 (-decimal.exponent)

end Decimal

namespace Binary

/-- The least and the greatest ratio that round to a number, half way to its neighbours, and whether
they round to it themselves. -/
def interval (number : Binary) : Ratio × Ratio × Bool :=
  let quarters (count : Nat) : Ratio := Ratio.shift ⟨count, 4⟩ 2 (-number.exponent)
  let below := if number.mantissa = unit && least < number.exponent then 1 else 2
  (quarters (4 * number.mantissa - below), quarters (4 * number.mantissa + 2),
    number.mantissa % 2 = 0)

def admits (number : Binary) (decimal : Decimal) : Bool :=
  let (low, high, closed) := number.interval
  let ratio := decimal.ratio
  if closed then low.le ratio && ratio.le high else low.lt ratio && ratio.lt high

/-- The decimal with the given exponent that rounds to a number; of two, the nearer one. -/
def decimalAt? (number : Binary) (exponent : Int) : Option Decimal :=
  let scaled := number.ratio.shift 10 exponent
  let floor := scaled.num / scaled.den
  let near := roundRatio scaled.num scaled.den
  let other := if near = floor then floor + 1 else floor
  ([near, other].map (⟨·, exponent⟩)).find? fun decimal =>
    decimal.digits ≠ 0 && number.admits decimal

/-- The first decimal that rounds to a number, the exponents being tried downwards. -/
def shortestFrom (number : Binary) (exponent : Int) : Nat → Option Decimal
  | 0 => none
  | tries + 1 =>
      match number.decimalAt? exponent with
      | some decimal => some decimal
      | none => shortestFrom number (exponent - 1) tries

/-- The decimal of fewest digits that rounds to a number; the digits of zero are zero. -/
def shortest (number : Binary) : Decimal :=
  let zero : Decimal := { digits := 0, exponent := 0 }
  if number.mantissa = 0 then zero else (number.shortestFrom 309 640).getD zero

end Binary

/-- A number with a fractional part, or one of the values that stand for none. -/
inductive Real where
  /-- A finite number by its shortest decimal; the digits of zero are zero. -/
  | finite (negative : Bool) (decimal : Decimal)
  | infinite (negative : Bool)
  | undefined
deriving DecidableEq, Repr

namespace Real

def ofRatio (negative : Bool) (ratio : Ratio) : Real :=
  match Binary.nearest? ratio with
  | none => .infinite negative
  | some number => .finite negative number.shortest

/-- The digits and the place of the point behind which they start, zeros at their end left out. -/
def significant (decimal : Decimal) : List Char × Int :=
  let digits := Nat.toDigits 10 decimal.digits
  let kept := (digits.reverse.dropWhile (· = '0')).reverse
  (kept, decimal.exponent + digits.length)

/-- A decimal written with a point and at least one digit on each side of it. -/
def positional (digits : List Char) (point : Int) : List Char :=
  if point ≤ 0 then
    '0' :: '.' :: List.replicate point.natAbs '0' ++ digits
  else
    let whole := digits.take point.toNat
    let fraction := digits.drop point.toNat
    whole ++ List.replicate (point.toNat - whole.length) '0' ++
      '.' :: (if fraction.isEmpty then ['0'] else fraction)

/-- A decimal written with one digit in front of the point and an exponent of at least two
digits. -/
def scientific (digits : List Char) (point : Int) : List Char :=
  let exponent := point - 1
  let power := Nat.toDigits 10 exponent.natAbs
  let filled := if power.length < 2 then '0' :: power else power
  let mark := if exponent < 0 then '-' else '+'
  match digits with
  | first :: rest =>
      (if rest.isEmpty then [first] else first :: '.' :: rest) ++ 'e' :: mark :: filled
  | [] => []

/-- The number as it is written: with a point from a ten-thousandth up to sixteen places in front of
it, and otherwise with an exponent. -/
def text : Real → String
  | .undefined => "nan"
  | .infinite negative => if negative then "-inf" else "inf"
  | .finite negative decimal =>
      let (digits, point) := significant decimal
      let written :=
        if digits.isEmpty then ['0', '.', '0']
        else if -4 < point && point ≤ 16 then positional digits point
        else scientific digits point
      String.ofList (if negative then '-' :: written else written)

end Real
end RecipeLint.Number
