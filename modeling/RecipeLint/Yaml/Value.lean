import RecipeLint.Number.Shortest
import RecipeLint.Text.Quoted

/-!
# Values of configuration files

A configuration file holds a value: nothing, a truth value, a number, a date, a text, a list, a
mapping or something else.  Messages show a value as text.
-/

namespace RecipeLint.Yaml

structure Stamp where
  year : Nat
  month : Nat
  day : Nat
  time : Option (Nat × Nat × Nat × Nat)
  /-- The minutes that the time is ahead of universal time, if that is known. -/
  offset : Option Int
deriving DecidableEq, Repr

inductive Value where
  | null
  | bool (value : Bool)
  | int (value : Int)
  | real (value : Number.Real)
  | stamp (value : Stamp)
  | text (value : String)
  | list (values : List Value)
  | mapping (pairs : List (Value × Value))
  /-- A value of any other kind: whether it counts as nothing, and its texts inside of other values
  and where it stands by itself. -/
  | foreign (void : Bool) (shown plain : String)
deriving Repr

namespace Stamp

def padded (width number : Nat) : String :=
  let digits := Nat.toDigits 10 number
  String.ofList (List.replicate (width - digits.length) '0' ++ digits)

def offsetText (minutes : Int) : String :=
  (if minutes < 0 then "-" else "+") ++ padded 2 (minutes.natAbs / 60) ++ ":" ++
    padded 2 (minutes.natAbs % 60)

def plain (stamp : Stamp) : String :=
  let date := padded 4 stamp.year ++ "-" ++ padded 2 stamp.month ++ "-" ++ padded 2 stamp.day
  match stamp.time with
  | none => date
  | some (hour, minute, second, micro) =>
      date ++ " " ++ padded 2 hour ++ ":" ++ padded 2 minute ++ ":" ++ padded 2 second ++
        (if micro = 0 then "" else "." ++ padded 6 micro) ++
        (stamp.offset.map offsetText).getD ""

def offsetShown (minutes : Int) : String :=
  let seconds := minutes * 60
  if seconds = 0 then "datetime.timezone.utc"
  else if 0 < seconds then
    "datetime.timezone(datetime.timedelta(seconds=" ++ Text.intText seconds ++ "))"
  else
    "datetime.timezone(datetime.timedelta(days=-1, seconds=" ++ Text.intText (86400 + seconds) ++
      "))"

def shown (stamp : Stamp) : String :=
  let date := [stamp.year, stamp.month, stamp.day]
  let joined (numbers : List Nat) : String := ", ".intercalate (numbers.map Text.natText)
  match stamp.time with
  | none => "datetime.date(" ++ joined date ++ ")"
  | some (hour, minute, second, micro) =>
      let time :=
        if micro ≠ 0 then [hour, minute, second, micro]
        else if second ≠ 0 then [hour, minute, second]
        else [hour, minute]
      let zone := (stamp.offset.map fun minutes => ", tzinfo=" ++ offsetShown minutes).getD ""
      "datetime.datetime(" ++ joined (date ++ time) ++ zone ++ ")"

end Stamp

namespace Value

mutual

def shown : Value → String
  | .null => "None"
  | .bool true => "True"
  | .bool false => "False"
  | .int value => Text.intText value
  | .real value => value.text
  | .stamp value => value.shown
  | .text value => Text.quoted value
  | .list values => "[" ++ ", ".intercalate (shownList values) ++ "]"
  | .mapping pairs => "\x7b" ++ ", ".intercalate (shownPairs pairs) ++ "\x7d"
  | .foreign _ shown _ => shown

def shownList : List Value → List String
  | [] => []
  | value :: values => shown value :: shownList values

def shownPairs : List (Value × Value) → List String
  | [] => []
  | (key, value) :: pairs => (shown key ++ ": " ++ shown value) :: shownPairs pairs

end

/-- The text of a value where it stands by itself: texts and stamps without adornment. -/
def plain : Value → String
  | .text value => value
  | .stamp value => value.plain
  | .foreign _ _ plain => plain
  | value => value.shown

/-- Whether a value counts as nothing: zero, false, or without content. -/
def isVoid : Value → Bool
  | .null => true
  | .bool value => !value
  | .int value => value = 0
  | .real (.finite _ decimal) => decimal.digits = 0
  | .real _ => false
  | .stamp _ => false
  | .text value => value.isEmpty
  | .list values => values.isEmpty
  | .mapping pairs => pairs.isEmpty
  | .foreign void _ _ => void

/-- The number that a value is compared by: digits and a power of ten. -/
def magnitude? : Value → Option (Bool × Number.Decimal)
  | .bool value => some (false, { digits := value.toNat, exponent := 0 })
  | .int value => some (value < 0, { digits := value.natAbs, exponent := 0 })
  | .real (.finite negative decimal) => some (negative && decimal.digits ≠ 0, decimal)
  | _ => none

/-- Whether two keys of a mapping are the same; numbers are compared by their size. -/
def sameKey : Value → Value → Bool
  | .null, .null => true
  | .text left, .text right => left = right
  | .stamp left, .stamp right => left = right
  | .real (.infinite left), .real (.infinite right) => left = right
  | left, right =>
      match left.magnitude?, right.magnitude? with
      | some (minus, left), some (minus', right) =>
          minus = minus' && left.ratio.le right.ratio && right.ratio.le left.ratio
      | _, _ => false

/-- The pairs with a key set to a value: in the place of the same key, or else at the end. -/
def set (pairs : List (Value × Value)) (key value : Value) : List (Value × Value) :=
  match pairs with
  | [] => [(key, value)]
  | (other, old) :: rest =>
      if other.sameKey key then (other, value) :: rest else (other, old) :: set rest key value

end Value
end RecipeLint.Yaml
