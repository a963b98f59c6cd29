import RecipeLint.Yaml.Error
import RecipeLint.Yaml.Value

/-!
# Plain scalars

A scalar that is not quoted may be nothing, a truth value, a number or a date, depending on its
form; in any other form it is a text.  Two forms have no value of their own: the mark that merges
mappings and the mark of a default value.
-/

namespace RecipeLint.Yaml

/-- What a plain scalar means. -/
inductive Plain where
  | value (value : Value)
  | merge
  | default
  | fault (fault : ScalarFault)
deriving Repr

namespace Plain

/-- Whether a text is one of three spellings of a word: small, with a capital, in capitals. -/
def spells (word : String) (text : List Char) : Bool :=
  let small := word.toList
  let capital := match small with
    | c :: rest => c.toUpper :: rest
    | [] => []
  text = small || text = capital || text = small.map Char.toUpper

def truth? (text : List Char) : Option Bool :=
  if ["yes", "true", "on"].any (spells · text) then some true
  else if ["no", "false", "off"].any (spells · text) then some false
  else none

/-- A text without the sign in front of it, and whether the sign is a minus. -/
def unsigned : List Char → Bool × List Char
  | '-' :: rest => (true, rest)
  | '+' :: rest => (false, rest)
  | text => (false, text)

/-- Whether a character is a digit or an underscore between digits. -/
def isDigitMark (c : Char) : Bool :=
  c.isDigit || c = '_'

def digitValue (c : Char) : Nat :=
  if c.isDigit then c.toNat - 0x30
  else if c.isLower then c.toNat - 0x57
  else c.toNat - 0x37

def ofDigits (base : Nat) (digits : List Char) : Nat :=
  (digits.filter (· ≠ '_')).foldl (fun number c => base * number + digitValue c) 0

/-- Whether all further parts of a number in base sixty are one or two digits below sixty. -/
def areSixtieths (parts : List (List Char)) : Bool :=
  !parts.isEmpty && parts.all fun part =>
    match part with
    | [c] => c.isDigit
    | [tens, c] => '0' ≤ tens && tens ≤ '5' && c.isDigit
    | _ => false

/-- A natural number in one of its forms: binary, octal, decimal, hexadecimal, or in base sixty. -/
def natural? (text : List Char) : Option (Except ScalarFault Nat) :=
  let based (base : Nat) (digits : List Char) : Except ScalarFault Nat :=
    if digits.all (· = '_') then .error .emptyNumber else .ok (ofDigits base digits)
  match text with
  | '0' :: 'b' :: c :: rest =>
      if (c :: rest).all fun c => c = '0' || c = '1' || c = '_' then some (based 2 (c :: rest))
      else none
  | '0' :: 'x' :: c :: rest =>
      let isHex (c : Char) : Bool :=
        isDigitMark c || ('a' ≤ c && c ≤ 'f') || ('A' ≤ c && c ≤ 'F')
      if (c :: rest).all isHex then some (based 16 (c :: rest)) else none
  | '0' :: rest =>
      if rest.all fun c => ('0' ≤ c && c ≤ '7') || c = '_' then some (.ok (ofDigits 8 rest))
      else none
  | c :: rest =>
      if c.isDigit then
        if rest.all isDigitMark then some (.ok (ofDigits 10 (c :: rest)))
        else
          match (c :: rest).splitOn ':' with
          | first :: parts =>
              if first.all isDigitMark && areSixtieths parts then
                some (.ok ((first :: parts).foldl (fun n part => 60 * n + ofDigits 10 part) 0))
              else none
          | [] => none
      else none
  | [] => none

def integer? (text : List Char) : Option (Except ScalarFault Int) :=
  let (negative, digits) := unsigned text
  (natural? digits).map fun number =>
    number.map fun number => if negative then -(number : Int) else number

/-- The exponent that a text is: none, or a mark, a sign and digits. -/
def exponent? : List Char → Option Int
  | [] => some 0
  | mark :: sign :: c :: rest =>
      if (mark = 'e' || mark = 'E') && (sign = '-' || sign = '+') && (c :: rest).all Char.isDigit
      then
        let power : Int := ofDigits 10 (c :: rest)
        some (if sign = '-' then -power else power)
      else none
  | _ => none

/-- The decimal with the given digits in front of and behind its point.  An exponent that makes it
too large or too small for double precision by itself is cut down to one that still does. -/
def pointed (whole fraction : List Char) (exponent : Int) : Number.Ratio :=
  let fraction := fraction.filter (· ≠ '_')
  let bound : Int := whole.length + fraction.length + 400
  let exponent := max (-bound) (min bound exponent)
  Number.Ratio.shift ⟨ofDigits 10 (whole ++ fraction), 1⟩ 10 ((fraction.length : Int) - exponent)

def rounded (ratio : Number.Ratio) : Number.Ratio :=
  ((Number.Binary.nearest? ratio).map Number.Binary.ratio).getD ratio

/-- The value of a number in base sixty whose parts are given, the last one first, every step being
rounded; `base` is the weight of the next part. -/
def sixtiethsFrom (total base : Number.Ratio) : List Number.Ratio → Number.Ratio
  | [] => total
  | part :: parts =>
      sixtiethsFrom (rounded (total.add (rounded (part.mul base)))) (base.mul ⟨60, 1⟩) parts

def ratio? (text : List Char) : Option Number.Ratio :=
  match text.span (· ≠ '.') with
  | (whole, '.' :: rest) =>
      let (fraction, power) := rest.span isDigitMark
      match whole with
      | [] =>
          if fraction.head?.any Char.isDigit then
            (exponent? power).map (pointed [] fraction)
          else none
      | c :: digits =>
          if !c.isDigit then none
          else if digits.all isDigitMark then (exponent? power).map (pointed whole fraction)
          else
            match whole.splitOn ':' with
            | first :: parts =>
                if first.all isDigitMark && areSixtieths parts && power.isEmpty then
                  let last := pointed (parts.getLast?.getD []) fraction 0
                  let others := (first :: parts.dropLast).reverse.map fun part =>
                    (⟨ofDigits 10 part, 1⟩ : Number.Ratio)
                  some (sixtiethsFrom ⟨0, 1⟩ ⟨1, 1⟩ ((last :: others).map rounded))
                else none
            | [] => none
  | _ => none

def real? (text : List Char) : Option Number.Real :=
  let (negative, digits) := unsigned text
  let signed := digits.length < text.length
  if digits = ".inf".toList || digits = ".Inf".toList || digits = ".INF".toList then
    some (.infinite negative)
  else if !signed && (text = ".nan".toList || text = ".NaN".toList || text = ".NAN".toList) then
    some .undefined
  else if signed && digits.head? = some '.' then
    none
  else
    (ratio? digits).map (Number.Real.ofRatio negative)

def twoDigits? : List Char → Option (Nat × List Char)
  | a :: b :: rest =>
      if a.isDigit && b.isDigit then some (ofDigits 10 [a, b], rest)
      else if a.isDigit then some (ofDigits 10 [a], b :: rest)
      else none
  | [a] => if a.isDigit then some (ofDigits 10 [a], []) else none
  | [] => none

def pair? : List Char → Option (Nat × List Char)
  | a :: b :: rest =>
      if a.isDigit && b.isDigit then some (ofDigits 10 [a, b], rest) else none
  | _ => none

def behind? (c : Char) : List Char → Option (List Char)
  | first :: rest => if first = c then some rest else none
  | [] => none

/-- The minutes ahead of universal time that a text at the end of a time says. -/
def offset? (text : List Char) : Option (Option Int) :=
  match text.dropWhile fun c => c = ' ' || c = '\t' with
  | [] => if text.isEmpty then some none else none
  | ['Z'] => some (some 0)
  | sign :: rest =>
      if sign = '-' || sign = '+' then do
        let (hours, rest) ← twoDigits? rest
        let minutes ←
          if rest.isEmpty then some 0
          else do
            let rest ← behind? ':' rest
            let (minutes, rest) ← pair? rest
            if rest.isEmpty then some minutes else none
        let total : Int := 60 * hours + minutes
        return some (if sign = '-' then -total else total)
      else
        none

def time? (text : List Char) : Option ((Nat × Nat × Nat × Nat) × Option Int) := do
  let (hour, rest) ← twoDigits? text
  let rest ← behind? ':' rest
  let (minute, rest) ← pair? rest
  let rest ← behind? ':' rest
  let (second, rest) ← pair? rest
  let (fraction, rest) := match rest with
    | '.' :: rest => rest.span Char.isDigit
    | rest => ([], rest)
  let micro := ofDigits 10 (fraction.take 6 ++ List.replicate (6 - fraction.length) '0')
  let offset ← offset? rest
  return ((hour, minute, second, micro), offset)

def isLeap (year : Nat) : Bool :=
  year % 4 = 0 && (year % 100 ≠ 0 || year % 400 = 0)

def daysOf (year month : Nat) : Nat :=
  if month = 2 then if isLeap year then 29 else 28
  else if [4, 6, 9, 11].contains month then 30
  else 31

def isDate (stamp : Stamp) : Bool :=
  1 ≤ stamp.year && 1 ≤ stamp.month && stamp.month ≤ 12 && 1 ≤ stamp.day &&
    stamp.day ≤ daysOf stamp.year stamp.month &&
    (stamp.time.all fun (hour, minute, second, _) => hour < 24 && minute < 60 && second < 60) &&
    stamp.offset.all fun minutes => minutes.natAbs < 1440

def stamp? (text : List Char) : Option Stamp := do
  let digits := text.take 4
  guard (digits.length = 4 && digits.all Char.isDigit)
  let year := ofDigits 10 digits
  let rest ← behind? '-' (text.drop 4)
  let (month, afterMonth) ← twoDigits? rest
  let afterMonth ← behind? '-' afterMonth
  let (day, afterDay) ← twoDigits? afterMonth
  match afterDay with
  | [] =>
      if text.length = 10 then some { year, month, day, time := none, offset := none } else none
  | c :: rest =>
      let rest ←
        if c = 'T' || c = 't' then some rest
        else if c = ' ' || c = '\t' then some (rest.dropWhile fun c => c = ' ' || c = '\t')
        else none
      let (time, offset) ← time? rest
      some { year, month, day, time := some time, offset }

def ofStamp (stamp : Stamp) : Plain :=
  if isDate stamp then .value (.stamp stamp) else .fault .impossibleDate

def of (text : List Char) : Plain :=
  if text.isEmpty || text = ['~'] || spells "null" text then .value .null
  else if text = ['<', '<'] then .merge
  else if text = ['='] then .default
  else
    match truth? text with
    | some it => .value (.bool it)
    | none =>
        match real? text with
        | some it => .value (.real it)
        | none =>
            match integer? text with
            | some (.ok it) => .value (.int it)
            | some (.error it) => .fault it
            | none =>
                match stamp? text with
                | some it => ofStamp it
                | none => .value (.text (String.ofList text))

end Plain
end RecipeLint.Yaml
