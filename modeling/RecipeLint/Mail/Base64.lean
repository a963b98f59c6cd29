import RecipeLint.Mail.Sign

/-!
# Base 64

Four digits of base 64 stand for three octets.  A last group of two or three digits is filled up
with the mark `=`.  The strict reading refuses everything else that is no digit; the lenient one
passes over it.
-/

namespace RecipeLint.Mail.Base64

def digit? (c : Char) : Option Nat :=
  if c.isUpper then some (c.toNat - 0x41)
  else if c.isLower then some (c.toNat - 0x47)
  else if c.isDigit then some (c.toNat + 4)
  else if c = '+' then some 62
  else if c = '/' then some 63
  else none

def octets : List Nat → List UInt8
  | [a, b] => [UInt8.ofNat (4 * a + b / 16)]
  | [a, b, c] => [UInt8.ofNat (4 * a + b / 16), UInt8.ofNat (16 * b + c / 4)]
  | [a, b, c, d] =>
      [UInt8.ofNat (4 * a + b / 16), UInt8.ofNat (16 * b + c / 4), UInt8.ofNat (64 * c + d)]
  | _ => []

/-- Reads on inside a group of which some digits and, behind them, some marks have been read.
`filled` says whether there was a mark anywhere.  A mark in front of the second digit of a group
does not count; the mark that fills a group up ends the reading.  Nothing comes of a text that
leaves a group open. -/
def readFrom (strict : Bool) (group : List Nat) (marks : Nat) (filled : Bool) :
    List Sign → Option (List UInt8)
  | [] => if group.isEmpty then some [] else none
  | sign :: rest =>
      if sign = .char '=' then
        if group.length < 2 then readFrom strict group marks true rest
        else if group.length + marks < 3 then readFrom strict group (marks + 1) true rest
        else if strict && !rest.isEmpty then none
        else some (octets group)
      else
        match sign.char?.bind digit? with
        | none => if strict then none else readFrom strict group marks filled rest
        | some digit =>
            if strict && filled then none
            else if group.length < 3 then readFrom strict (group ++ [digit]) 0 filled rest
            else (readFrom strict [] 0 filled rest).map (octets (group ++ [digit]) ++ ·)

/-- The strict reading, which refuses a text that starts with a mark. -/
def strict? (text : List Sign) : Option (List UInt8) :=
  if text.head? = some (.char '=') then none else readFrom true [] 0 false text

def lenient? (text : List Sign) : Option (List UInt8) :=
  readFrom false [] 0 false text

/-- The octets of a text, and whether it is sound.  Missing marks are put in for the strict reading;
where it refuses the text, the lenient one reads it as it stands, or else with two marks behind it.
A text that cannot be read at all stands for its own octets. -/
def decode (text : List Sign) : List UInt8 × Bool :=
  let missing := (4 - text.length % 4) % 4
  match strict? (text ++ List.replicate missing (.char '=')) with
  | some octets => (octets, missing = 0)
  | none =>
      match (lenient? text).or (lenient? (text ++ [.char '=', .char '='])) with
      | some octets => (octets, false)
      | none => (text.filterMap Sign.octet?, false)

end RecipeLint.Mail.Base64
