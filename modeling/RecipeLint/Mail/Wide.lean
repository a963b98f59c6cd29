import RecipeLint.Mail.Sign

/-!
# Text in wide units

UTF-16 and UTF-32 write a text in units of two or four octets.  Octets that form no character remain
octets, unless the first of them belongs to ASCII: then nothing comes of the text.
-/

namespace RecipeLint.Mail.Wide

/-- The number of a unit whose octets are given from the highest to the lowest. -/
def number (octets : List UInt8) : Nat :=
  octets.foldl (fun sum octet => 256 * sum + octet.toNat) 0

/-- The number of the unit that octets start with, if it is complete. -/
def unit? (width : Nat) (littleEndian : Bool) (octets : List UInt8) : Option Nat :=
  let unit := octets.take width
  if unit.length < width then none
  else some (number (if littleEndian then unit.reverse else unit))

/-- The character that octets start with and the number of its octets, or else only the number of
octets that form none. -/
def char? (width : Nat) (littleEndian : Bool) (octets : List UInt8) : Option Char × Nat :=
  match unit? width littleEndian octets with
  | none => (none, octets.length)
  | some first =>
      if 0xd800 ≤ first && first < 0xe000 then
        if width = 2 && first < 0xdc00 then
          match unit? width littleEndian (octets.drop 2) with
          | none => (none, octets.length)
          | some second =>
              if 0xdc00 ≤ second && second < 0xe000 then
                (some (Char.ofNat (0x10000 + 0x400 * (first - 0xd800) + (second - 0xdc00))), 4)
              else
                (none, 2)
        else
          (none, width)
      else if first < 0x110000 then
        (some (Char.ofNat first), width)
      else
        (none, width)

def decodeFrom (width : Nat) (littleEndian : Bool) : Nat → List UInt8 → Option (List Sign)
  | 0, _ | _, [] => some []
  | fuel + 1, octets =>
      match char? width littleEndian octets with
      | (some c, length) =>
          (decodeFrom width littleEndian fuel (octets.drop length)).map (.char c :: ·)
      | (none, length) =>
          let strays := ((octets.take length).takeWhile (0x80 ≤ ·)).take 4
          if strays.isEmpty then none
          else
            (decodeFrom width littleEndian fuel (octets.drop strays.length)).map
              (strays.map .octet ++ ·)

/-- The signs of octets in units of a width.  Where the order of the octets in a unit is not given,
a mark in front of the text tells it, and without a mark the lowest octet comes first. -/
def decode? (width : Nat) (littleEndian : Option Bool) (octets : List UInt8) :
    Option (List Sign) :=
  match littleEndian with
  | some littleEndian => decodeFrom width littleEndian octets.length octets
  | none =>
      if unit? width true octets = some 0xfeff then
        decodeFrom width true octets.length (octets.drop width)
      else if unit? width false octets = some 0xfeff then
        decodeFrom width false octets.length (octets.drop width)
      else
        decodeFrom width true octets.length octets

end RecipeLint.Mail.Wide
