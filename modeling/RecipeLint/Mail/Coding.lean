import RecipeLint.Mail.CodePage
import RecipeLint.Mail.Wide

/-!
# Codings of characters

A character set reads its octets in one of three ways: as UTF-8, in units of two or four octets, or
octet by octet on a code page.  Octets that form no character remain octets.
-/

namespace RecipeLint.Mail

/-- How octets stand for characters. -/
inductive Coding where
  /-- UTF-8; with a mark, a byte order mark in front of the text is dropped. -/
  | utf8 (marked : Bool)
  /-- Units of a width in octets, with the lowest octet first or last, or in an order that the text
  tells by a mark. -/
  | wide (width : Nat) (littleEndian : Option Bool)
  | page (page : CodePage)
deriving DecidableEq, Repr

namespace Coding

/-- The character in UTF-8 that octets start with and the number of its octets, if they start with
one. -/
def utf8Char? (octets : List UInt8) : Option (Char × Nat) :=
  [1, 2, 3, 4].findSome? fun length =>
    match (String.fromUTF8? (ByteArray.mk (octets.take length).toArray)).map String.toList with
    | some [c] => some (c, length)
    | _ => none

def utf8From : Nat → List UInt8 → List Sign
  | 0, _ | _, [] => []
  | fuel + 1, octet :: rest =>
      match utf8Char? (octet :: rest) with
      | none => .octet octet :: utf8From fuel rest
      | some (c, length) => .char c :: utf8From fuel ((octet :: rest).drop length)

def pageSigns (page : CodePage) (octets : List UInt8) : List Sign :=
  octets.map fun octet => ((page.char? octet).map .char).getD (.octet octet)

/-- The signs of octets; nothing if octets of ASCII do not form characters. -/
def decode? (coding : Coding) (octets : List UInt8) : Option (List Sign) :=
  match coding with
  | .utf8 marked =>
      let signs := utf8From octets.length octets
      if marked && signs.head? = some (.char '\ufeff') then some (signs.drop 1) else some signs
  | .wide width littleEndian => Wide.decode? width littleEndian octets
  | .page it => some (pageSigns it octets)

end Coding
end RecipeLint.Mail
