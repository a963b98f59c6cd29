import RecipeLint.Mail.Base64
import RecipeLint.Mail.Charset

/-!
# Encoded words

Text outside ASCII stands in an address as `=?charset?encoding?text?=`, the encoding being `q` for
quoted octets and `b` for base 64.  What does not have this form is no encoded word at all, while
one that cannot be decoded faithfully is a flawed piece of the address.
-/

namespace RecipeLint.Mail

structure Piece where
  /-- What it stands for. -/
  value : List Sign
  /-- How it is written. -/
  text : List Sign
  /-- Whether no address may hold it. -/
  flawed : Bool
deriving DecidableEq, Repr

/-- The signs of a text, with nothing in the place of each run of white space that a spacing starts;
`inRun` says whether such a run goes on. -/
def condensed (inRun : Bool) : List Sign → List (Option Sign)
  | [] => []
  | sign :: rest =>
      if inRun && sign.isBlank then condensed true rest
      else if sign.isSpacing then none :: condensed true rest
      else some sign :: condensed false rest

namespace EncodedWord

/-- The text in front of and behind the first `?=`. -/
def cut? : List Sign → Option (List Sign × List Sign)
  | [] => none
  | .char '?' :: .char '=' :: rest => some ([], rest)
  | sign :: rest => (cut? rest).map fun (before, after) => (sign :: before, after)

/-- The octets of quoted text: an underscore is a space and `=` introduces two digits. -/
def unquote : List Sign → List UInt8
  | [] => []
  | .char '_' :: rest => 0x20 :: unquote rest
  | .char '=' :: high :: low :: rest =>
      match high.hexDigit?, low.hexDigit? with
      | some high, some low => UInt8.ofNat (16 * high + low) :: unquote rest
      | _, _ => UInt8.ofNat '='.toNat :: unquote (high :: low :: rest)
  | sign :: rest => sign.octet?.toList ++ unquote rest

/-- The octets of encoded text and whether its encoding is sound; nothing for an unknown
encoding. -/
def octets? (encoding text : List Sign) : Option (List UInt8 × Bool) :=
  match encoding with
  | [.char 'q'] | [.char 'Q'] => some (unquote text, true)
  | [.char 'b'] | [.char 'B'] => some (Base64.decode text)
  | _ => none

/-- The signs of octets in the character set of a name, and whether the set is known.  No octets at
all are the empty text in every set.  There is nothing to read if the name holds a null character or
if the set cannot make sense of the octets. -/
def decode? (charset : List Sign) (octets : List UInt8) : Option (List Sign × Bool) :=
  match charset.mapM Sign.char? with
  | none => some (Coding.pageSigns .ascii octets, false)
  | some name =>
      if name.contains '\x00' then none
      else if octets.isEmpty then some ([], true)
      else
        match Charset.of? name with
        | some charset => (charset.coding.decode? octets).map fun signs => (signs, true)
        | none => some (Coding.pageSigns .ascii octets, Charset.isUnnamed name)

/-- The piece that a decoded text is: each of its runs of white space stands for one space. -/
def piece (text : List Sign) (flawed : Bool) : Piece :=
  let marks := condensed false text
  { value := marks.map fun mark => mark.getD (.char ' ')
    text
    flawed := flawed || marks.any fun mark => mark.any Sign.isUnfit }

/-- The inside of an encoded word and what follows it, for a text behind `=?`.  If the inside is not
complete at the first `?=` and two hexadecimal digits follow there, it goes on to the next one. -/
def inside? (text : List Sign) : Option (List Sign × List Sign) :=
  match cut? text with
  | none => none
  | some (inside, after) =>
      match after with
      | high :: low :: _ =>
          let coded := high.hexDigit?.isSome && low.hexDigit?.isSome
          if coded && inside.count (.char '?') < 2 then
            match cut? after with
            | some (more, after) => some (inside ++ .char '?' :: .char '=' :: more, after)
            | none => some (inside ++ .char '?' :: .char '=' :: after, [])
          else
            some (inside, after)
      | _ => some (inside, after)

/-- Whether a text consists of more than one part between white space. -/
def isSpaced (text : List Sign) : Bool :=
  let inner := (text.dropWhile Sign.isBlank).reverse.dropWhile Sign.isBlank
  inner.any Sign.isBlank

/-- Reads the encoded word that a text starts with, if it has the form of one. -/
def read? : List Sign → Option (Piece × List Sign)
  | .char '=' :: .char '?' :: text => do
      let (inside, after) ← inside? text
      match inside.splitOn (.char '?') with
      | [charset, encoding, content] =>
          let _ ← content.mapM Sign.octet?
          let (octets, sound) ← octets? encoding content
          let (signs, known) ← decode? (charset.takeWhile (· ≠ .char '*')) octets
          let followed := after.head?.any (!·.isSpacing)
          return (piece signs (isSpaced inside || !sound || !known || followed), after)
      | _ => none
  | _ => none

end EncodedWord
end RecipeLint.Mail
