import RecipeLint.Mail.Mailbox
import RecipeLint.Text.Blank
import RecipeLint.Text.Number

/-!
# Signs of an address

An address is read sign by sign.  A sign is a character, or an octet of an encoded word for which
the character set of the word has no character.  Such an octet takes part in the reading as a letter
would, but no address that holds one is sound.
-/

namespace RecipeLint.Mail

inductive Sign where
  | char (c : Char)
  /-- An octet that stands for no character. -/
  | octet (octet : UInt8)
deriving DecidableEq, Repr

namespace Sign

def char? : Sign → Option Char
  | .char c => some c
  | .octet _ => none

/-- Whether a sign is a character with a property. -/
def holds (property : Char → Bool) : Sign → Bool
  | .char c => property c
  | .octet _ => false

def isSpacing : Sign → Bool :=
  holds Mail.isSpacing

def isBlank : Sign → Bool :=
  holds Text.isBlank

def isSpecial : Sign → Bool :=
  holds Mail.isSpecial

/-- Whether a sign is a control character, a space or no character at all, so that no text of an
address may hold it. -/
def isUnfit : Sign → Bool
  | .char c => c.toNat ≤ 0x20 || c.toNat = 0x7f
  | .octet _ => true

/-- The octet that a sign is written as; nothing for a character outside ASCII. -/
def octet? : Sign → Option UInt8
  | .char c => if c.toNat < 0x80 then some (UInt8.ofNat c.toNat) else none
  | .octet it => some it

def hexDigit? (sign : Sign) : Option Nat :=
  sign.char?.bind Text.hexDigit?

def ofText (text : List Char) : List Sign :=
  text.map .char

def toText (signs : List Sign) : List Char :=
  signs.filterMap char?

def toString (signs : List Sign) : String :=
  String.ofList (toText signs)

end Sign

/-- Signs between quotation marks, the marks and backslashes inside them escaped. -/
def quotedSigns (signs : List Sign) : List Sign :=
  let inside := signs.flatMap fun sign =>
    if sign = .char '"' || sign = .char '\\' then [.char '\\', sign] else [sign]
  .char '"' :: inside ++ [.char '"']

end RecipeLint.Mail
