/-!
# Octets as text

A script is stored as octets.  They are read as UTF-8 if they are well formed, and otherwise octet
by octet as the first 256 code points, which never fails.  Either way every line end becomes a
newline.
-/

namespace RecipeLint.Text

/-- Every octet as the code point of the same number. -/
def latin (octets : ByteArray) : String :=
  String.ofList (octets.toList.map fun octet => Char.ofNat octet.toNat)

/-- The text with every carriage return, and a newline directly after it, turned into one newline,
behind what is already `found` in reverse. -/
def newlinesFrom (found : List Char) : List Char → List Char
  | [] => found.reverse
  | '\r' :: '\n' :: rest => newlinesFrom ('\n' :: found) rest
  | '\r' :: rest => newlinesFrom ('\n' :: found) rest
  | c :: rest => newlinesFrom (c :: found) rest

/-- The text with every line end written as a newline. -/
def newlines (text : String) : List Char :=
  newlinesFrom [] text.toList

/-- The text that octets hold, if they are well-formed UTF-8. -/
def decodeStrict? (octets : ByteArray) : Option (List Char) :=
  (String.fromUTF8? octets).map newlines

def decode (octets : ByteArray) : List Char :=
  newlines ((String.fromUTF8? octets).getD (latin octets))

end RecipeLint.Text
