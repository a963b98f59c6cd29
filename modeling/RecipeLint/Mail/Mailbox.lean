/-!
# Mailboxes

A mailbox is an optional display name and an address of the form `username@domain`.  When it is
written, a part that holds characters with a meaning of their own is put between quotation marks.
-/

namespace RecipeLint.Mail

def isSpecial (c : Char) : Bool :=
  "()<>@,:;.\\\"[]".toList.contains c

def isSpacing (c : Char) : Bool :=
  c = ' ' || c = '\t'

def quotedText (text : List Char) : List Char :=
  let inside := text.flatMap fun c => if c = '"' || c = '\\' then ['\\', c] else [c]
  '"' :: inside ++ ['"']

structure Mailbox where
  /-- The name shown to people; empty if there is none. -/
  displayName : String
  username : String
  domain : String
deriving DecidableEq, Repr

namespace Mailbox

def address (mailbox : Mailbox) : String :=
  let name := mailbox.username.toList
  let written :=
    if name.any fun c => isSpacing c || (isSpecial c && c ≠ '.') then quotedText name else name
  String.ofList written ++ "@" ++ mailbox.domain

def text (mailbox : Mailbox) : String :=
  let name := mailbox.displayName.toList
  if name.isEmpty then
    mailbox.address
  else
    let written := if name.any isSpecial then quotedText name else name
    String.ofList written ++ " <" ++ mailbox.address ++ ">"

end Mailbox
end RecipeLint.Mail
