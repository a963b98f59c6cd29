import RecipeLint.Mail.Address

/-!
# A single mailbox

A text is a mailbox if it is a list of exactly one address without a flaw, which is not in a group
and has both a username and a domain.  Old forms that are still in use are no flaws.
-/

namespace RecipeLint.Mail

/-- Why the parts of an address cannot be named: the text is refused, or reading comes to grief. -/
abbrev Naming := Except Stop

namespace Phrase

/-- The elements without the white space or comment in front; a dot may not come first. -/
def withoutFirstGap : List PhraseItem → Naming (List PhraseItem)
  | [] => .error .refused
  | .gap _ :: items => .ok items
  | .word it :: items => .ok (.word { it with before := none } :: items)
  | .dot :: _ => .error (.fault .bareDot)

/-- The elements, the last one first, without the white space or comment behind. -/
def withoutLastGap : List PhraseItem → Naming (List PhraseItem)
  | [] => .error .refused
  | .gap _ :: items => .ok items
  | .word it :: items => .ok (.word { it with after := none } :: items)
  | .dot :: _ => .error (.fault .bareDot)

/-- The phrase as a display name, without the white space and comments at its ends. -/
def displayName (phrase : Phrase) : Naming (List Sign) := do
  if phrase.items.isEmpty then
    return []
  else
    let items ← withoutFirstGap phrase.items
    let items ← withoutLastGap items.reverse
    return items.reverse.flatMap PhraseItem.value

end Phrase

namespace Entry

/-- The mailbox that an entry stands for; parts that it does not have are empty. -/
def mailbox (entry : Entry) : Naming Mailbox := do
  let displayName ← match entry.name with
    | some phrase => phrase.displayName
    | none => pure []
  let username ← match entry.spec with
    | some spec =>
        match spec.localPart.username? with
        | some username => pure username
        | none => .error .refused
    | none => pure []
  let domain := ((entry.spec.bind AddrSpec.domain).map Domain.value).getD []
  if (displayName ++ username ++ domain).any (·.holds fun c => c = '\r' || c = '\n') then
    .error .refused
  else
    return { displayName := Sign.toString displayName, username := Sign.toString username,
             domain := Sign.toString domain }

end Entry

def Mailbox.empty : Mailbox where
  displayName := ""
  username := ""
  domain := ""

/-- The mailboxes of one place of a list, with whether they are in a group. -/
def Place.mailboxes : Place → Naming (Bool × List Mailbox)
  | .entry it => return (false, [← it.mailbox])
  | .junk => return (false, [.empty])
  | .group name members trailed => do
      let _ ← name.displayName
      if trailed then
        .error (.fault .trailedGroup)
      else
        let mailboxes ← members.mapM fun member =>
          match member with
          | some it => it.mailbox
          | none => pure .empty
        return (true, mailboxes)

/-- The mailbox that a list of addresses consists of, if it is exactly one. -/
def soleMailbox? (listing : Listing Place) : Naming (Option Mailbox) := do
  match ← listing.elements.mapM Place.mailboxes with
  | [(false, [mailbox])] =>
      if listing.flawed || mailbox.username.isEmpty || mailbox.domain.isEmpty then
        return none
      else
        return some mailbox
  | _ => return none

def parse (text : List Char) : Except Fault (Option Mailbox) :=
  let reading : Naming (Option Mailbox) := do
    let (listing, _) ← placesFrom (text.length + 1) {} (Sign.ofText text)
    soleMailbox? listing
  match reading with
  | .ok mailbox => .ok mailbox
  | .error (.fault fault) => .error fault
  | .error _ => .ok none

end RecipeLint.Mail
