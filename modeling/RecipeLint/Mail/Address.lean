import RecipeLint.Mail.Word

/-!
# Addresses

The grammar of a list of addresses.  A production that does not match lets its caller try another; a
text that breaks off where a production must go on is refused as a whole; and on a few texts reading
comes to grief, which is a `Fault`.  Flaws of what was read do not stop the reading: they are kept
with the productions and condemn the address in the end.
-/

namespace RecipeLint.Mail

/-- A text on which reading comes to grief, so that it is neither an address nor refused as one. -/
inductive Fault where
  /-- A display name starts or ends with a bare dot. -/
  | bareDot
  /-- White space or a comment stands in front of a display name that starts with a dot. -/
  | gapBeforeDot
  /-- The text ends inside a domain literal. -/
  | openLiteral
  /-- The text ends behind the white space that starts a domain literal. -/
  | blankLiteral
  /-- Something other than a comma follows a group. -/
  | trailedGroup
deriving DecidableEq, Repr

/-- Why reading does not go on. -/
inductive Stop where
  | mismatch
  /-- The text as a whole is no list of addresses. -/
  | refused
  | fault (fault : Fault)
deriving DecidableEq, Repr

abbrev Scan := StateT (List Sign) (Except Stop)

namespace Scan

def always (read : List Sign → α × List Sign) : Scan α :=
  fun text => .ok (read text)

def matching (read : List Sign → Option (α × List Sign)) : Scan α :=
  fun text =>
    match read text with
    | some result => .ok result
    | none => .error .mismatch

/-- Reads by the first reader, or if it does not match by the second. -/
def orElse (first second : Scan α) : Scan α :=
  fun text =>
    match first text with
    | .error .mismatch => second text
    | result => result

def stop (reason : Stop) : Scan α :=
  fun _ => .error reason

def current : Scan (Option Sign) :=
  fun text => .ok (text.head?, text)

def follows (c : Char) : Scan Bool := do
  return (← current) = some (.char c)

/-- The next sign of a text that must not end here. -/
def needed : Scan Sign := do
  match ← current with
  | some sign => return sign
  | none => stop .refused

def skip : Scan Unit :=
  fun text => .ok ((), text.drop 1)

def gap : Scan (Option Piece) :=
  always readGap

/-- Whether there is a flaw in what may stand between words. -/
def gapFlawed : Scan Bool := do
  return (← gap).any Piece.flawed

end Scan

open Scan

inductive LocalItem where
  | word (word : Word)
  | dot
  | backslash
  /-- White space or a comment that belongs to no word. -/
  | gap (piece : Piece)
deriving Repr

namespace LocalItem

def value : LocalItem → List Sign
  | .word it => it.value
  | .dot => [.char '.']
  | .backslash => [.char '\\']
  | .gap it => it.value

def flawed : LocalItem → Bool
  | .word it => it.flawed
  | .gap it => it.flawed
  | _ => false

def isDot : LocalItem → Bool
  | .dot => true
  | _ => false

def isGap : LocalItem → Bool
  | .gap _ => true
  | _ => false

/-- The elements without the white space and comments that touch a dot or an end; `atDot` says
whether a dot or the start precedes. -/
def stripped (atDot : Bool) : List LocalItem → List LocalItem
  | [] => []
  | .gap _ :: items => stripped atDot items
  | .word it :: items =>
      let before := if atDot then none else it.before
      let after := if (items.find? (!·.isGap)).all isDot then none else it.after
      .word { it with before, after } :: stripped false items
  | .dot :: items => .dot :: stripped true items
  | .backslash :: items => .backslash :: stripped false items

end LocalItem

inductive LocalPart where
  | single (word : Word)
  /-- The old form, with white space and comments anywhere; `disordered` if its elements are in an
  order that was never allowed. -/
  | old (items : List LocalItem) (disordered : Bool)
deriving Repr

namespace LocalPart

def value : LocalPart → List Sign
  | .single it => it.value
  | .old items _ => items.flatMap LocalItem.value

def flawed (part : LocalPart) : Bool :=
  let inner := match part with
    | .single it => it.flawed
    | .old items disordered => disordered || items.any LocalItem.flawed
  inner || part.value.any fun sign => !sign.holds fun c => c.toNat < 0x80

/-- The name of the user; nothing if the only word is hollow. -/
def username? : LocalPart → Option (List Sign)
  | .single it => if it.hollow then none else some it.content.value
  | .old items _ => some ((LocalItem.stripped true items).flatMap LocalItem.value)

/-- Reads the elements of a local part, with every disorder among them noted: two dots in a row, a
backslash, or two words without a dot between them. -/
def itemsFrom : Nat → List LocalItem → Bool → Bool → List Sign →
    List LocalItem × Bool × List Sign
  | 0, found, _, disordered, rest => (found.reverse, disordered, rest)
  | _, found, _, disordered, [] => (found.reverse, disordered, [])
  | fuel + 1, found, afterDot, disordered, sign :: rest =>
      if sign = .char '.' then itemsFrom fuel (.dot :: found) true (disordered || afterDot) rest
      else if sign = .char '\\' then itemsFrom fuel (.backslash :: found) false true rest
      else if sign.endsPhrase then (found.reverse, disordered, sign :: rest)
      else
        let disordered := disordered || found.head?.any (!·.isDot)
        match Word.read? (sign :: rest) with
        | some (word, rest) => itemsFrom fuel (.word word :: found) false disordered rest
        | none =>
            match readGap (sign :: rest) with
            | (some piece, rest) => itemsFrom fuel (.gap piece :: found) afterDot disordered rest
            | (none, rest) => (found.reverse, disordered, rest)

def startsWithDot : List LocalItem → Bool
  | .dot :: _ | .gap _ :: .dot :: _ => true
  | _ => false

/-- Reads a local part in the old form.  Nothing at all is refused here, and so are white space and
comments alone. -/
def readOld : Scan LocalPart := do
  let (items, disordered) ← always fun text =>
    let (items, disordered, rest) := itemsFrom (text.length + 1) [] false false text
    ((items, disordered), rest)
  match items with
  | [] | [.gap _] => stop .refused
  | items =>
      let dangling := startsWithDot items || startsWithDot items.reverse
      return .old items (disordered || dangling)

/-- Reads the one word that a local part usually is; nothing if it starts with a dot or
backslash. -/
def readWord : Scan (Option Word) := fun text =>
  match Word.dotAtom? text with
  | some (word, rest) => .ok (some word, rest)
  | none =>
      match Word.read? text with
      | some (word, rest) => .ok (some word, rest)
      | none =>
          if text.head?.any fun sign => sign ≠ .char '\\' && sign.endsPhrase then
            .error .mismatch
          else
            .ok (none, text)

/-- Reads a local part.  Where the text goes on after one word, what has been read is put back as it
is written, an encoded word as its decoded text, and all of it is read in the old form. -/
def read : Scan LocalPart := do
  let _ ← needed
  let before ← gap
  if (← current).isNone then
    stop .mismatch
  else
    let word ← readWord
    let goesOn := (← current).any fun sign => sign = .char '\\' || !sign.endsPhrase
    match word, goesOn with
    | some word, false => return .single { word with before }
    | word, _ =>
        let written := (before.map Piece.text).getD [] ++ (word.map Word.text).getD []
        modify (written ++ ·)
        readOld

end LocalPart

structure Domain where
  value : List Sign
  flawed : Bool
  /-- Whether it is a literal inside which the text ends. -/
  unclosed : Bool
deriving Repr

namespace Domain

/-- A domain that stands for a text, without the white space of the text. -/
def ofText (text : List Sign) (flawed : Bool) : Domain where
  value := text.filter (!·.isBlank)
  flawed
  unclosed := false

def openLiteral : Domain where
  value := []
  flawed := true
  unclosed := true

def literal : Scan Domain := do
  if (← current).isNone then
    return openLiteral
  if (← current).any Sign.isSpacing then
    modify (·.dropWhile Sign.isBlank)
    if (← current).isNone then
      stop (.fault .blankLiteral)
  let content ← always (escapedRun fun sign => sign = .char '[' || sign = .char ']')
  if (← current).any Sign.isSpacing then
    modify (·.dropWhile Sign.isBlank)
  match ← current with
  | none => return openLiteral
  | some (.char ']') =>
      skip
      let flawed ← gapFlawed
      let text := .char '[' :: content ++ [.char ']']
      return .ofText text (flawed || content.any Sign.isUnfit)
  | some _ => stop .mismatch

def furtherAtoms : Nat → List Sign → Bool → Scan (List Sign × Bool)
  | 0, text, flawed => return (text, flawed)
  | fuel + 1, text, flawed => do
      if ← follows '.' then
        skip
        let word ← matching Word.atom?
        furtherAtoms fuel (text ++ .char '.' :: word.value) (flawed || word.flawed)
      else
        return (text, flawed)

def read : Scan Domain := do
  let _ ← needed
  let before ← gap
  let gapFlawed := before.any Piece.flawed
  match ← current with
  | none => stop .mismatch
  | some (.char '[') =>
      skip
      let domain ← literal
      return { domain with flawed := gapFlawed || domain.flawed }
  | some _ =>
      let word ← (matching Word.dotAtom?).orElse (matching Word.atom?)
      if ← follows '@' then
        stop .mismatch
      else
        let (text, flawed) ← furtherAtoms (← get).length word.value (gapFlawed || word.flawed)
        return .ofText text flawed

end Domain

structure AddrSpec where
  localPart : LocalPart
  /-- What stands behind it; nothing if there is no `@`. -/
  domain : Option Domain
deriving Repr

namespace AddrSpec

def flawed (spec : AddrSpec) : Bool :=
  spec.localPart.flawed || spec.domain.all Domain.flawed

def unclosed (spec : AddrSpec) : Bool :=
  spec.domain.any Domain.unclosed

def read : Scan AddrSpec := do
  let localPart ← LocalPart.read
  if ← follows '@' then
    skip
    return { localPart, domain := some (← Domain.read) }
  else
    return { localPart, domain := none }

end AddrSpec

structure Entry where
  name : Option Phrase
  /-- The address; nothing for empty angle brackets. -/
  spec : Option AddrSpec
  /-- Whether something apart from name and address has a flaw. -/
  marred : Bool
deriving Repr

namespace Entry

def flawed (entry : Entry) : Bool :=
  entry.marred || entry.name.any Phrase.flawed || entry.spec.all AddrSpec.flawed

/-- Reads domains of a route behind the first, with commas between them. -/
def furtherRoute : Nat → Bool → Scan Bool
  | 0, flawed => return flawed
  | fuel + 1, flawed => do
      if ← follows ',' then
        skip
        if (← current).isNone then
          return flawed
        let gapFlawed ← gapFlawed
        if (← needed) = .char '@' then
          skip
          let domain ← Domain.read
          furtherRoute fuel (flawed || gapFlawed || domain.flawed)
        else
          furtherRoute fuel (flawed || gapFlawed)
      else
        return flawed

/-- Passes over the commas, white space and comments in front of a route. -/
def routeStart : Nat → Bool → Scan Bool
  | 0, flawed => return flawed
  | fuel + 1, flawed => do
      match ← current with
      | some (.char ',') =>
          skip
          routeStart fuel flawed
      | some sign =>
          if sign.isGapStart then
            routeStart fuel (flawed || (← gapFlawed))
          else
            return flawed
      | none => return flawed

/-- Reads an old route, a list of domains in front of the address, and gives whether it is
flawed. -/
def route : Scan Bool := do
  let flawed ← routeStart (← get).length false
  if ← follows '@' then
    skip
    let domain ← Domain.read
    let flawed ← furtherRoute (← get).length (flawed || domain.flawed)
    if ← follows ':' then
      skip
      return flawed
    else
      stop .mismatch
  else
    stop .mismatch

def angled (name : Option Phrase) : Scan Entry := do
  let before ← gapFlawed
  if ← follows '<' then
    skip
    if (← needed) = .char '>' then
      skip
      return { name, spec := none, marred := true }
    else
      let plain : Scan (AddrSpec × Bool) := return (← AddrSpec.read, false)
      let routed : Scan (AddrSpec × Bool) := do
        let flawed ← route
        return (← AddrSpec.read, flawed)
      let (spec, flawed) ← plain.orElse routed
      let closed ← follows '>'
      if closed then
        skip
      let behind ← gapFlawed
      return { name, spec := some spec, marred := before || flawed || !closed || behind }
  else
    stop .mismatch

/-- The phrase with white space or a comment put in front of its first word. -/
def withGap (phrase : Phrase) : Option Piece → Scan Phrase
  | none => return phrase
  | some piece =>
      match phrase.items with
      | .word it :: items =>
          return { phrase with items := .word { it with before := some piece } :: items }
      | _ => stop (.fault .gapBeforeDot)

def named : Scan Entry := do
  let before ← gap
  match ← current with
  | none => stop .mismatch
  | some (.char '<') =>
      let entry ← angled none
      return { entry with marred := entry.marred || before.any Piece.flawed }
  | some sign =>
      if sign.endsPhrase then
        stop .mismatch
      else
        let phrase ← always Phrase.read
        if (← current).isNone then
          stop .mismatch
        else
          let phrase ← withGap phrase before
          angled (some phrase)

def read : Scan Entry := do
  let bare : Scan Entry := return { name := none, spec := some (← AddrSpec.read), marred := false }
  let entry ← named.orElse bare
  if entry.spec.any AddrSpec.unclosed then
    stop (.fault .openLiteral)
  else
    return entry

end Entry

/-- Passes over everything up to one of the ending signs that does not stand in a word. -/
def junkFrom (isEnd : Sign → Bool) : Nat → List Sign → List Sign
  | 0, text => text
  | _, [] => []
  | fuel + 1, sign :: rest =>
      if isEnd sign then sign :: rest
      else if sign.endsPhrase then junkFrom isEnd fuel rest
      else junkFrom isEnd fuel (Phrase.read (sign :: rest)).2

def junk (isEnd : Sign → Bool) : Scan Unit :=
  modify fun text => junkFrom isEnd (text.length + 1) text

/-- What one place of a list of addresses holds. -/
inductive Place where
  | entry (entry : Entry)
  /-- What cannot be read as a mailbox. -/
  | junk
  /-- A group of mailboxes, `trailed` if something other than a comma follows it. -/
  | group (name : Phrase) (members : List (Option Entry)) (trailed : Bool)
deriving Repr

/-- What has been read of a list: its elements in reverse, and whether there was a flaw. -/
structure Listing (α : Type) where
  found : List α := []
  flawed : Bool := false
deriving Repr

namespace Listing

def elements (listing : Listing α) : List α :=
  listing.found.reverse

def add (listing : Listing α) (element : α) (flawed : Bool) : Listing α where
  found := element :: listing.found
  flawed := listing.flawed || flawed

def mar (listing : Listing α) (flawed : Bool) : Listing α :=
  { listing with flawed := listing.flawed || flawed }

/-- Reads one element of a list whose elements end as given.  Where none can be read, white space
alone is an empty element and everything else is junk. -/
def element (isEnd : Sign → Bool) (read : Scan (α × Bool)) (junkElement : α)
    (listing : Listing α) : Scan (Listing α) :=
  let usual : Scan (Listing α) := do
    let (element, flawed) ← read
    return listing.add element flawed
  let other : Scan (Listing α) := do
    let before ← gap
    let next ← current
    if (before.isSome && next.all isEnd) || next = some (.char ',') then
      return listing.mar (before.any Piece.flawed)
    else
      junk isEnd
      return listing.add junkElement true
  usual.orElse other

end Listing

/-- A mailbox of a group, or nothing for junk, and whether it is flawed. -/
def member : Scan (Option Entry × Bool) := do
  let entry ← Entry.read
  return (some entry, entry.flawed)

def endsMember (sign : Sign) : Bool :=
  sign = .char ',' || sign = .char ';'

def membersFrom : Nat → Listing (Option Entry) → Scan (Listing (Option Entry))
  | 0, listing => return listing
  | fuel + 1, listing => do
      if (← current).all (· = .char ';') then
        return listing
      let listing ← listing.element endsMember member none
      let trailed := (← current).any (!endsMember ·)
      if trailed then
        junk endsMember
      let listing := listing.mar trailed
      if ← follows ',' then
        skip
      membersFrom fuel listing

def members : Scan (Listing (Option Entry)) := do
  if (← current).isNone then
    return { flawed := true }
  let flawed ← gapFlawed
  match ← current with
  | none => return { flawed := true }
  | some (.char ';') => return { flawed }
  | some _ => membersFrom (← get).length { flawed }

def group : Scan (Place × Bool) := do
  let name ← always Phrase.read
  if ← follows ':' then
    skip
    if ← follows ';' then
      skip
      return (.group name [] false, name.flawed)
    else
      let listing ← members
      let unclosed := (← current).isNone
      skip
      let behind ← gapFlawed
      return (.group name listing.elements false,
        name.flawed || listing.flawed || unclosed || behind)
  else
    stop .mismatch

def place : Scan (Place × Bool) :=
  let single : Scan (Place × Bool) := do
    let entry ← Entry.read
    return (.entry entry, entry.flawed)
  group.orElse single

/-- The list of places with a mark on a group that comes last. -/
def markTrailed (listing : Listing Place) : Listing Place :=
  match listing.found with
  | .group name members _ :: found => { found := .group name members true :: found, flawed := true }
  | _ => { listing with flawed := true }

def placesFrom : Nat → Listing Place → Scan (Listing Place)
  | 0, listing => return listing
  | fuel + 1, listing => do
      if (← current).isNone then
        return listing
      let listing ← listing.element (· = .char ',') place .junk
      let trailed := (← current).any (· ≠ .char ',')
      if trailed then
        junk (· = .char ',')
      skip
      placesFrom fuel (if trailed then markTrailed listing else listing)

end RecipeLint.Mail
