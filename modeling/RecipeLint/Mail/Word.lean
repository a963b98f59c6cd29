import RecipeLint.Mail.EncodedWord

/-!
# Words of an address

White space and comments may stand around every word of an address.  A word is an atom, which may be
an encoded word, or a quoted text.  The readers of this module take a text and give what it starts
with and the rest of it; those that end in a question mark give nothing where the text starts
differently.
-/

namespace RecipeLint.Mail

namespace Sign

def isGapStart (sign : Sign) : Bool :=
  sign.isSpacing || sign = .char '('

def endsAtom (sign : Sign) : Bool :=
  sign.isSpecial || sign.isSpacing

def endsPhrase (sign : Sign) : Bool :=
  (Sign.ofText ")<>@,:;\\[]".toList).contains sign

end Sign

/-- Reads white space and comments, `depth` comments being open and white space going on if `inRun`,
behind what is already `found` in reverse.  A comment that is not closed is a flaw. -/
def gapFrom (found : List Sign) (flawed : Bool) (depth : Nat) (inRun : Bool) :
    List Sign → Piece × List Sign
  | [] =>
      ({ value := [.char ' '], text := found.reverse ++ List.replicate depth (.char ')'),
         flawed := flawed || depth ≠ 0 }, [])
  | sign :: rest =>
      if sign.isSpacing || (inRun && sign.isBlank) then
        gapFrom (sign :: found) flawed depth true rest
      else if sign = .char '(' then
        gapFrom (.char '(' :: found) flawed (depth + 1) false rest
      else
        match depth, rest with
        | 0, rest => ({ value := [.char ' '], text := found.reverse, flawed }, sign :: rest)
        | outer + 1, [] =>
            if sign = .char ')' then gapFrom (.char ')' :: found) flawed outer false []
            else if sign = .char '\\' then gapFrom found flawed (outer + 1) false []
            else gapFrom (sign :: found) (flawed || sign.isUnfit) (outer + 1) false []
        | outer + 1, next :: after =>
            if sign = .char ')' then
              gapFrom (.char ')' :: found) flawed outer false (next :: after)
            else if sign = .char '\\' then
              if next.isSpacing then gapFrom found flawed (outer + 1) false (next :: after)
              else
                let marked := next.holds ("\\()".toList.contains ·)
                let written := if marked then [next, .char '\\'] else [next]
                gapFrom (written ++ found) (flawed || next.isUnfit) (outer + 1) false after
            else gapFrom (sign :: found) (flawed || sign.isUnfit) (outer + 1) false (next :: after)

def readGap (text : List Sign) : Option Piece × List Sign :=
  if text.head?.any Sign.isGapStart then
    let (piece, rest) := gapFrom [] false 0 false text
    (some piece, rest)
  else
    (none, text)

/-- The text up to a spacing or an ending sign.  A backslash stands for the sign behind it, and for
nothing in front of a spacing. -/
def escapedRun (isEnd : Sign → Bool) : List Sign → List Sign × List Sign
  | [] => ([], [])
  | [.char '\\'] => ([], [])
  | .char '\\' :: sign :: rest =>
      if sign.isSpacing then
        ([], sign :: rest)
      else
        let (run, rest) := escapedRun isEnd rest
        (sign :: run, rest)
  | sign :: rest =>
      if sign.isSpacing || isEnd sign then
        ([], sign :: rest)
      else
        let (run, rest) := escapedRun isEnd rest
        (sign :: run, rest)

structure Word where
  before : Option Piece
  content : Piece
  /-- Whether the word itself holds nothing at all, not even an empty text. -/
  hollow : Bool
  after : Option Piece
deriving Repr

namespace Word

def pieces (word : Word) : List Piece :=
  word.before.toList ++ word.content :: word.after.toList

def value (word : Word) : List Sign :=
  word.pieces.flatMap Piece.value

def text (word : Word) : List Sign :=
  word.pieces.flatMap Piece.text

def flawed (word : Word) : Bool :=
  word.pieces.any Piece.flawed

/-- The word with what stands behind it read as well. -/
def closed (before : Option Piece) (content : Piece) (hollow : Bool) (rest : List Sign) :
    Word × List Sign :=
  let (after, rest) := readGap rest
  ({ before, content, hollow, after }, rest)

def plain (text : List Sign) : Piece :=
  { value := text, text, flawed := text.any Sign.isUnfit }

def atom? (text : List Sign) : Option (Word × List Sign) :=
  let (before, text) := readGap text
  match EncodedWord.read? text with
  | some (piece, rest) => some (closed before piece piece.text.isEmpty rest)
  | none =>
      match text.span fun sign => !sign.endsAtom with
      | ([], _) => none
      | (run, rest) => some (closed before (plain run) false rest)

/-- The atoms with single dots between them that a text starts with. -/
def dotted? (text : List Sign) : Option (List Sign × List Sign) :=
  let dot : Sign := .char '.'
  let (run, rest) := text.span fun sign => sign = dot || !sign.endsAtom
  let doubled := (run.zip (run.drop 1)).any fun (sign, next) => sign = dot && next = dot
  if run.head?.all (· = dot) || run.getLast? = some dot || doubled then none else some (run, rest)

/-- Reads atoms with dots between them, or an encoded word. -/
def dotAtom? (text : List Sign) : Option (Word × List Sign) :=
  let (before, text) := readGap text
  match EncodedWord.read? text with
  | some (piece, rest) => some (closed before piece piece.text.isEmpty rest)
  | none =>
      match dotted? text with
      | none => none
      | some (run, rest) => some (closed before (plain run) false rest)

inductive QuotedPart where
  /-- White space, which stands for itself. -/
  | blank (text : List Sign)
  | plain (text : List Sign)
  /-- An encoded word, which is a flaw here. -/
  | encoded (piece : Piece)
deriving Repr

namespace QuotedPart

def flawed : QuotedPart → Bool
  | .blank _ => false
  | .plain it => it.any Sign.isUnfit
  | .encoded _ => true

/-- The text of parts.  White space between two encoded words does not count. -/
def text : List QuotedPart → List Sign
  | [] => []
  | .encoded first :: .blank _ :: .encoded second :: parts =>
      first.text ++ text (.encoded second :: parts)
  | .encoded it :: parts => it.text ++ text parts
  | .blank it :: parts => it ++ text parts
  | .plain it :: parts => it ++ text parts

end QuotedPart

/-- Reads the inside of a quoted text and its closing mark, behind what is already `found` in
reverse, and gives whether the mark is missing. -/
def quotedFrom : Nat → List QuotedPart → List Sign → List QuotedPart × Bool × List Sign
  | 0, found, rest => (found.reverse, true, rest)
  | _, found, [] => (found.reverse, true, [])
  | _, found, .char '"' :: rest => (found.reverse, false, rest)
  | fuel + 1, found, sign :: rest =>
      if sign.isSpacing then
        let (run, rest) := (sign :: rest).span Sign.isBlank
        quotedFrom fuel (.blank run :: found) rest
      else
        match EncodedWord.read? (sign :: rest) with
        | some (piece, rest) => quotedFrom fuel (.encoded piece :: found) rest
        | none =>
            let (run, rest) := escapedRun (· = .char '"') (sign :: rest)
            quotedFrom fuel (.plain run :: found) rest

/-- Reads a quoted text of which the opening mark has been read.  A missing closing mark is a
flaw. -/
def quoted (before : Option Piece) (text : List Sign) : Word × List Sign :=
  let (parts, unclosed, rest) := quotedFrom (text.length + 1) [] text
  let value := QuotedPart.text parts
  let content :=
    { value, text := quotedSigns value, flawed := unclosed || parts.any QuotedPart.flawed }
  closed before content (unclosed && parts.isEmpty) rest

def read? (text : List Sign) : Option (Word × List Sign) :=
  match readGap text with
  | (_, []) => none
  | (before, .char '"' :: rest) => some (quoted before rest)
  | (before, sign :: rest) =>
      if sign.isSpecial then none
      else (atom? (sign :: rest)).map fun (word, rest) => ({ word with before }, rest)

end Word

inductive PhraseItem where
  | word (word : Word)
  /-- A dot, which old addresses have in names. -/
  | dot
  /-- White space or a comment that belongs to no word. -/
  | gap (piece : Piece)
deriving Repr

namespace PhraseItem

def value : PhraseItem → List Sign
  | .word it => it.value
  | .dot => [.char '.']
  | .gap it => it.value

def flawed : PhraseItem → Bool
  | .word it => it.flawed
  | .dot => false
  | .gap it => it.flawed

end PhraseItem

structure Phrase where
  items : List PhraseItem
  /-- Whether it starts with a word, as it should. -/
  regular : Bool
deriving Repr

namespace Phrase

def flawed (phrase : Phrase) : Bool :=
  !phrase.regular || phrase.items.any PhraseItem.flawed

def itemsFrom : Nat → List PhraseItem → List Sign → List PhraseItem × List Sign
  | 0, found, rest => (found.reverse, rest)
  | _, found, [] => (found.reverse, [])
  | fuel + 1, found, sign :: rest =>
      if sign.endsPhrase then (found.reverse, sign :: rest)
      else if sign = .char '.' then itemsFrom fuel (.dot :: found) rest
      else
        match Word.read? (sign :: rest) with
        | some (word, rest) => itemsFrom fuel (.word word :: found) rest
        | none =>
            match readGap (sign :: rest) with
            | (some piece, rest) => itemsFrom fuel (.gap piece :: found) rest
            | (none, rest) => (found.reverse, rest)

def read (text : List Sign) : Phrase × List Sign :=
  let (items, rest) := itemsFrom (text.length + 1) [] text
  ({ items, regular := (Word.read? text).isSome }, rest)

end Phrase
end RecipeLint.Mail
