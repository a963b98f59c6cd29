import RecipeLint.Grammar.Pieces
import RecipeLint.Grammar.Reading

/-!
# Quoted parts and brackets

Texts in single quotes, double quotes and backquotes, and texts between balanced brackets.  Inside
double quotes only expansions, backquotes and a few escapes are special; here-documents and indices
are read in the same way up to the end of their text.
-/

namespace RecipeLint

/-- The number of characters in front of the single quote that closes a text.  With `escapes` a
backslash protects the character after it. -/
def singleEnd? (escapes : Bool) (length : Nat) : List Char → Option Nat
  | [] => none
  | '\'' :: _ => some length
  | '\\' :: c :: rest =>
      if escapes then
        singleEnd? escapes (length + 2) rest
      else
        singleEnd? escapes (length + 1) (c :: rest)
  | _ :: rest => singleEnd? escapes (length + 1) rest

/-- The text in front of the closing backquote, its escapes undone, and the number of characters
that it was written with. -/
def backquoteText? (text : List Char) (length : Nat) : List Char → Option (List Char × Nat)
  | [] => none
  | '\x60' :: _ => some (text.reverse, length)
  | '\\' :: c :: rest =>
      if c = '\x60' || c = '$' || c = '\\' then
        backquoteText? (c :: text) (length + 2) rest
      else
        backquoteText? ('\\' :: text) (length + 1) (c :: rest)
  | c :: rest => backquoteText? (c :: text) (length + 1) rest

/-- The number of characters in front of the bracket that closes the `depth` innermost ones. -/
def bracketEnd? (opening closing : Char) (length depth : Nat) : List Char → Option Nat
  | [] => none
  | c :: rest =>
      if c = opening then
        bracketEnd? opening closing (length + 1) (depth + 1) rest
      else if c = closing then
        match depth with
        | 0 | 1 => some length
        | depth + 2 => bracketEnd? opening closing (length + 1) (depth + 1) rest
      else
        bracketEnd? opening closing (length + 1) depth rest

namespace Reading

/-- Text in single quotes.  The part starts at `pos`, which with `dollar` is in front of the
quote. -/
def singleQuoted (pos : Position) (dollar : Bool) : Reading Part := do
  let opening ← here
  skip 1
  let text ← rest
  match singleEnd? dollar 0 text with
  | none => failAt opening (.unclosedQuote "'")
  | some length =>
      skip (length + 1)
      return .single pos (String.ofList (text.take length)) dollar

def backquoted (inner : Inner) : Reading Part := do
  let pos ← here
  skip 1
  let start ← here
  match backquoteText? [] 0 (← rest) with
  | none => failAt pos (.unclosedQuote "\x60")
  | some (text, length) =>
      skip (length + 1)
      let (items, bodies) ← within text start do
        let items ← inner.statements []
        match ← current with
        | none => return items
        | some c => fail (.unexpected c)
      return .substitution pos (placeItems bodies items) true

/-- One round of reading what only expansions interrupt, up to `stop` or the end of the text. -/
def quotedRound (inner : Inner) (stop : Option Char) (pieces : Pieces) :
    Reading (Round Pieces (List Part)) := do
  let pos ← here
  match ← rest with
  | [] => return .done pieces.finish
  | c :: rest =>
      if stop = some c then
        return .done pieces.finish
      else if c = '\\' then
        if rest.head? = some '\n' then
          skip 2
          return .again pieces
        else if rest.head?.any ['$', '\x60', '"', '\\'].contains then
          skip 2
          return .again (pieces.push pos (c :: rest.take 1))
        else
          skip 1
          return .again (pieces.push pos [c])
      else if c = '\x60' then
        return .again (pieces.add (← backquoted inner))
      else if c = '$' then
        match ← inner.expansion true with
        | some part => return .again (pieces.add part)
        | none =>
            skip 1
            return .again (pieces.push pos [c])
      else
        skip 1
        return .again (pieces.push pos [c])

/-- Parts that only expansions interrupt, up to `stop` or the end of the text. -/
def quotedParts (inner : Inner) (stop : Option Char) : Reading (List Part) := do
  iterate (quotedRound inner stop) inner.rounds (.empty (← here))

/-- Parts in double quotes.  The part starts at `pos`, which with `dollar` is in front of the
quote. -/
def doubleQuoted (inner : Inner) (pos : Position) (dollar : Bool) : Reading Part := do
  let opening ← here
  skip 1
  let parts ← quotedParts inner (some '"')
  if (← current) = some '"' then
    skip 1
    return .double pos parts dollar
  else
    failAt opening (.unclosedQuote "\"")

/-- A text of its own in which only expansions are special. -/
def inlineWord (inner : Inner) (text : List Char) (pos : Position) : Reading Word := do
  let (parts, bodies) ← within text pos (quotedParts inner none)
  return { pos, parts := placeParts bodies parts }

/-- Statements between `opening`, which is two characters long, and a closing parenthesis. -/
def substituted (inner : Inner) (opening : String) : Reading (List Item) := do
  let pos ← here
  skip 2
  let items ← inner.statements [")"]
  if (← current) = some ')' then
    skip 1
    return items
  else
    failAt pos (.unclosed opening ")")

end Reading
end RecipeLint
