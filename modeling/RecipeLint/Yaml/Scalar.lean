import RecipeLint.Text.Number
import RecipeLint.Yaml.Error

/-!
# Scalars of configuration files

A scalar is written plainly or between quotation marks, and may go on over several lines: a single
line end inside it stands for a space, and of several the first one for nothing.  The readers of
this module work on a `Spot`, a place in the text with its line and column.
-/

namespace RecipeLint.Yaml

def isBreak (c : Char) : Bool :=
  c = '\n' || c = '\r' || c = '\x85' || c = '\u2028' || c = '\u2029'

def isGap : Option Char → Bool
  | none => true
  | some c => c = ' ' || c = '\t' || isBreak c

/-- Whether the characters may stand in a configuration file. -/
def isAdmitted (c : Char) : Bool :=
  let code := c.toNat
  code = 0x9 || code = 0xa || code = 0xd || (0x20 ≤ code && code ≤ 0x7e) || code = 0x85 ||
    (0xa0 ≤ code && code ≤ 0xfffd) || 0x10000 ≤ code

structure Spot where
  rest : List Char
  index : Nat := 0
  line : Nat := 0
  column : Nat := 0
deriving Repr

namespace Spot

def current (spot : Spot) : Option Char :=
  spot.rest.head?

def peek (spot : Spot) (count : Nat) : Option Char :=
  spot.rest[count]?

def next (spot : Spot) : Spot :=
  match spot.rest with
  | [] => spot
  | c :: rest =>
      if isBreak c then { rest, index := spot.index + 1, line := spot.line + 1, column := 0 }
      else if c = '\ufeff' then { spot with rest, index := spot.index + 1 }
      else { spot with rest, index := spot.index + 1, column := spot.column + 1 }

def advance (spot : Spot) : Nat → Spot
  | 0 => spot
  | count + 1 => spot.next.advance count

def skipWhile (spot : Spot) (condition : Char → Bool) : Spot :=
  spot.advance (spot.rest.takeWhile condition).length

def atMarker (spot : Spot) : Bool :=
  let mark := spot.rest.take 3
  (mark = ['-', '-', '-'] || mark = ['.', '.', '.']) && isGap (spot.peek 3)

/-- What a line end at this place stands for in a scalar, and the place behind it. -/
def lineBreak? (spot : Spot) : Option (Char × Spot) :=
  match spot.current with
  | some c =>
      if !isBreak c then none
      else if c = '\u2028' || c = '\u2029' then some (c, spot.next)
      else some ('\n', spot.next)
  | none => none

end Spot

/-- What the first line end and those behind it stand for. -/
def folded (first : Char) (others : List Char) : List Char :=
  if first ≠ '\n' then first :: others
  else if others.isEmpty then [' ']
  else others

namespace Quoted

/-- What a part of a quoted scalar stands for and the place behind it. -/
abbrev Reading := Except LoadError (List Char × Spot)

/-- Passes over the blanks and line ends behind a line end inside quotation marks and gives what the
line ends stand for; no document marker may come in between. -/
def breaks : Nat → Spot → Reading
  | 0, _ => .error .malformed
  | fuel + 1, spot =>
      if spot.atMarker then .error .malformed
      else
        let spot := spot.skipWhile fun c => c = ' ' || c = '\t'
        match spot.lineBreak? with
        | none => .ok ([], spot)
        | some (c, spot) => (breaks fuel spot).map fun (others, spot) => (c :: others, spot)

/-- The characters that single letters behind a backslash stand for. -/
def escapes : List (Char × Char) :=
  [('0', '\x00'), ('a', '\x07'), ('b', '\x08'), ('t', '\t'), ('\t', '\t'), ('n', '\n'),
    ('v', '\x0b'), ('f', '\x0c'), ('r', '\r'), ('e', '\x1b'), (' ', ' '), ('"', '"'),
    ('\\', '\\'), ('/', '/'), ('N', '\x85'), ('_', '\xa0'), ('L', '\u2028'), ('P', '\u2029')]

def codeLength? : Char → Option Nat
  | 'x' => some 2
  | 'u' => some 4
  | 'U' => some 8
  | _ => none

/-- The character of a number.  Numbers between those of characters have a replacement, while beyond
the last character there is none. -/
def character (code : Nat) : Except LoadError Char :=
  if 0x10ffff < code then .error (.scalar .noCharacter)
  else if code.isValidChar then .ok (Char.ofNat code)
  else .ok '\ufffd'

/-- What an escape stands for, the spot being behind its backslash. -/
def escape (fuel : Nat) (spot : Spot) : Reading :=
  match spot.current with
  | none => .error .malformed
  | some c =>
      match escapes.lookup c, codeLength? c with
      | some replacement, _ => .ok ([replacement], spot.next)
      | none, some length =>
          let digits := spot.next.rest.take length
          match digits.mapM Text.hexDigit? with
          | none => .error .malformed
          | some values =>
              if digits.length < length then .error .malformed
              else do
                let c ← character (values.foldl (fun code digit => 16 * code + digit) 0)
                .ok ([c], spot.next.advance length)
      | none, none =>
          match spot.lineBreak? with
          | some (_, spot) => breaks fuel spot
          | none => .error .malformed

/-- What the white space at a place stands for: itself if no line ends in it. -/
def spaces (fuel : Nat) (spot : Spot) : Reading :=
  let blanks := spot.rest.takeWhile fun c => c = ' ' || c = '\t'
  let spot := spot.advance blanks.length
  match spot.lineBreak? with
  | none => .ok (blanks, spot)
  | some (first, spot) =>
      (breaks fuel spot).map fun (others, spot) => (folded first others, spot)

/-- Reads a quoted scalar behind its opening mark up to its closing mark, behind what is already
`found` in reverse. -/
def readFrom (mark : Char) : Nat → List Char → Spot → Reading
  | 0, _, _ => .error .malformed
  | fuel + 1, found, spot =>
      match spot.rest with
      | [] => .error .malformed
      | c :: after =>
          if c = mark then
            if mark = '\'' && after.head? = some '\'' then
              readFrom mark fuel ('\'' :: found) (spot.advance 2)
            else
              .ok (found.reverse, spot.next)
          else do
            let (chars, spot) ←
              if c = '\\' && mark = '"' then escape fuel spot.next
              else if isGap (some c) then spaces fuel spot
              else .ok ([c], spot.next)
            readFrom mark fuel (chars.reverse ++ found) spot

def read (mark : Char) (spot : Spot) : Reading :=
  readFrom mark (spot.rest.length + 1) [] spot.next

end Quoted

structure PlainScalar where
  text : List Char
  atLineEnd : Bool
  /-- The place behind it and the white space that follows it. -/
  spot : Spot

namespace PlainScalar

/-- The number of characters up to the end of a run of a plain scalar. -/
def run (inFlow : Bool) : List Char → Nat
  | [] => 0
  | c :: rest =>
      let next := rest.head?
      let ends := isGap (some c) ||
        (c = ':' && (isGap next || (inFlow && next.any (",[]\x7b\x7d".toList.contains ·)))) ||
        (inFlow && ",?[]\x7b\x7d".toList.contains c)
      if ends then 0 else run inFlow rest + 1

/-- Passes over spaces and line ends and gives what the line ends stand for, nothing being given if
a document marker comes in between. -/
def breaks : Nat → List Char → Spot → Option (List Char) × Spot
  | 0, found, spot => (some found.reverse, spot)
  | fuel + 1, found, spot =>
      if spot.atMarker && spot.column = 0 then (none, spot)
      else
        let spot := spot.skipWhile (· = ' ')
        match spot.lineBreak? with
        | none => (some found.reverse, spot)
        | some (c, spot) => breaks fuel (c :: found) spot

/-- What the white space behind a run stands for, with whether a line ends in it. -/
def spaces (spot : Spot) : List Char × Bool × Spot :=
  let blanks := spot.rest.takeWhile (· = ' ')
  let spot := spot.advance blanks.length
  match spot.lineBreak? with
  | none => (blanks, false, spot)
  | some (first, spot) =>
      match breaks (spot.rest.length + 1) [] spot with
      | (some others, spot) => (folded first others, true, spot)
      | (none, spot) => ([], true, spot)

/-- Reads the runs of a plain scalar, `found` being what was read before and `gap` the white space
in front of the next run. -/
def readFrom (inFlow : Bool) (indent : Int) :
    Nat → List Char → List Char → Bool → Spot → PlainScalar
  | 0, found, _, atLineEnd, spot => { text := found, atLineEnd, spot }
  | fuel + 1, found, gap, atLineEnd, spot =>
      let length := run inFlow spot.rest
      if spot.current = some '#' || length = 0 then
        { text := found, atLineEnd, spot }
      else
        let found := found ++ gap ++ spot.rest.take length
        let (gap, lineEnd, spot) := spaces (spot.advance length)
        if gap.isEmpty || spot.current = some '#' || (!inFlow && (spot.column : Int) < indent) then
          { text := found, atLineEnd := lineEnd, spot }
        else
          readFrom inFlow indent fuel found gap lineEnd spot

def read (inFlow : Bool) (indent : Int) (spot : Spot) : PlainScalar :=
  readFrom inFlow indent (spot.rest.length + 1) [] [] false spot

end PlainScalar
end RecipeLint.Yaml
