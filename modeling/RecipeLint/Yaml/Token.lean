import RecipeLint.Yaml.Scalar

/-!
# Tokens of configuration files

The structure of a configuration file follows from the columns in which its tokens stand.  A scanner
turns the text into tokens: scalars and marks as they are written, and besides them tokens for the
start and the end of every block of entries.  That a token is a key becomes known only at the colon
behind it, so the scanner remembers for each level of brackets where a key may have started.
-/

namespace RecipeLint.Yaml

inductive Token where
  | directive (name : List Char) (rest : List Char)
  | documentStart
  | documentEnd
  /-- The start of entries behind hyphens in one column. -/
  | sequenceStart
  /-- The start of keys in one column. -/
  | mappingStart
  /-- The end of entries or keys in one column. -/
  | blockEnd
  | listOpen
  | listClose
  | mapOpen
  | mapClose
  | entry
  | comma
  | key
  | value
  /-- A scalar, `quoted` if it stands between quotation marks. -/
  | scalar (text : List Char) (quoted : Bool)
deriving DecidableEq, Repr

/-- A place at which a key may have started. -/
structure KeyStart where
  tokens : Nat
  /-- Whether nothing but a key can stand there. -/
  required : Bool
  spot : Spot

structure Scanner where
  spot : Spot
  found : List Token := []
  flow : Nat := 0
  /-- The column of the block that is open, or -1. -/
  indent : Int := -1
  /-- The columns of the blocks around it. -/
  outer : List Int := []
  /-- Whether a key may start at the next token. -/
  keyAllowed : Bool := true
  /-- Where keys may have started, with the number of brackets and braces open there. -/
  keys : List (Nat × KeyStart) := []

abbrev Scanning := StateT Scanner (Except LoadError)

namespace Scanning

def fail : Scanning α :=
  fun _ => .error .malformed

def require (condition : Bool) : Scanning Unit :=
  if condition then pure () else fail

def emit (token : Token) : Scanning Unit :=
  modify fun state => { state with found := token :: state.found }

def emitAt (count : Nat) (token : Token) : Scanning Unit :=
  modify fun state =>
    let (later, earlier) := state.found.splitAt (state.found.length - count)
    { state with found := later ++ token :: earlier }

def skip (count : Nat) : Scanning Unit :=
  modify fun state => { state with spot := state.spot.advance count }

def allowKey (allowed : Bool) : Scanning Unit :=
  modify fun state => { state with keyAllowed := allowed }

/-- Forgets where a key may have started on the present level; this fails if one is required
there. -/
def dropKey : Scanning Unit := do
  let state ← get
  match state.keys.lookup state.flow with
  | some start =>
      require !start.required
      set { state with keys := state.keys.filter (·.1 ≠ state.flow) }
  | none => pure ()

/-- Forgets the places that no key can start at any more: a key stands on one line and is at most
1024 characters long. -/
def dropStaleKeys : Scanning Unit := do
  let state ← get
  let isStale (start : KeyStart) : Bool :=
    start.spot.line ≠ state.spot.line || 1024 < state.spot.index - start.spot.index
  require !(state.keys.any fun (_, start) => isStale start && start.required)
  set { state with keys := state.keys.filter fun (_, start) => !isStale start }

def saveKey : Scanning Unit := do
  let state ← get
  if state.keyAllowed then
    dropKey
    let required := state.flow = 0 && state.indent = state.spot.column
    let start := { tokens := state.found.length, required, spot := state.spot }
    modify fun state => { state with keys := (state.flow, start) :: state.keys }

/-- Closes the blocks that lie to the right of a column, at most `fuel` of them. -/
def closeBlocks (column : Int) : Nat → Scanning Unit
  | 0 => pure ()
  | fuel + 1 => do
      let state ← get
      if state.flow = 0 && column < state.indent then
        match state.outer with
        | indent :: outer => set { state with indent, outer, found := .blockEnd :: state.found }
        | [] => set { state with indent := -1, found := .blockEnd :: state.found }
        closeBlocks column fuel

def unwind (column : Int) : Scanning Unit := do
  closeBlocks column ((← get).outer.length + 1)

/-- Opens a block in a column, if it lies to the right of the block that is open. -/
def openBlock (column : Int) : Scanning Bool := do
  let state ← get
  if state.indent < column then
    set { state with indent := column, outer := state.indent :: state.outer }
    return true
  else
    return false

/-- Passes over spaces, comments and line ends up to the next token. -/
def toNextToken : Nat → Scanning Unit
  | 0 => pure ()
  | fuel + 1 => do
      modify fun state =>
        let spot := state.spot.skipWhile (· = ' ')
        let spot := if spot.current = some '#' then spot.skipWhile (!isBreak ·) else spot
        { state with spot }
      let state ← get
      match state.spot.lineBreak? with
      | some (_, spot) =>
          set { state with spot, keyAllowed := state.keyAllowed || state.flow = 0 }
          toNextToken fuel
      | none => pure ()

def endDocument : Scanning Unit := do
  unwind (-1)
  dropKey
  allowKey false

def directive : Scanning Unit := do
  endDocument
  skip 1
  let name := (← get).spot.rest.takeWhile fun c => c.isAlphanum || c = '-' || c = '_'
  require !name.isEmpty
  skip name.length
  let spot := (← get).spot
  require (isGap spot.current && spot.current ≠ some '\t')
  let rest := spot.rest.takeWhile (!isBreak ·)
  skip rest.length
  emit (.directive name rest)

def openFlow (token : Token) : Scanning Unit := do
  saveKey
  modify fun state => { state with flow := state.flow + 1 }
  allowKey true
  skip 1
  emit token

def closeFlow (token : Token) : Scanning Unit := do
  dropKey
  require ((← get).flow ≠ 0)
  modify fun state => { state with flow := state.flow - 1 }
  allowKey false
  skip 1
  emit token

def comma : Scanning Unit := do
  allowKey true
  dropKey
  skip 1
  emit .comma

/-- Opens a block for a mark outside of brackets, where one must be allowed. -/
def blockFor (start : Token) : Scanning Unit := do
  let state ← get
  if state.flow = 0 then
    require state.keyAllowed
    if ← openBlock state.spot.column then
      emit start

def entry : Scanning Unit := do
  blockFor .sequenceStart
  allowKey true
  dropKey
  skip 1
  emit .entry

def key : Scanning Unit := do
  blockFor .mappingStart
  allowKey ((← get).flow = 0)
  dropKey
  skip 1
  emit .key

def value : Scanning Unit := do
  let state ← get
  match state.keys.lookup state.flow with
  | some start =>
      set { state with keys := state.keys.filter (·.1 ≠ state.flow) }
      emitAt start.tokens .key
      if state.flow = 0 then
        if ← openBlock start.spot.column then
          emitAt start.tokens .mappingStart
      allowKey false
  | none =>
      blockFor .mappingStart
      allowKey (state.flow = 0)
      dropKey
  skip 1
  emit .value

def quoted (mark : Char) : Scanning Unit := do
  saveKey
  allowKey false
  let (text, spot) ← Quoted.read mark (← get).spot
  modify fun state => { state with spot }
  emit (.scalar text true)

def plain : Scanning Unit := do
  saveKey
  allowKey false
  let state ← get
  let scalar := PlainScalar.read (state.flow ≠ 0) (state.indent + 1) state.spot
  set { state with spot := scalar.spot, keyAllowed := scalar.atLineEnd }
  emit (.scalar scalar.text false)

def startsPlain (state : Scanner) (c : Char) : Bool :=
  let followed := !isGap (state.spot.peek 1)
  if isGap (some c) then false
  else if c = '-' then followed
  else if c = '?' || c = ':' then followed && state.flow = 0
  else !",[]\x7b\x7d#&*!|>'\"%@\x60".toList.contains c

def token : Scanning Bool := do
  toNextToken ((← get).spot.rest.length + 1)
  dropStaleKeys
  unwind (← get).spot.column
  let state ← get
  let spot := state.spot
  let gapNext := isGap (spot.peek 1)
  let inFlow := state.flow ≠ 0
  match spot.current with
  | none =>
      endDocument
      return true
  | some c =>
      if c = '%' && spot.column = 0 then directive
      else if spot.column = 0 && spot.atMarker then
        endDocument
        skip 3
        emit (if c = '-' then .documentStart else .documentEnd)
      else if c = '[' then openFlow .listOpen
      else if c = '{' then openFlow .mapOpen
      else if c = ']' then closeFlow .listClose
      else if c = '}' then closeFlow .mapClose
      else if c = ',' then comma
      else if c = '-' && gapNext then entry
      else if c = '?' && (inFlow || gapNext) then key
      else if c = ':' && (inFlow || gapNext) then value
      else if c = '\'' || c = '"' then quoted c
      else if startsPlain state c then plain
      else fail
      return false

def tokens : Nat → Scanning Unit
  | 0 => fail
  | fuel + 1 => do
      if ← token then
        pure ()
      else
        tokens fuel

end Scanning

def Token.scan (text : List Char) : Except LoadError (List Token) :=
  let text := if text.head? = some '\ufeff' then text.drop 1 else text
  let start : Scanner := { spot := { rest := text } }
  ((Scanning.tokens (text.length + 1)).run start).map fun (_, state) => state.found.reverse

end RecipeLint.Yaml
