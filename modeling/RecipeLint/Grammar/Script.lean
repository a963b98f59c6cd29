import RecipeLint.Grammar.Compound

/-!
# Scripts

Pipelines, lists of statements, and whole scripts.  `Inner.level` ties the productions of all levels
together: at each level they call those of the level below, and at the lowest one every construct is
too deep.  `Script.parse` reads a text with enough rounds for every loop, within any limit on the
levels.
-/

namespace RecipeLint

/-- How many levels constructs may lie in each other.  With fewer than two no expansion could be
read in a word. -/
structure NestingLimit where
  levels : Nat
  two_le_levels : 2 ≤ levels

namespace NestingLimit

def usual : NestingLimit where
  levels := 1000
  two_le_levels := by decide

theorem levels_eq (limit : NestingLimit) : ∃ depth, limit.levels = depth + 2 :=
  Nat.exists_eq_add_of_le' limit.two_le_levels

end NestingLimit

namespace Reading

/-- A statement that joins two others, which starts where the first one does. -/
def joined (connective : Connective) (left right : Stmt) : Stmt :=
  .ofDraft left.pos (some (.binary left.pos connective left right)) []

/-- Reads a connective, which is at the cursor, and what it joins to the left statement. -/
def join (inner : Inner) (left : Stmt) (connective : Connective) (right : Reading Stmt) :
    Reading (Round Stmt Stmt) := do
  skip connective.text.length
  linebreaks inner
  return .again (joined connective left (← right))

def pipelineRound (inner : Inner) (left : Stmt) : Reading (Round Stmt Stmt) := do
  skipBlanks
  match Connective.pipe? (← rest) with
  | some connective => join inner left connective (command inner)
  | none => return .done left

def pipes (inner : Inner) : Reading Stmt := do
  iterate (pipelineRound inner) inner.rounds (← command inner)

/-- Commands joined by pipes, negated as a whole if an exclamation mark precedes. -/
def pipeline (inner : Inner) : Reading Stmt := do
  skipBlanks
  let pos ← here
  if negates (← rest) then
    skip 1
    return { ← pipes inner with negated := true, pos }
  else
    pipes inner

def logicRound (inner : Inner) (left : Stmt) : Reading (Round Stmt Stmt) := do
  skipBlanks
  match Connective.logical? (← rest) with
  | some connective => join inner left connective (pipeline inner)
  | none => return .done left

def logic (inner : Inner) : Reading Stmt := do
  iterate (logicRound inner) inner.rounds (← pipeline inner)

/-- Adds the comments met between tokens to a list of statements, whose last element comes first. -/
def takeComments (items : List Item) : Reading (List Item) := do
  let comments := (← get).comments
  modify fun state => { state with comments := [] }
  return (comments.map Item.comment).reverse ++ items

/-- What ends a statement: whether the statement runs in the background. -/
def statementEnd : Reading Bool := do
  skipBlanks
  if closesCaseItem (← rest) then
    return false
  else
    match ← current with
    | none | some '\n' | some '#' | some ')' => return false
    | some ';' =>
        skip 1
        return false
    | some '&' =>
        skip 1
        return true
    | some c =>
        if (← wordAt? listTerminators).isNone then
          fail (.unexpected c)
        else
          return false

def statement (inner : Inner) (items : List Item) : Reading (List Item) := do
  let stmt ← logic inner
  let comments ← takeComments []
  let background ← statementEnd
  return comments ++ .stmt { stmt with background } :: items

/-- One round of reading a list of statements up to one of `stops`; the last element comes first. -/
def statementRound (inner : Inner) (stops : List String) (items : List Item) :
    Reading (Round (List Item) (List Item)) := do
  skipBlanks
  let items ← takeComments items
  if closesCaseItem (← rest) then
    return .done items.reverse
  else
    match ← current with
    | none => return .done items.reverse
    | some '\n' =>
        newline inner
        return .again items
    | some '#' =>
        let comment ← comment
        return .again (.comment comment :: items)
    | some ')' =>
        if stops.contains ")" then
          return .done items.reverse
        else
          fail (.unexpected ')')
    | some _ =>
        match ← wordAt? listTerminators with
        | some word =>
            if stops.contains word then
              return .done items.reverse
            else
              fail (.unexpectedWord word)
        | none => return .again (← statement inner items)

def statements (inner : Inner) (stops : List String) : Reading (List Item) :=
  iterate (statementRound inner stops) inner.rounds []

end Reading

namespace Inner

/-- The productions of the level that has the given one inside it. -/
def around (inner : Inner) : Inner where
  rounds := inner.rounds
  statements := Reading.statements inner
  command := Reading.command inner
  furtherConditional := Reading.conditional inner "elif"
  expansion := Reading.expansion inner

/-- The level at which every construct lies too deep. -/
def tooDeep (rounds : Nat) : Inner where
  rounds
  statements _ := Reading.fail .tooDeep
  command := Reading.fail .tooDeep
  furtherConditional := Reading.fail .tooDeep
  expansion _ := Reading.fail .tooDeep

/-- The productions that have the given number of levels inside them. -/
def level (rounds : Nat) : Nat → Inner
  | 0 => tooDeep rounds
  | depth + 1 => around (level rounds depth)

end Inner

namespace Script

/-- Reads a whole text as statements, with loops of at most `rounds` rounds and at most `depth`
levels of constructs in each other. -/
def readItems (rounds depth : Nat) : Reading (List Item) := do
  let items ← (Inner.level rounds depth).statements []
  match ← Reading.current with
  | none => return items
  | some c => Reading.fail (.unexpected c)

/-- Reads a text as a script of the given name, within bounds on rounds and depth. -/
def parseWithin (rounds depth : Nat) (name : String) (text : List Char) :
    Except ParseError Script := do
  let (items, state) ← readItems rounds depth (.ofText text .start)
  return { name, items := placeItems state.bodies items }

def parse (name : String) (text : List Char) (limit : NestingLimit := .usual) :
    Except ParseError Script :=
  parseWithin (text.length + 1) limit.levels name text

end Script
end RecipeLint
