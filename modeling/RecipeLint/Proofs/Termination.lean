import RecipeLint.Proofs.Tracking.Commands
import RecipeLint.Proofs.Whole

/-!
# Reading ends

A text is read with bounds on the rounds of loops and on the depth of constructs.  Every round of a
loop that asks for another one leaves less to read, and every text that is read on its own is
shorter than the text around it.  So with more rounds than characters and two levels more, no bound
is reached, and larger bounds change nothing. -/

namespace RecipeLint

/-! ## Loops and texts of their own -/

/-- Every round of a loop that asks for another one leaves less to read. -/
def Reading.Shrinks {α β : Type} (step : α → Reading (Round α β)) : Prop :=
  ∀ value state next after, step value state = .ok (.again next, after) →
    after.cursor.rest.length < state.cursor.rest.length

theorem Reading.Moves.shrinks {α β : Type} {step : α → Reading (Round α β)}
    {done : α → β → List Char → Prop}
    (moves : ∀ value state, Moves (Turn (· ≠ []) (done value)) state (step value state)) :
    Shrinks step :=
  fun value state _ _ run => Moves.shorter (moves value state) run

open Reading in
/-- Every loop of a level shrinks. -/
structure Inner.Shrinking (inner : Inner) : Prop where
  quotedParts : ∀ stop, Shrinks (quotedRound inner stop)
  arithmetic : ∀ opening closing, Shrinks (arithmeticRound inner opening closing)
  operand : ∀ stops, Shrinks (operandRound inner stops)
  word : Shrinks (wordRound inner wordDelimiters)
  testWord : Shrinks (wordRound inner testDelimiters)
  hereDoc : ∀ awaited, Shrinks (hereDocRound awaited)
  linebreaks : Shrinks (linebreakRound inner)
  elements : Shrinks (elementRound inner)
  declaration : Shrinks (declarationRound inner)
  evaluation : Shrinks (evaluationRound inner)
  call : ∀ pos, Shrinks (callRound inner pos)
  range : Shrinks (rangeRound inner)
  patterns : Shrinks (patternRound inner)
  caseItems : Shrinks (caseRound inner)
  test : Shrinks (testRound inner)
  redirects : Shrinks (redirectRound inner)
  pipeline : Shrinks (pipelineRound inner)
  logic : Shrinks (logicRound inner)
  statements : ∀ stops, Shrinks (statementRound inner stops)

open Reading in
theorem Inner.Moving.shrinking {inner : Inner} (moving : inner.Moving) : inner.Shrinking where
  quotedParts stop := Moves.shrinks fun pieces state => quotedRound_moves moving state stop pieces
  arithmetic opening closing :=
    Moves.shrinks fun nested state => arithmeticRound_moves moving state opening closing nested
  operand stops := Moves.shrinks fun nested state => operandRound_moves moving state stops nested
  word := Moves.shrinks fun pieces state => (wordRound_moves moving state (by decide) pieces).filled
  testWord := Moves.shrinks fun pieces state =>
    (wordRound_moves moving state (by decide) pieces).filled
  hereDoc awaited := Moves.shrinks fun value state => hereDocRound_moves state awaited value
  linebreaks := Moves.shrinks fun value state => linebreakRound_moves state value
  elements := Moves.shrinks fun elements state => (elementRound_moves moving state elements).filled
  declaration := Moves.shrinks fun draft state => (declarationRound_moves moving state draft).filled
  evaluation := Moves.shrinks fun draft state => (evaluationRound_moves moving state draft).filled
  call pos := Moves.shrinks fun draft state => (callRound_moves moving state pos draft).filled
  range := Moves.shrinks fun items state => (rangeRound_moves moving state items).filled
  patterns := Moves.shrinks fun patterns state => (patternRound_moves moving state patterns).filled
  caseItems := Moves.shrinks fun items state => caseRound_moves moving state items
  test := Moves.shrinks fun words state => testRound_moves moving state words
  redirects := Moves.shrinks fun redirects state =>
    (redirectRound_moves moving state redirects).filled
  pipeline := Moves.shrinks fun left state => (pipelineRound_moves moving state left).filled
  logic := Moves.shrinks fun left state => (logicRound_moves moving state left).filled
  statements stops := Moves.shrinks fun items state => statementRound_moves moving state stops items

/-- The texts that are read on their own are shorter than what they are taken from: the inside of
backquotes, the index of a parameter or of an assignment, and the lines of a here-document behind
the newline in front of them. -/
structure Subtexts (text : List Char) : Prop where
  backquoted : ∀ inside length, backquoteText? [] 0 text = some (inside, length) →
    inside.length < text.length
  index : ∀ length, bracketEnd? '[' ']' 0 1 text = some length →
    (text.take length).length < text.length
  assignIndex : ∀ head index, AssignHead.of? text = some head → head.index = some index →
    index.length < text.length
  hereDoc : ∀ awaited : Awaited, (awaited.lines text).1.length < ('\n' :: text).length

theorem subtexts (text : List Char) : Subtexts text where
  backquoted inside length found := by
    obtain ⟨count, -, closed, short⟩ := backquoteText?_found found
    have fits := (List.getElem?_eq_some_iff.mp closed).1
    simp only [List.length_nil, Nat.zero_add] at short
    omega
  index length found := by
    obtain ⟨count, rfl, closed⟩ := bracketEnd?_found (by decide) found
    have fits := (List.getElem?_eq_some_iff.mp closed).1
    simp only [List.length_take]
    omega
  assignIndex head index found indexed := by
    obtain ⟨rest, whole⟩ := (AssignHead.starts_of_of? found).written
    have lengths := congrArg List.length whole
    simp only [AssignHead.text, AssignHead.indexText, indexed, Option.map_some, Option.getD_some,
      List.length_append, List.length_cons] at lengths
    omega
  hereDoc awaited := by
    obtain ⟨rest, whole⟩ := awaited.lines_front text
    have lengths := congrArg List.length whole
    simp only [List.length_append] at lengths
    simp only [List.length_cons]
    omega

/-! ## Enough rounds and levels -/

namespace Bounds

variable {bounds : Bounds}

/-- No bound is reached. -/
def unreached : Bounds where
  both _ := False
  alone _ := False

/-- The first run may find that constructs lie too deep, and reaches no other bound. -/
def shallow : Bounds where
  both _ := False
  alone := (· = .tooDeep)

/-- With nothing left to read, two levels of any kind have nothing to differ in. -/
theorem twins_zero {inner inner' : Inner} (moving : inner.Moving)
    (rounds : Tracks.Rounds bounds 0 inner.rounds inner'.rounds) :
    bounds.Twins 0 inner.around inner'.around where
  moving := moving.around
  rounds := rounds
  statements _ none := absurd none (Nat.not_lt_zero _)
  command _ none := absurd none (Nat.not_lt_zero _)
  furtherConditional _ none := absurd none (Nat.not_lt_zero _)
  expansion quoted := by
    refine .here fun _ => .rest fun text _ short => ?_
    obtain rfl := List.length_eq_zero_iff.mp (Nat.le_zero.mp short)
    exact .pure none

theorem Tracks.Rounds.level {bounds : Bounds} {size rounds rounds' : Nat}
    (enough : size < rounds ∧ size < rounds') (depth depth' : Nat) :
    Tracks.Rounds bounds size (Inner.level rounds depth).rounds
      (Inner.level rounds' depth').rounds := by
  rw [Inner.level_rounds, Inner.level_rounds]
  exact .inr enough

/-- Levels that are deep enough for the text track each other and reach no bound. -/
theorem level_unreached {rounds rounds' size depth₁ depth₂ : Nat}
    (enough : size < rounds ∧ size < rounds') (deep : size < depth₁) (deep' : size < depth₂) :
    unreached.Twins size (Inner.level rounds depth₁) (Inner.level rounds' depth₂) := by
  induction size generalizing depth₁ depth₂ with
  | zero =>
      obtain ⟨depth₁, rfl⟩ := Nat.exists_eq_add_one_of_ne_zero (Nat.ne_of_gt deep)
      obtain ⟨depth₂, rfl⟩ := Nat.exists_eq_add_one_of_ne_zero (Nat.ne_of_gt deep')
      exact twins_zero (Inner.level_moving rounds depth₁) (.level enough _ _)
  | succ size ih =>
      obtain ⟨depth₁, rfl⟩ : ∃ depth, depth₁ = depth + 1 := ⟨depth₁ - 1, by omega⟩
      obtain ⟨depth₂, rfl⟩ : ∃ depth, depth₂ = depth + 1 := ⟨depth₂ - 1, by omega⟩
      have inside := @ih depth₁ depth₂ (by omega) (by omega) (by omega)
      exact inside.around (.level enough _ _)

/-- Levels that are deeper track those that are less deep, unless constructs lie too deep for
these. -/
theorem level_shallow {rounds rounds' size depth₁ depth₂ : Nat}
    (enough : size < rounds ∧ size < rounds') (deeper : depth₁ ≤ depth₂) :
    shallow.Twins size (Inner.level rounds depth₁) (Inner.level rounds' depth₂) := by
  induction depth₁ generalizing size depth₂ with
  | zero =>
      have refused {α : Type} {kind : List Char → Prop} {size : Nat} {second : Reading α} :
          shallow.Tracks kind size (Reading.fail .tooDeep) second :=
        fun _ _ _ _ => .inl rfl
      exact ⟨Inner.level_moving rounds 0, .level enough _ _, fun _ _ _ => refused,
        fun _ _ => refused,
        fun _ _ => refused, fun _ => refused⟩
  | succ depth₁ ih =>
      obtain ⟨depth₂, rfl⟩ : ∃ depth, depth₂ = depth + 1 := ⟨depth₂ - 1, by omega⟩
      cases size with
      | zero => exact twins_zero (Inner.level_moving rounds depth₁) (.level enough _ _)
      | succ size =>
          have inside := @ih size depth₂ (by omega) (by omega)
          exact inside.around (.level enough _ _)

/-- Every bound is reached by both runs or by none. -/
def equal : Bounds where
  both _ := True
  alone _ := False

/-- A level tracks itself, whatever here-documents have been read before. -/
theorem level_equal (rounds size depth : Nat) :
    equal.Twins size (Inner.level rounds depth) (Inner.level rounds depth) := by
  have same {size depth : Nat} : Tracks.Rounds equal size (Inner.level rounds depth).rounds
      (Inner.level rounds depth).rounds := .inl ⟨rfl, trivial⟩
  induction depth generalizing size with
  | zero =>
      have refused {α : Type} {kind : List Char → Prop} {size : Nat} :
          equal.Tracks kind size (Reading.fail .tooDeep : Reading α) (Reading.fail .tooDeep) :=
        fun _ _ _ _ => .inr ⟨fun _ => trivial, rfl⟩
      exact ⟨Inner.level_moving rounds 0, same, fun _ _ _ => refused, fun _ _ => refused,
        fun _ _ => refused, fun _ => refused⟩
  | succ depth ih =>
      cases size with
      | zero => exact twins_zero (Inner.level_moving rounds depth) same
      | succ size => exact (ih size).around same

/-- Here-documents read before do not change how statements are read. -/
theorem iterate_knowing (rounds depth left : Nat) (stops : List String) (items : List Item)
    (state : ReadState) (spare : Bodies) :
    Reading.iterate (Reading.statementRound (Inner.level rounds depth) stops) left items
        (state.knowing spare) =
      (Reading.iterate (Reading.statementRound (Inner.level rounds depth) stops)
        left items state).map
        (Prod.map id (·.knowing spare)) := by
  have twins := level_equal rounds state.cursor.rest.length depth
  have tracks : equal.TracksAll state.cursor.rest.length _ _ :=
    Tracks.iterate (statementRound_tracks twins stops)
      (fun items state => Reading.statementRound_moves twins.moving state stops items)
      (.inl ⟨rfl, trivial⟩ : Tracks.Rounds equal _ left left) items
  have matched := tracks spare state trivial (Nat.le_refl _)
  match run : Reading.iterate (Reading.statementRound (Inner.level rounds depth) stops) left items
      state, matched with
  | .ok (result, after), ⟨_, same⟩ | .error error, .inr ⟨_, same⟩ => exact same

end Bounds

namespace Script

/-- Reading has not stopped because of a bound on rounds or depth. -/
def Decided : Except ParseError Script → Prop
  | .ok _ => True
  | .error error => error.cause.isBound = false

/-- What is concluded from runs of which the second tracks the first. -/
theorem conclude_matches {bounds : Bounds} (never : ∀ cause, ¬bounds.both cause) {name : String}
    {left : Nat} {first second : Reading.Outcome (List Item)}
    (matched : bounds.Matches left [] first second) :
    (conclude name second = conclude name first ∧ Decided (conclude name first)) ∨
      ∃ error, bounds.alone error.cause ∧ conclude name first = .error error := by
  match first, matched with
  | .ok (items, after), ⟨_, same⟩ =>
      rw [same, ReadState.knowing_nil]
      refine .inl ⟨rfl, ?_⟩
      simp only [conclude]
      cases after.cursor.rest.head? with
      | none => trivial
      | some c => exact rfl
  | .error error, .inl alone => exact .inr ⟨error, alone, rfl⟩
  | .error error, .inr ⟨both, same⟩ =>
      have free : error.cause.isBound = false := by
        rw [← Bool.not_eq_true]
        exact fun bound => never _ (both bound)
      rw [same]
      exact .inl ⟨rfl, free⟩

/-- The outcomes of reading a text within two pairs of bounds. -/
theorem parseWithin_matches {bounds : Bounds} {name : String} {text : List Char}
    (never : ∀ cause, ¬bounds.both cause) {rounds rounds' depth depth' : Nat}
    (twins : bounds.Twins text.length (Inner.level rounds depth) (Inner.level rounds' depth')) :
    (parseWithin rounds' (depth' + 1) name text = parseWithin rounds (depth + 1) name text ∧
        Decided (parseWithin rounds (depth + 1) name text)) ∨
      ∃ error, bounds.alone error.cause ∧
        parseWithin rounds (depth + 1) name text = .error error := by
  rw [parseWithin_eq_conclude, parseWithin_eq_conclude]
  have tracks : bounds.TracksAll text.length _ _ := Bounds.statements_tracks twins []
  have matched := tracks [] (.ofText text .start) trivial (Nat.le_refl _)
  rw [ReadState.knowing_nil] at matched
  exact conclude_matches never matched

/-- Reading ends on every text.  Every loop leaves less to read from round to round, at every level,
and what is read on its own is shorter than the text around it.  With more rounds than characters
and two levels more no bound is reached, whatever more is allowed for; reading within any limit of
levels comes to the same outcome unless constructs lie too deep for that limit. -/
theorem parse_ends (name : String) (text : List Char) :
    (∀ rounds depth, (Inner.level rounds depth).Shrinking) ∧ (∀ part, Subtexts part) ∧
    ∃ outcome, Decided outcome ∧
      (∀ more deeper,
        parseWithin (text.length + 1 + more) (text.length + 2 + deeper) name text = outcome) ∧
      ∀ limit, parse name text limit = outcome ∨
        ∃ pos, parse name text limit = .error ⟨.tooDeep, pos⟩ := by
  have deep (more deeper : Nat) :
      parseWithin (text.length + 1 + more) (text.length + 2 + deeper) name text =
          parseWithin (text.length + 1) (text.length + 2) name text ∧
        Decided (parseWithin (text.length + 1) (text.length + 2) name text) := by
    have twins : Bounds.unreached.Twins text.length
        (Inner.level (text.length + 1) (text.length + 1))
        (Inner.level (text.length + 1 + more) (text.length + 1 + deeper)) :=
      Bounds.level_unreached (by omega) (by omega) (by omega)
    rw [show text.length + 2 + deeper = text.length + 1 + deeper + 1 by omega]
    exact (parseWithin_matches (fun _ => id) twins).resolve_right fun ⟨_, alone, _⟩ => alone
  refine ⟨fun rounds depth => (Inner.level_moving rounds depth).shrinking, subtexts,
    _, (deep 0 0).2, fun more deeper => (deep more deeper).1, fun limit => ?_⟩
  obtain ⟨depth, levels⟩ := limit.levels_eq
  have twins : Bounds.shallow.Twins text.length (Inner.level (text.length + 1) (depth + 1))
      (Inner.level (text.length + 1) (text.length + 1 + (depth + 1))) :=
    Bounds.level_shallow (by omega) (by omega)
  rw [parse, levels]
  rcases parseWithin_matches (fun _ => id) twins with ⟨same, -⟩ | ⟨⟨_, pos⟩, rfl, tooDeep⟩
  · refine .inl (same.symm.trans ?_)
    rw [← (deep 0 (depth + 1)).1]
    congr 1
    omega
  · exact .inr ⟨pos, tooDeep⟩

end Script
end RecipeLint
