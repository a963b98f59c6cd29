import RecipeLint.Proofs.Lookahead
import RecipeLint.Proofs.Progress.Commands
import RecipeLint.Proofs.Recast

/-!
# Two readings of almost the same text

Two texts that agree up to a mark are read side by side.  The readings stay together while they are
in front of the mark; behind it they may be together again, or the first one may have run over the
mark in a way that says nothing about the second.  A `Seam` fixes the mark, what may follow it on
both sides, and the changes that turn what the first reading returns into what the second one
returns.  `Follows` is the relation between their outcomes.  Its rules mirror the ways in which
readings are put together, so the productions of the grammar are followed once for all seams.
-/

namespace RecipeLint

/-- Where two readings stand to each other. -/
inductive Phase where
  /-- In front of the mark. -/
  | before
  /-- In a text of its own that lies in front of the mark. -/
  | inside
  /-- Together again, in front of the same text. -/
  | after
  /-- The first reading is behind the mark and the second one is not followed. -/
  | lost
deriving DecidableEq

/-- How two readings go on. -/
inductive Phase.Leads : Phase → Phase → Prop where
  | stay (phase : Phase) : Leads phase phase
  | resume : Leads before after
  | lose : Leads before lost

/-- The phase in which a text of its own is read. -/
def Phase.within : Phase → Phase
  | .before => .inside
  | phase => phase

namespace Phase

@[simp]
theorem within_ne_before (phase : Phase) : phase.within ≠ .before := by
  cases phase <;> decide

theorem within_eq_lost {phase : Phase} : phase.within = .lost ↔ phase = .lost := by
  cases phase <;> decide

/-- Nothing changes while a text of its own is read. -/
theorem Leads.eq_of_within {first second : Phase} (leads : Leads first.within second) :
    second = first.within := by
  generalize entered : first.within = entry at leads
  cases leads with
  | stay => rfl
  | resume | lose => exact absurd entered first.within_ne_before

end Phase

namespace Phase.Leads

variable {first second third : Phase}

theorem trans (earlier : Leads first second) (later : Leads second third) : Leads first third := by
  cases earlier with
  | stay => exact later
  | resume =>
      cases later
      exact .resume
  | lose =>
      cases later
      exact .lose

theorem ne_lost (leads : Leads first second) (kept : second ≠ lost) : first ≠ lost := by
  rintro rfl
  cases leads
  exact kept rfl

theorem of_after (leads : Leads after second) : second = after := by
  cases leads
  rfl

end Phase.Leads

/-- The positions of a text under a change: each goes to the position of the other text, and none of
them is one at which braces are lost. -/
def Change.Along (change : Change) : List Char → Position → Position → Prop
  | [], first, second => change.place first = second
  | c :: text, first, second =>
      change.place first = second ∧ change.unbraced first = false ∧
        change.Along text (first.after c) (second.after c)

namespace Change.Along

variable {change : Change} {text : List Char} {first second : Position}

theorem place (along : change.Along text first second) : change.place first = second := by
  cases text with
  | nil => exact along
  | cons c text => exact along.1

theorem drop (along : change.Along text first second) (count : Nat) :
    change.Along (text.drop count) (first.along (text.take count))
      (second.along (text.take count)) := by
  induction count generalizing text first second with
  | zero => exact along
  | succ count ih =>
      cases text with
      | nil => exact along
      | cons c text => exact ih along.2.2

theorem take (along : change.Along text first second) (count : Nat) :
    change.Along (text.take count) first second := by
  induction count generalizing text first second with
  | zero => exact along.place
  | succ count ih =>
      cases text with
      | nil => exact along
      | cons c text => exact ⟨along.1, along.2.1, ih along.2.2⟩

end Change.Along

/-- A change that treats all positions alike. -/
structure Change.Uniform (change : Change) : Prop where
  after : ∀ position c, change.place (position.after c) = (change.place position).after c
  braces : ∀ position, change.unbraced position = false

theorem Change.Uniform.along {change : Change} (uniform : change.Uniform) (text : List Char)
    {first second : Position} (same : change.place first = second) :
    change.Along text first second := by
  induction text generalizing first second with
  | nil => exact same
  | cons c text ih => exact ⟨same, uniform.braces first, ih (by rw [uniform.after, same])⟩

/-- Two texts that agree up to a mark, and what is known about reading them. -/
structure Seam where
  /-- The rounds that loops of the first reading may take. -/
  rounds : Nat
  /-- The rounds that loops of the second reading may take. -/
  rounds' : Nat
  /-- The character that ends the common front. -/
  mark : Char
  /-- The changes from what the first reading returns to what the second one returns. -/
  changes : Phase → Change → Prop
  /-- What is known about the texts that the first reading has in front of it. -/
  text : Phase → List Char → Prop
  /-- What follows the common front in both texts, and the position of the mark in the first. -/
  joint : List Char → List Char → Position → Prop
  /-- What is known about here-documents that wait for their lines. -/
  awaits : Awaited → Prop
  marked : mark = '$' ∨ mark = '\n'
  joint_mark : ∀ {first second position}, joint first second position →
    (∃ rest, first = mark :: rest) ∧ ∃ rest, second = mark :: rest
  some_change : ∀ phase, ∃ change, changes phase change
  changes_inside : ∀ {change}, changes .inside change ↔ changes .before change
  changes_leads : ∀ {first second change}, Phase.Leads first second → changes second change →
    changes first change
  text_drop : ∀ {phase text'} count, text phase text' → text phase (text'.drop count)
  text_take : ∀ {phase text'} count, text phase text' → text phase (text'.take count)
  text_inside : ∀ {text'}, text .before text' → text .inside text'
  text_crossed : ∀ {first second position} count, joint first second position →
    text .before first → text .lost (first.drop (count + 1))
  along_crossed : ∀ {first second position change} count, joint first second position →
    changes .lost change →
      change.Along (first.drop (count + 1)) (position.along (first.take (count + 1)))
        (position.along (first.take (count + 1)))
  backquotes : ((∀ {phase first second text' inside length},
        (∀ change, changes phase change → change.Along text' first second) →
        backquoteText? [] 0 text' = some (inside, length) →
          ∀ change, changes phase change → change.Along inside first second) ∧
      ∀ {first second position}, joint first second position → '\x60' ∉ first) ∨
    ∀ {phase text'}, text phase text' → '\x60' ∉ text'
  text_unescaped : ∀ {phase text' inside length}, text phase text' →
    backquoteText? [] 0 text' = some (inside, length) → text phase inside

namespace Seam

variable {α β : Type} [Recastable α] [Recastable β] {seam : Seam} {p q : Phase}

theorem changes_within {change : Change} : seam.changes p.within change ↔
    seam.changes p change := by
  cases p with
  | before => exact seam.changes_inside
  | inside | after | lost => exact Iff.rfl

theorem text_within {text : List Char} (known : seam.text p text) : seam.text p.within text := by
  cases p with
  | before => exact seam.text_inside known
  | inside | after | lost => exact known

/-! ## Values -/

/-- Every change of the phase turns the first value into the second one. -/
def Alike (seam : Seam) (p : Phase) (first second : α) : Prop :=
  ∀ change, seam.changes p change → change.on first = second

namespace Alike

theorem leads {first second : α} (alike : seam.Alike p first second) (leads : p.Leads q) :
    seam.Alike q first second :=
  fun change admitted => alike change (seam.changes_leads leads admitted)

theorem outside {first second : α} (alike : seam.Alike p.within first second) :
    seam.Alike p first second :=
  fun change admitted => alike change (seam.changes_within.mpr admitted)

/-- Two values that are alike together are alike each. -/
theorem of_pair {first first' : α} {second second' : β}
    (alike : seam.Alike p (first, second) (first', second')) :
    seam.Alike p first first' ∧ seam.Alike p second second' :=
  ⟨fun change admitted => (Prod.mk.inj (alike change admitted)).1,
    fun change admitted => (Prod.mk.inj (alike change admitted)).2⟩

/-- What no change affects is the same on both sides. -/
theorem same {γ : Type} {first second : α} (alike : seam.Alike p first second) (view : α → γ)
    (kept : ∀ (change : Change) value, view (change.on value) = view value) :
    view second = view first := by
  obtain ⟨change, admitted⟩ := seam.some_change p
  rw [← alike change admitted, kept]

theorem nil : seam.Alike p ([] : List α) [] := fun _ _ => rfl

theorem absent : seam.Alike p (none : Option α) none := fun _ _ => rfl

theorem unit : seam.Alike p () () := fun _ _ => rfl

theorem cons {value value' : α} {values values' : List α} (head : seam.Alike p value value')
    (tail : seam.Alike p values values') : seam.Alike p (value :: values) (value' :: values') := by
  intro change admitted
  rw [recast_cons, head change admitted, tail change admitted]

theorem of_cons {value : α} {values second : List α}
    (alike : seam.Alike p (value :: values) second) :
    ∃ value' values', second = value' :: values' ∧ seam.Alike p value value' ∧
      seam.Alike p values values' := by
  obtain ⟨change, admitted⟩ := seam.some_change p
  refine ⟨change.on value, change.on values, (alike change admitted).symm, ?_, ?_⟩
  · intro other allowed
    exact (List.cons.inj ((alike other allowed).trans (alike change admitted).symm)).1
  · intro other allowed
    exact (List.cons.inj ((alike other allowed).trans (alike change admitted).symm)).2

theorem of_nil {second : List α} (alike : seam.Alike p [] second) : second = [] := by
  obtain ⟨change, admitted⟩ := seam.some_change p
  exact (alike change admitted).symm

theorem append {front front' back back' : List α} (first : seam.Alike p front front')
    (second : seam.Alike p back back') : seam.Alike p (front ++ back) (front' ++ back') := by
  intro change admitted
  rw [recast_append, first change admitted, second change admitted]

theorem reverse {values values' : List α} (alike : seam.Alike p values values') :
    seam.Alike p values.reverse values'.reverse := by
  intro change admitted
  rw [recast_reverse, alike change admitted]

theorem again {value value' : α} (alike : seam.Alike p value value') :
    seam.Alike p (.again value : Round α β) (.again value') :=
  fun change admitted => by rw [recast_again, alike change admitted]

theorem done {result result' : β} (alike : seam.Alike p result result') :
    seam.Alike p (.done result : Round α β) (.done result') :=
  fun change admitted => by rw [recast_done, alike change admitted]

theorem of_again {value : α} {round : Round α β} (alike : seam.Alike p (.again value) round) :
    ∃ value', round = .again value' ∧ seam.Alike p value value' := by
  obtain ⟨change, admitted⟩ := seam.some_change p
  have shape := alike change admitted
  rw [recast_again] at shape
  subst shape
  exact ⟨_, rfl, fun other allowed => Round.again.inj (alike other allowed)⟩

theorem of_done {result : β} {round : Round α β} (alike : seam.Alike p (.done result) round) :
    ∃ result', round = .done result' ∧ seam.Alike p result result' := by
  obtain ⟨change, admitted⟩ := seam.some_change p
  have shape := alike change admitted
  rw [recast_done] at shape
  subst shape
  exact ⟨_, rfl, fun other allowed => Round.done.inj (alike other allowed)⟩

/-- Values that may be absent are absent together. -/
theorem option {first second : Option α} (alike : seam.Alike p first second) :
    (first = none ∧ second = none) ∨
      ∃ value value', first = some value ∧ second = some value' ∧ seam.Alike p value value' := by
  obtain ⟨change, admitted⟩ := seam.some_change p
  have shape := alike change admitted
  cases first with
  | none => exact .inl ⟨rfl, shape.symm⟩
  | some value =>
      refine .inr ⟨value, change.on value, rfl, shape.symm, fun other allowed => ?_⟩
      exact Option.some.inj ((alike other allowed).trans shape.symm)

theorem present {value value' : α} (alike : seam.Alike p value value') :
    seam.Alike p (some value) (some value') :=
  fun change admitted => by rw [recast_some, alike change admitted]

/-! A word that is being read -/

variable {pieces pieces' : Pieces} (read : seam.Alike p pieces pieces')

include read

theorem push {pos pos' : Position} (here : seam.Alike p pos pos') (chars : List Char) :
    seam.Alike p (pieces.push pos chars) (pieces'.push pos' chars) := by
  intro change admitted
  rw [Pieces.recast_push, read change admitted, here change admitted]

theorem add {part part' : Part} (leads : p.Leads q) (parts : seam.Alike q part part') :
    seam.Alike q (pieces.add part) (pieces'.add part') := by
  intro change admitted
  rw [Pieces.recast_add, read.leads leads change admitted, parts change admitted]

theorem finish : seam.Alike p pieces.finish pieces'.finish := by
  intro change admitted
  rw [Pieces.recast_finish, read change admitted]

theorem nested {γ : Type} (depth : γ) : seam.Alike p (Reading.Nested.mk pieces depth)
    ⟨pieces', depth⟩ := by
  intro change admitted
  rw [Reading.Nested.recast_mk, read change admitted]

end Alike

/-! ## States -/

/-- Two cursors in front of texts that agree on `front`. -/
structure Apart (seam : Seam) (p : Phase) (front first second : List Char)
    (cursor₁ cursor₂ : Cursor) : Prop where
  rest₁ : cursor₁.rest = front ++ first
  rest₂ : cursor₂.rest = front ++ second
  along : ∀ change, seam.changes p change →
    change.Along front cursor₁.position cursor₂.position
  ahead : p = .before → seam.joint first second (cursor₁.position.along front)
  marks : p = .before → Marks seam.mark front
  ended : p ≠ .before → first = [] ∧ second = []
  text : seam.text p cursor₁.rest
  short : cursor₁.rest.length < seam.rounds
  short' : p ≠ .lost → cursor₂.rest.length < seam.rounds'

/-- Two states of readings that are followed. -/
structure Paired (seam : Seam) (p : Phase) (state state' : ReadState) : Prop where
  cursors : ∃ front first second,
    seam.Apart p front first second state.cursor state'.cursor
  awaited : seam.Alike p state.awaited state'.awaited
  bodies : seam.Alike p state.bodies state'.bodies
  comments : seam.Alike p state.comments state'.comments
  awaits : ∀ awaited ∈ state.awaited, seam.awaits awaited
  announced : state.bodies ≠ [] → ∃ awaited, seam.awaits awaited

namespace Apart

variable {front first second : List Char} {cursor₁ cursor₂ : Cursor}

theorem advance (apart : seam.Apart p front first second cursor₁ cursor₂) {count : Nat}
    (within : p = .before → count ≤ front.length) :
    seam.Apart p (front.drop count) first second (cursor₁.advance count)
      (cursor₂.advance count) := by
  have taken (rest : List Char) (ends : p ≠ .before → rest = []) :
      (front ++ rest).take count = front.take count ∧
        (front ++ rest).drop count = front.drop count ++ rest := by
    by_cases early : p = .before
    · exact ⟨List.take_append_of_le_length (within early),
        List.drop_append_of_le_length (within early)⟩
    · simp [ends early]
  have taken₁ := taken first fun later => (apart.ended later).1
  have taken₂ := taken second fun later => (apart.ended later).2
  refine ⟨?_, ?_, ?_, ?_, ?_, apart.ended, ?_, ?_, ?_⟩
  · rw [Cursor.advance_rest, apart.rest₁, taken₁.2]
  · rw [Cursor.advance_rest, apart.rest₂, taken₂.2]
  · intro change admitted
    rw [Cursor.advance_position, Cursor.advance_position, apart.rest₁, apart.rest₂, taken₁.1,
      taken₂.1]
    exact (apart.along change admitted).drop count
  · intro early
    rw [Cursor.advance_position, apart.rest₁, taken₁.1, ← Position.along_append,
      List.take_append_drop]
    exact apart.ahead early
  · exact fun early => (apart.marks early).drop count
  · rw [Cursor.advance_rest]
    exact seam.text_drop count apart.text
  · rw [Cursor.advance_rest, List.length_drop]
    exact Nat.lt_of_le_of_lt (Nat.sub_le _ _) apart.short
  · intro kept
    rw [Cursor.advance_rest, List.length_drop]
    exact Nat.lt_of_le_of_lt (Nat.sub_le _ _) (apart.short' kept)

/-- Behind the mark the first reading goes on alone. -/
theorem cross (apart : seam.Apart .before front first second cursor₁ cursor₂) {count : Nat}
    (beyond : front.length < count) :
    seam.Apart .lost (cursor₁.advance count).rest [] [] (cursor₁.advance count)
      (cursor₁.advance count) := by
  obtain ⟨extra, rfl⟩ := Nat.exists_eq_add_of_lt beyond
  have joint := apart.ahead rfl
  have taken : (front ++ first).take (front.length + extra + 1) = front ++
      first.take (extra + 1) := by
    rw [Nat.add_assoc, List.take_append, List.take_of_length_le (by omega)]
    congr 2
    omega
  have dropped : (front ++ first).drop (front.length + extra + 1) = first.drop (extra + 1) := by
    rw [Nat.add_assoc, List.drop_append, List.drop_of_length_le (by omega), List.nil_append]
    congr 1
    omega
  refine ⟨(List.append_nil _).symm, (List.append_nil _).symm, ?_, nofun, nofun,
    fun _ => ⟨rfl, rfl⟩, ?_, ?_, fun kept => absurd rfl kept⟩
  · intro change admitted
    rw [Cursor.advance_rest, Cursor.advance_position, apart.rest₁, taken, dropped,
      Position.along_append]
    exact seam.along_crossed extra joint admitted
  · rw [Cursor.advance_rest, apart.rest₁, dropped]
    refine seam.text_crossed extra joint ?_
    have whole := apart.text
    rw [apart.rest₁] at whole
    simpa using seam.text_drop front.length whole
  · rw [Cursor.advance_rest, List.length_drop]
    exact Nat.lt_of_le_of_lt (Nat.sub_le _ _) apart.short

end Apart

namespace Paired

variable {state state' : ReadState}

theorem sees {γ : Type} {recognise : List Char → γ} (paired : seam.Paired p state state')
    (sighted : Sighted recognise) : recognise state'.cursor.rest = recognise state.cursor.rest := by
  obtain ⟨front, first, second, apart⟩ := paired.cursors
  rw [apart.rest₁, apart.rest₂]
  by_cases early : p = .before
  · obtain ⟨⟨rest, rfl⟩, rest', rfl⟩ := seam.joint_mark (apart.ahead early)
    exact (sighted rest rest' (apart.marks early)).symm
  · rw [(apart.ended early).1, (apart.ended early).2]

theorem here (paired : seam.Paired p state state') :
    seam.Alike p state.cursor.position state'.cursor.position := by
  obtain ⟨front, first, second, apart⟩ := paired.cursors
  exact fun change admitted => (apart.along change admitted).place

/-- Beside the mark both texts are the same. -/
theorem rest_eq (paired : seam.Paired p state state') (other : p ≠ .before) :
    state'.cursor.rest = state.cursor.rest := by
  obtain ⟨front, first, second, apart⟩ := paired.cursors
  rw [apart.rest₁, apart.rest₂, (apart.ended other).1, (apart.ended other).2]

/-- The next character is the same in both texts, and so is the one after it unless the first of
them may be the mark. -/
theorem rest_cases (paired : seam.Paired p state state') :
    (state.cursor.rest = [] ∧ state'.cursor.rest = []) ∨
      ∃ c text text', state.cursor.rest = c :: text ∧ state'.cursor.rest = c :: text' ∧
        (c ≠ '$' → c ≠ '\n' → text'.head? = text.head? ∧ text'.take 1 = text.take 1) := by
  obtain ⟨front, first, second, apart⟩ := paired.cursors
  rw [apart.rest₁, apart.rest₂]
  by_cases early : p = .before
  · obtain ⟨⟨rest, rfl⟩, rest', rfl⟩ := seam.joint_mark (apart.ahead early)
    cases front with
    | nil =>
        refine .inr ⟨seam.mark, rest, rest', rfl, rfl, fun dollar newline => ?_⟩
        rcases seam.marked with marked | marked
        · exact absurd marked dollar
        · exact absurd marked newline
    | cons c front =>
        have marks := (apart.marks early).tail
        exact .inr ⟨c, _, _, rfl, rfl, fun _ _ =>
          ⟨head?_sighted _ _ marks, take_one_sighted _ _ marks⟩⟩
  · obtain ⟨rfl, rfl⟩ := apart.ended early
    cases front with
    | nil => exact .inl ⟨rfl, rfl⟩
    | cons c front => exact .inr ⟨c, _, _, rfl, rfl, fun _ _ => ⟨rfl, rfl⟩⟩

/-- The rest of the relation, at cursors that are still or again beside each other. -/
theorem withCursors (paired : seam.Paired p state state') (leads : p.Leads q)
    {cursor₁ cursor₂ : Cursor}
    (cursors : ∃ front first second, seam.Apart q front first second cursor₁ cursor₂) :
    seam.Paired q { state with cursor := cursor₁ } { state' with cursor := cursor₂ } :=
  ⟨cursors, paired.awaited.leads leads, paired.bodies.leads leads, paired.comments.leads leads,
    paired.awaits, paired.announced⟩

end Paired

/-! ## Outcomes -/

/-- What the outcome of the second reading is, given that of the first.  Errors are followed only
where both readings are in front of the same text. -/
def Follows (seam : Seam) (p : Phase) (outcome outcome' : Reading.Outcome α) : Prop :=
  match outcome with
  | .ok (value₁, state) => ∃ q value₂ state', p.Leads q ∧
      (q ≠ .lost → outcome' = .ok (value₂, state')) ∧ seam.Alike q value₁ value₂ ∧
        seam.Paired q state state'
  | .error error => p = .after →
      ∃ pos, outcome' = .error { error with pos } ∧ seam.Alike .after error.pos pos

namespace Follows

open Reading

variable {outcome outcome' other : Outcome α} {state state' : ReadState}

theorem ok {value₁ value₂ : α} (alike : seam.Alike p value₁ value₂)
    (paired : seam.Paired p state state') :
    seam.Follows p (.ok (value₁, state)) (.ok (value₂, state')) :=
  ⟨p, value₂, state', .stay p, fun _ => rfl, alike, paired⟩

theorem lost {value₁ value₂ : α} (alike : seam.Alike .lost value₁ value₂)
    (paired : seam.Paired .lost state state') :
    seam.Follows .before (.ok (value₁, state)) outcome' :=
  ⟨.lost, value₂, state', .lose, fun kept => absurd rfl kept, alike, paired⟩

theorem error {cause : Cause} {pos pos' : Position} (alike : seam.Alike p pos pos') :
    seam.Follows (α := α) p (.error ⟨cause, pos⟩) (.error ⟨cause, pos'⟩) := by
  rintro rfl
  exact ⟨pos', rfl, alike⟩

theorem fail {cause : Cause} (paired : seam.Paired p state state') :
    seam.Follows (α := α) p (Reading.fail cause state) (Reading.fail cause state') :=
  error paired.here

/-- An error in front of the mark is not followed. -/
theorem unfollowed {fault : ParseError} (other : p ≠ .after) :
    seam.Follows p (.error fault) outcome' :=
  fun later => absurd later other

/-- Outcomes seen from where the readings were before. -/
theorem through (leads : p.Leads q) (same : q ≠ .lost → outcome' = other)
    (follows : seam.Follows q outcome other) : seam.Follows p outcome outcome' := by
  match outcome, follows with
  | .ok (value₁, after), ⟨r, value₂, after', further, reached, alike, paired⟩ =>
      refine ⟨r, value₂, after', leads.trans further, fun kept => ?_, alike, paired⟩
      rw [same (further.ne_lost kept), reached kept]
  | .error fault, follows =>
      rintro rfl
      obtain rfl := leads.of_after
      obtain ⟨pos, reached, alike⟩ := follows rfl
      exact ⟨pos, (same (by decide)).trans reached, alike⟩

variable {reading reading' : Reading α}

/-- One reading after another, where the second one may use what the first one has returned. -/
theorem bindRun {next next' : α → Reading β}
    (first : seam.Follows p (reading state) (reading' state'))
    (later : ∀ {q value₁ value₂ after after'}, reading state = .ok (value₁, after) →
      p.Leads q → seam.Alike q value₁ value₂ → seam.Paired q after after' →
        seam.Follows q (next value₁ after) (next' value₂ after')) :
    seam.Follows p ((reading >>= next) state) ((reading' >>= next') state') := by
  match run : reading state, first with
  | .ok (value₁, after), ⟨q, value₂, after', leads, reached, alike, paired⟩ =>
      rw [bind_ok run]
      exact through leads (fun kept => bind_ok (reached kept)) (later run leads alike paired)
  | .error fault, first =>
      rw [bind_error run]
      intro followed
      obtain ⟨pos, reached, alike⟩ := first followed
      exact ⟨pos, bind_error reached, alike⟩

theorem bind {next next' : α → Reading β} (first : seam.Follows p (reading state) (reading' state'))
    (later : ∀ {q value₁ value₂ after after'}, p.Leads q → seam.Alike q value₁ value₂ →
      seam.Paired q after after' →
        seam.Follows q (next value₁ after) (next' value₂ after')) :
    seam.Follows p ((reading >>= next) state) ((reading' >>= next') state') :=
  first.bindRun fun _ => later

/-- A reading whose result is put into another form. -/
theorem returning {change change' : α → β}
    (first : seam.Follows p (reading state) (reading' state'))
    (carried : ∀ {q value₁ value₂}, p.Leads q → seam.Alike q value₁ value₂ →
      seam.Alike q (change value₁) (change' value₂)) :
    seam.Follows p ((do return change (← reading) : Reading β) state)
      ((do return change' (← reading') : Reading β) state') :=
  first.bind fun leads alike paired => ok (carried leads alike) paired

theorem map {change change' : α → β} (first : seam.Follows p (reading state) (reading' state'))
    (carried : ∀ {q value₁ value₂}, p.Leads q → seam.Alike q value₁ value₂ →
      seam.Alike q (change value₁) (change' value₂)) :
    seam.Follows p ((change <$> reading) state) ((change' <$> reading') state') :=
  first.returning carried

theorem ite {condition : Prop} [Decidable condition] {reading₁' reading₂' : Reading α}
    (holds : condition → seam.Follows p (reading state) (reading' state'))
    (fails : ¬condition → seam.Follows p (reading₁' state) (reading₂' state')) :
    seam.Follows p ((if condition then reading else reading₁') state)
      ((if condition then reading' else reading₂') state') := by
  by_cases decided : condition
  · rw [if_pos decided, if_pos decided]
    exact holds decided
  · rw [if_neg decided, if_neg decided]
    exact fails decided

theorem current (paired : seam.Paired p state state') {next next' : Option Char → Reading α}
    (later : ∀ c, state.cursor.rest.head? = c → seam.Follows p (next c state) (next' c state')) :
    seam.Follows p ((Reading.current >>= next) state) ((Reading.current >>= next') state') := by
  rw [current_bind, current_bind, paired.sees head?_sighted]
  exact later _ rfl

/-- Moving on by as many characters in both texts. -/
theorem skipped (paired : seam.Paired p state state') (count : Nat) :
    ∃ q after', p.Leads q ∧ (q ≠ .lost → after' = state'.skip count) ∧
      seam.Paired q (state.skip count) after' := by
  obtain ⟨front, first, second, apart⟩ := paired.cursors
  by_cases beyond : p = .before ∧ front.length < count
  · obtain ⟨rfl, beyond⟩ := beyond
    exact ⟨.lost, { state' with cursor := state.cursor.advance count }, .lose,
      fun kept => absurd rfl kept, paired.withCursors .lose ⟨_, _, _, apart.cross beyond⟩⟩
  · have within : p = .before → count ≤ front.length :=
      fun early => Nat.le_of_not_lt fun longer => beyond ⟨early, longer⟩
    exact ⟨p, state'.skip count, .stay p, fun _ => rfl,
      paired.withCursors (.stay p) ⟨_, _, _, apart.advance within⟩⟩

theorem skip (paired : seam.Paired p state state') (count : Nat) {next next' : Unit → Reading α}
    (later : ∀ {q after'}, p.Leads q → seam.Paired q (state.skip count) after' →
      seam.Follows q (next () (state.skip count)) (next' () after')) :
    seam.Follows p ((Reading.skip count >>= next) state)
      ((Reading.skip count >>= next') state') := by
  obtain ⟨q, after', leads, same, paired⟩ := skipped paired count
  exact through leads (fun kept => by rw [skip_bind, same kept]) (later leads paired)

/-- Moving on by a number of characters at the end of a reading. -/
theorem ended (paired : seam.Paired p state state') (count : Nat) {value₁ value₂ : α}
    (alike : seam.Alike p value₁ value₂) :
    seam.Follows p (.ok (value₁, state.skip count)) (.ok (value₂, state'.skip count)) := by
  obtain ⟨q, after', leads, same, paired⟩ := skipped paired count
  exact through leads (fun kept => by rw [same kept]) (ok (alike.leads leads) paired)

theorem skipBlanks (paired : seam.Paired p state state') {next₁ next₂ : Unit → Reading α}
    (later : ∀ {q after'}, p.Leads q → seam.Paired q state.skipBlanks after' →
      seam.Follows q (next₁ () state.skipBlanks) (next₂ () after')) :
    seam.Follows p ((Reading.skipBlanks >>= next₁) state)
      ((Reading.skipBlanks >>= next₂) state') := by
  have run (state : ReadState) (next : Unit → Reading α) : (Reading.skipBlanks >>= next) state =
      (Reading.skip (blankRun state.cursor.rest) >>= next) state := rfl
  rw [run, run, paired.sees blankRun_sighted]
  exact skip paired _ later

variable {step step' : α → Reading (Round α β)} {done done' : α → β → List Char → Prop}
  (advances : ∀ value state, Moves (Turn (· ≠ []) (done value)) state (step value state))
  (advances' : ∀ value state, Moves (Turn (· ≠ []) (done' value)) state (step' value state))
  (round : ∀ {q value₁ value₂ after after'}, p.Leads q → seam.Alike q value₁ value₂ →
    seam.Paired q after after' → seam.Follows q (step value₁ after) (step' value₂ after'))

include advances advances' round

/-- The rounds of a loop in both readings, as long as there are enough of them. -/
theorem rounds {rounds rounds' : Nat} {value₁ value₂ : α} (leads : p.Leads q)
    (alike : seam.Alike q value₁ value₂) (paired : seam.Paired q state state')
    (enough₁ : state.cursor.rest.length < rounds)
    (enough₂ : q ≠ .lost → state'.cursor.rest.length < rounds') :
    seam.Follows q (Reading.iterate step rounds value₁ state)
      (Reading.iterate step' rounds' value₂ state') := by
  induction rounds generalizing q value₁ value₂ state state' rounds' with
  | zero => omega
  | succ rounds ih =>
      have first := round leads alike paired
      match run : step value₁ state, first with
      | .error fault, first =>
          rw [Reading.iterate, bind_error run]
          rintro rfl
          obtain ⟨pos, reached, alike⟩ := first rfl
          obtain ⟨fewer, rfl⟩ := Nat.exists_eq_add_of_lt (enough₂ (by decide))
          exact ⟨pos, bind_error reached, alike⟩
      | .ok (.done result, after), ⟨r, value, after', further, reached, same, paired⟩ =>
          rw [iterate_done run]
          obtain ⟨result', rfl, results⟩ := same.of_done
          refine ⟨r, result', after', further, fun kept => ?_, results, paired⟩
          obtain ⟨fewer, rfl⟩ := Nat.exists_eq_add_of_lt (enough₂ (further.ne_lost kept))
          exact iterate_done (reached kept) _
      | .ok (.again value, after), ⟨r, value', after', further, reached, same, paired⟩ =>
          rw [iterate_again run]
          obtain ⟨value', rfl, values⟩ := same.of_again
          have shorter := (advances value₁ state).shorter run
          have enough : r ≠ .lost → after'.cursor.rest.length < rounds' - 1 := by
            intro kept
            have shorter := (advances' value₂ state').shorter (reached kept)
            have := enough₂ (further.ne_lost kept)
            omega
          refine through further (fun kept => ?_)
            (ih (leads.trans further) values paired (by omega) enough)
          obtain ⟨fewer, rfl⟩ := Nat.exists_eq_add_of_lt (enough₂ (further.ne_lost kept))
          exact iterate_again (reached kept) _

/-- A loop each of whose rounds is followed, and consumes something if another one comes. -/
theorem iterate {value₁ value₂ : α} (alike : seam.Alike p value₁ value₂)
    (paired : seam.Paired p state state') :
    seam.Follows p (Reading.iterate step seam.rounds value₁ state)
      (Reading.iterate step' seam.rounds' value₂ state') := by
  obtain ⟨front, first, second, apart⟩ := paired.cursors
  exact rounds advances advances' round (.stay p) alike paired apart.short apart.short'

end Follows
end Seam
end RecipeLint
