import RecipeLint.Grammar.Script

/-!
# Running a reading

What a reading does at a state, one equation for each of its primitive steps, and `Ends`, which says
of an outcome that its value and state satisfy one condition or its error another.  A reading is
followed step by step with `Ends.bind`; a loop is followed by what one round keeps.
-/

namespace RecipeLint

namespace Position

/-- The position after a text that starts at the given one. -/
def along (position : Position) (text : List Char) : Position :=
  text.foldl after position

@[simp]
theorem along_nil (position : Position) : position.along [] = position := rfl

@[simp]
theorem along_cons (position : Position) (c : Char) (text : List Char) :
    position.along (c :: text) = (position.after c).along text := rfl

@[simp]
theorem along_append (position : Position) (front back : List Char) :
    position.along (front ++ back) = (position.along front).along back :=
  List.foldl_append

theorem along_line (position : Position) (text : List Char) :
    (position.along text).line = position.line + text.count '\n' := by
  induction text generalizing position with
  | nil => simp
  | cons c text ih =>
      rw [along_cons, ih, List.count_cons, after]
      by_cases newline : c = '\n'
      · simp only [newline, if_true, beq_self_eq_true]
        omega
      · simp [newline]

theorem along_plain {text : List Char} (plain : '\n' ∉ text) (position : Position) :
    position.along text = position.right text.length := by
  induction text generalizing position with
  | nil => simp [right]
  | cons c text ih =>
      have other : c ≠ '\n' := by
        rintro rfl
        exact plain List.mem_cons_self
      rw [along_cons, ih fun member => plain (List.mem_cons_of_mem c member), after, if_neg other]
      simp only [right, List.length_cons, Position.mk.injEq, true_and]
      omega

/-- Every text that is not empty leads to another position. -/
theorem eq_nil_of_along {position : Position} {text : List Char}
    (same : position.along text = position) : text = [] := by
  have lines := congrArg line same
  rw [along_line] at lines
  have plain : '\n' ∉ text := fun member => by
    have := List.count_pos_iff.mpr member
    omega
  have columns := congrArg column same
  rw [along_plain plain] at columns
  simp only [right] at columns
  exact List.length_eq_zero_iff.mp (by omega)

/-- The first position is in front of the second one. -/
def Before (first second : Position) : Prop :=
  first.line < second.line ∨ first.line = second.line ∧ first.column < second.column

theorem Before.irrefl (pos : Position) : ¬pos.Before pos := by
  unfold Before
  omega

theorem Before.trans {first second third : Position} (front : first.Before second)
    (back : second.Before third) : first.Before third := by
  unfold Before at *
  omega

theorem before_after (pos : Position) (c : Char) : pos.Before (pos.after c) := by
  unfold after Before
  split
  · exact .inl (Int.lt_succ _)
  · exact .inr ⟨rfl, Int.lt_succ _⟩

theorem along_cases (pos : Position) (text : List Char) :
    text = [] ∨ pos.Before (pos.along text) := by
  induction text generalizing pos with
  | nil => exact .inl rfl
  | cons c text ih =>
      refine .inr ?_
      rw [along_cons]
      rcases ih (pos.after c) with rfl | later
      · exact before_after pos c
      · exact (before_after pos c).trans later

theorem before_along {text : List Char} (filled : text ≠ []) (pos : Position) :
    pos.Before (pos.along text) :=
  (along_cases pos text).resolve_left filled

theorem Before.along {first second : Position} (before : first.Before second) (text : List Char) :
    first.Before (second.along text) := by
  rcases along_cases second text with rfl | later
  · exact before
  · exact before.trans later

theorem not_along_before (pos : Position) (text : List Char) : ¬(pos.along text).Before pos := by
  intro back
  rcases along_cases pos text with rfl | later
  · exact Before.irrefl _ back
  · exact Before.irrefl _ (back.trans later)

/-- A position that is not in front of another one comes after all that are. -/
theorem Before.trans_not {first second third : Position} (front : first.Before second)
    (back : ¬third.Before second) : first.Before third := by
  unfold Before at *
  omega

theorem not_before_trans {first second third : Position} (front : ¬second.Before first)
    (back : ¬third.Before second) : ¬third.Before first := by
  unfold Before at *
  omega

/-- From the first position on, and in front of the second one. -/
def Between (pos low high : Position) : Prop :=
  ¬pos.Before low ∧ pos.Before high

namespace Between

variable {low middle high pos : Position}

theorem later (between : pos.Between low middle) (le : ¬high.Before middle) :
    pos.Between low high :=
  ⟨between.1, between.2.trans_not le⟩

theorem earlier (between : pos.Between middle high) (le : ¬middle.Before low) :
    pos.Between low high := by
  refine ⟨?_, between.2⟩
  have := between.1
  unfold Before at *
  omega

theorem before {other : Position} (first : pos.Between low middle)
    (second : other.Between middle high) :
    pos.Before other :=
  first.2.trans_not second.1

end Between

theorem lt_iff_before {first second : Position} : first.lt second = true ↔ first.Before second := by
  simp only [lt, le, Before, Bool.not_eq_true', Bool.or_eq_false_iff, Bool.and_eq_false_iff,
    decide_eq_false_iff_not]
  omega

end Position

namespace Cursor

/-- The second cursor stands behind the given text, which the first one is in front of. -/
structure Passes (text : List Char) (before after : Cursor) : Prop where
  rest_eq : before.rest = text ++ after.rest
  position_eq : after.position = before.position.along text
  offset_eq : after.offset = before.offset + text.length

namespace Passes

theorem refl (cursor : Cursor) : Passes [] cursor cursor := ⟨rfl, rfl, rfl⟩

theorem before {text : List Char} {before after : Cursor} (passes : Passes text before after)
    (filled : text ≠ []) :
    before.position.Before after.position := by
  rw [passes.position_eq]
  exact Position.before_along filled _

theorem shorter {text : List Char} {before after : Cursor} (passes : Passes text before after)
    (filled : text ≠ []) :
    after.rest.length < before.rest.length := by
  have := List.length_pos_iff.mpr filled
  rw [passes.rest_eq, List.length_append]
  omega

theorem trans {front back : List Char} {before middle after : Cursor}
    (first : Passes front before middle) (second : Passes back middle after) :
    Passes (front ++ back) before after where
  rest_eq := by rw [first.rest_eq, second.rest_eq, List.append_assoc]
  position_eq := by rw [second.position_eq, first.position_eq, Position.along_append]
  offset_eq := by rw [second.offset_eq, first.offset_eq, List.length_append, Nat.add_assoc]

end Passes

theorem advance_passes (count : Nat) (cursor : Cursor) :
    Passes (cursor.rest.take count) cursor (cursor.advance count) := by
  induction count generalizing cursor with
  | zero => exact .refl cursor
  | succ count ih =>
      obtain ⟨rest, offset, position⟩ := cursor
      cases rest with
      | nil => exact .refl _
      | cons c rest =>
          have single : Passes [c] ⟨c :: rest, offset, position⟩
              ⟨rest, offset + 1, position.after c⟩ := ⟨rfl, rfl, rfl⟩
          exact single.trans (ih ⟨rest, offset + 1, position.after c⟩)

@[simp]
theorem advance_rest (count : Nat) (cursor : Cursor) :
    (cursor.advance count).rest = cursor.rest.drop count := by
  have passes := (advance_passes count cursor).rest_eq
  exact List.append_cancel_left (passes.symm.trans (List.take_append_drop count cursor.rest).symm)

theorem advance_position (count : Nat) (cursor : Cursor) :
    (cursor.advance count).position = cursor.position.along (cursor.rest.take count) :=
  (advance_passes count cursor).position_eq

theorem advance_add (first second : Nat) (cursor : Cursor) :
    cursor.advance (first + second) = (cursor.advance first).advance second := by
  induction first generalizing cursor with
  | zero => rw [Nat.zero_add, advance]
  | succ first ih =>
      rw [Nat.succ_add, advance, advance]
      split
      next ended =>
        cases second with
        | zero => rfl
        | succ second => rw [advance, if_pos ended]
      next => exact ih cursor.step

theorem advance_of_rest_eq_nil {cursor : Cursor} (ended : cursor.rest = []) (count : Nat) :
    cursor.advance count = cursor := by
  cases count with
  | zero => rfl
  | succ count => rw [advance, if_pos (by simp [atEnd, ended])]

theorem advance_length_take (count : Nat) (cursor : Cursor) :
    cursor.advance (cursor.rest.take count).length = cursor.advance count := by
  rw [List.length_take]
  rcases Nat.le_total count cursor.rest.length with inside | beyond
  · rw [Nat.min_eq_left inside]
  · obtain ⟨extra, rfl⟩ := Nat.exists_eq_add_of_le beyond
    rw [Nat.min_eq_right beyond, advance_add, advance_of_rest_eq_nil (by simp) extra]

theorem skipBlanks_rest (cursor : Cursor) :
    cursor.skipBlanks.rest = cursor.rest.drop (blankRun cursor.rest) :=
  advance_rest _ _

/-- A recognised text stands in front of the text to read. -/
theorem rest_of_startsWith {cursor : Cursor} {text : String}
    (starts : cursor.startsWith text = true) : ∃ rest, cursor.rest = text.toList ++ rest := by
  obtain ⟨rest, eq⟩ := List.isPrefixOf_iff_prefix.mp starts
  exact ⟨rest, eq.symm⟩

theorem take_of_startsWith {cursor : Cursor} {text : String}
    (starts : cursor.startsWith text = true) : cursor.rest.take text.length = text.toList := by
  obtain ⟨rest, eq⟩ := rest_of_startsWith starts
  rw [eq, ← String.length_toList, List.take_left]

theorem startsWith_of_atWord {cursor : Cursor} {word : String} (found : cursor.atWord word = true) :
    cursor.startsWith word = true :=
  (Bool.and_eq_true_iff.mp found).1

end Cursor

namespace ReadState

/-- The state after a number of characters. -/
def skip (state : ReadState) (count : Nat) : ReadState :=
  { state with cursor := state.cursor.advance count }

/-- The state after the blanks at its cursor. -/
def skipBlanks (state : ReadState) : ReadState :=
  { state with cursor := state.cursor.skipBlanks }

@[simp]
theorem skip_cursor (state : ReadState) (count : Nat) :
    (state.skip count).cursor = state.cursor.advance count := rfl

theorem skip_add (state : ReadState) (first second : Nat) :
    state.skip (first + second) = (state.skip first).skip second := by
  unfold skip
  rw [Cursor.advance_add]

theorem skip_length_take (state : ReadState) (count : Nat) :
    state.skip (state.cursor.rest.take count).length = state.skip count := by
  unfold skip
  rw [Cursor.advance_length_take]

theorem skipBlanks_cursor (state : ReadState) :
    state.skipBlanks.cursor = state.cursor.skipBlanks := rfl

/-- The state with some here-documents read before. -/
def knowing (state : ReadState) (spare : Bodies) : ReadState :=
  { state with bodies := state.bodies ++ spare }

@[simp]
theorem knowing_nil (state : ReadState) : state.knowing [] = state := by
  simp [knowing]

end ReadState

/-- One of two functions, as another round follows or not. -/
def Round.elim {γ : Sort u} (again : α → γ) (done : β → γ) : Round α β → γ
  | .again value => again value
  | .done result => done result

@[simp]
theorem Round.elim_again {γ : Sort u} (again : α → γ) (done : β → γ) (value : α) :
    (Round.again value).elim again done = again value := rfl

@[simp]
theorem Round.elim_done {γ : Sort u} (again : α → γ) (done : β → γ) (result : β) :
    (Round.done result).elim again done = done result := rfl

theorem Pieces.finish_add (pieces : Pieces) (part : Part) :
    (pieces.add part).finish = pieces.finish ++ [part] := by
  obtain ⟨parts, run, start⟩ := pieces
  cases run <;> simp [add, finish, flush]

namespace Reading

/-- What a reading ends with at a state. -/
abbrev Outcome (α : Type) := Except ParseError (α × ReadState)

variable {α β : Type}

@[simp]
theorem here_bind (next : Position → Reading β) (state : ReadState) :
    (here >>= next) state = next state.cursor.position state := rfl

@[simp]
theorem cursor_bind (next : Cursor → Reading β) (state : ReadState) :
    (cursor >>= next) state = next state.cursor state := rfl

@[simp]
theorem rest_bind (next : List Char → Reading β) (state : ReadState) :
    (rest >>= next) state = next state.cursor.rest state := rfl

@[simp]
theorem current_bind (next : Option Char → Reading β) (state : ReadState) :
    (current >>= next) state = next state.cursor.rest.head? state := rfl

@[simp]
theorem get_bind (next : ReadState → Reading β) (state : ReadState) :
    (get >>= next) state = next state state := rfl

@[simp]
theorem modify_bind (change : ReadState → ReadState) (next : PUnit → Reading β)
    (state : ReadState) : (modify change >>= next) state = next ⟨⟩ (change state) := rfl

@[simp]
theorem modify_apply (change : ReadState → ReadState) (state : ReadState) :
    (modify change : Reading PUnit) state = .ok (⟨⟩, change state) := rfl

@[simp]
theorem skip_bind (count : Nat) (next : Unit → Reading β) (state : ReadState) :
    (skip count >>= next) state = next () (state.skip count) := rfl

@[simp]
theorem skipBlanks_bind (next : Unit → Reading β) (state : ReadState) :
    (skipBlanks >>= next) state = next () state.skipBlanks := rfl

@[simp]
theorem skipBlanks_apply (state : ReadState) :
    skipBlanks state = .ok ((), state.skipBlanks) := rfl

@[simp]
theorem wordAt_bind (words : List String) (next : Option String → Reading β) (state : ReadState) :
    (wordAt? words >>= next) state = next (words.find? state.cursor.atWord) state := rfl

@[simp]
theorem redirectAt_bind (next : Option RedirectHead → Reading β) (state : ReadState) :
    (redirectAt? >>= next) state = next (RedirectHead.starting? state.cursor.rest) state := rfl

@[simp]
theorem pure_apply (value : α) (state : ReadState) :
    (pure value : Reading α) state = .ok (value, state) := rfl

theorem bind_ok {reading : Reading α} {next : α → Reading β} {state after : ReadState}
    {value : α} (run : reading state = .ok (value, after)) :
    (reading >>= next) state = next value after := by
  change (reading state).bind _ = _
  rw [run]
  rfl

theorem bind_error {reading : Reading α} {next : α → Reading β} {state : ReadState}
    {error : ParseError} (run : reading state = .error error) :
    (reading >>= next) state = .error error := by
  change (reading state).bind _ = _
  rw [run]
  rfl

theorem map_eq_bind (change : α → β) (reading : Reading α) (state : ReadState) :
    (change <$> reading) state = (reading >>= fun value => pure (change value)) state := rfl

theorem iterate_again {step : α → Reading (Round α β)} {value next : α} {state after : ReadState}
    (run : step value state = .ok (.again next, after)) (rounds : Nat) :
    iterate step (rounds + 1) value state = iterate step rounds next after :=
  bind_ok run

theorem iterate_done {step : α → Reading (Round α β)} {value : α} {result : β}
    {state after : ReadState} (run : step value state = .ok (.done result, after)) (rounds : Nat) :
    iterate step (rounds + 1) value state = .ok (result, after) :=
  bind_ok run

/-- An outcome whose value and state satisfy `post`, or whose error satisfies `fault`. -/
def Ends (fault : ParseError → Prop) (post : α → ReadState → Prop) : Outcome α → Prop
  | .ok (value, state) => post value state
  | .error error => fault error

namespace Ends

variable {fault : ParseError → Prop} {post : α → ReadState → Prop} {goal : β → ReadState → Prop}

theorem mono {broader : ParseError → Prop} {wider : α → ReadState → Prop} {outcome : Outcome α}
    (ends : Ends fault post outcome) (errors : ∀ error, fault error → broader error)
    (weaken : ∀ value state, post value state → wider value state) :
    Ends broader wider outcome := by
  match outcome, ends with
  | .ok (value, state), ends => exact weaken value state ends
  | .error error, ends => exact errors error ends

theorem imp {wider : α → ReadState → Prop} {outcome : Outcome α}
    (ends : Ends fault post outcome) (weaken : ∀ value state, post value state →
      wider value state) :
    Ends fault wider outcome :=
  ends.mono (fun _ fault => fault) weaken

/-- Nothing is said of an outcome. -/
protected theorem trivial (outcome : Outcome α) :
    Ends (fun _ => True) (fun _ _ => True) outcome := by
  match outcome with
  | .ok _ | .error _ => trivial

theorem and {other : α → ReadState → Prop} {outcome : Outcome α} (first : Ends fault post outcome)
    (second : Ends fault other outcome) :
    Ends fault (fun value state => post value state ∧ other value state) outcome := by
  match outcome, first, second with
  | .ok _, first, second => exact ⟨first, second⟩
  | .error _, first, _ => exact first

theorem bind {reading : Reading α} {next : α → Reading β} {state : ReadState}
    (first : Ends fault post (reading state))
    (later : ∀ value after, post value after → Ends fault goal (next value after)) :
    Ends fault goal ((reading >>= next) state) := by
  match run : reading state, first with
  | .ok (value, after), first =>
      rw [bind_ok run]
      exact later value after first
  | .error _, first =>
      rw [bind_error run]
      exact first

theorem of_ok {outcome : Outcome α} {value : α} {state : ReadState}
    (ends : Ends fault post outcome) (run : outcome = .ok (value, state)) : post value state := by
  subst run
  exact ends

/-- A loop ends with what its rounds lead to, as long as each round keeps the invariant. -/
theorem iterate {step : α → Reading (Round α β)} (invariant : α → ReadState → Prop)
    (exhausted : ∀ state : ReadState, fault ⟨.exhausted, state.cursor.position⟩)
    (round : ∀ value state, invariant value state →
      Ends fault (Round.elim invariant goal) (step value state))
    (rounds : Nat) (value : α) (state : ReadState) (start : invariant value state) :
    Ends fault goal (Reading.iterate step rounds value state) := by
  induction rounds generalizing value state with
  | zero => exact exhausted state
  | succ rounds ih =>
      refine (round value state start).bind fun result after kept => ?_
      cases result with
      | again value => exact ih value after kept
      | done value => exact kept

end Ends
end Reading
end RecipeLint
