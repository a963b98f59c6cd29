import RecipeLint.Proofs.Forward
import RecipeLint.Proofs.Lines

/-!
# Reading a text completely

`Reads` says of a reading that it takes exactly a given text, in front of another one, and what it
gives.  There is one rule for each way to build a reading; a loop is followed by `Runs`, round by
round.  Nothing else is touched: no here-document is awaited and no comment is left over.
-/

namespace RecipeLint

namespace Reading

variable {α β : Type} {rounds : Nat} {pos : Position} {front text back : List Char} {value : α}
  {result : β}

/-- The reading takes exactly the text in front of `back`, which starts at the position. -/
def Reads (rounds : Nat) (reading : Reading α) (pos : Position) (text back : List Char)
    (value : α) :
    Prop :=
  ∀ state : ReadState, state.awaited = [] → state.comments = [] → state.cursor.position = pos →
    state.cursor.rest = text ++ back → (text ++ back).length < rounds →
      reading state = .ok (value, state.skip text.length)

namespace Reads

theorem pure (value : α) : Reads rounds (Pure.pure value : Reading α) pos [] back value :=
  fun _ _ _ _ _ _ => rfl

theorem bind {reading : Reading α} {next : α → Reading β}
    (first : Reads rounds reading pos front (text ++ back) value)
    (later : Reads rounds (next value) (pos.along front) text back result) :
    Reads rounds (reading >>= next) pos (front ++ text) back result := by
  intro state awaited comments here shape enough
  rw [List.append_assoc] at shape enough
  have run := first state awaited comments here shape enough
  have moved := ReadState.skip_position shape
  have fewer : (text ++ back).length < rounds := by
    rw [List.length_append] at enough
    omega
  rw [bind_ok run, List.length_append, ReadState.skip_add]
  exact later _ awaited comments (by rw [moved, here]) (ReadState.skip_rest shape) fewer

/-- Behind the last reading that takes something, nothing is left to take. -/
theorem bindLast {reading : Reading α} {next : α → Reading β}
    (first : Reads rounds reading pos text back value)
    (later : Reads rounds (next value) (pos.along text) [] back result) :
    Reads rounds (reading >>= next) pos text back result := by
  have whole : Reads rounds (reading >>= next) pos (text ++ []) back result := bind first later
  rwa [List.append_nil] at whole

/-- In front of the first reading that takes something, nothing is taken. -/
theorem bindFirst {reading : Reading α} {next : α → Reading β}
    (first : Reads rounds reading pos [] (text ++ back) value)
    (later : Reads rounds (next value) pos text back result) :
    Reads rounds (reading >>= next) pos text back result :=
  bind first later

theorem map {reading : Reading α} (change : α → β)
    (reads : Reads rounds reading pos text back value) :
    Reads rounds (change <$> reading) pos text back (change value) := by
  have whole : Reads rounds (reading >>= fun value => Pure.pure (change value)) pos text back _ :=
    bindLast reads (pure _)
  exact whole

theorem here {next : Position → Reading β} (later : Reads rounds (next pos) pos text back result) :
    Reads rounds (Reading.here >>= next) pos text back result := by
  intro state awaited comments here
  rw [here_bind, here]
  exact later state awaited comments here

theorem rest {next : List Char → Reading β}
    (later : Reads rounds (next (text ++ back)) pos text back result) :
    Reads rounds (Reading.rest >>= next) pos text back result := by
  intro state awaited comments here shape
  rw [rest_bind, shape]
  exact later state awaited comments here shape

theorem current {next : Option Char → Reading β}
    (later : Reads rounds (next (text ++ back).head?) pos text back result) :
    Reads rounds (Reading.current >>= next) pos text back result := by
  intro state awaited comments here shape
  rw [current_bind, shape]
  exact later state awaited comments here shape

theorem cursor {next : Cursor → Reading β}
    (later : ∀ cursor : Cursor, cursor.rest = text ++ back →
      Reads rounds (next cursor) pos text back result) :
    Reads rounds (Reading.cursor >>= next) pos text back result :=
  fun state awaited comments here shape => later _ shape state awaited comments here shape

theorem wordAt {words : List String} {next : Option String → Reading β}
    (later : ∀ cursor : Cursor, cursor.rest = text ++ back →
      Reads rounds (next (words.find? cursor.atWord)) pos text back result) :
    Reads rounds (wordAt? words >>= next) pos text back result :=
  fun state awaited comments here shape => later _ shape state awaited comments here shape

theorem redirectAt {next : Option RedirectHead → Reading β}
    (later : Reads rounds (next (RedirectHead.starting? (text ++ back))) pos text back result) :
    Reads rounds (redirectAt? >>= next) pos text back result := by
  intro state awaited comments here shape
  rw [redirectAt_bind, shape]
  exact later state awaited comments here shape

theorem skipped (text : List Char) : Reads rounds (Reading.skip text.length) pos text back () :=
  fun _ _ _ _ _ _ => rfl

theorem skip (front : List Char) {next : Reading β}
    (later : Reads rounds next (pos.along front) text back result) :
    Reads rounds (Reading.skip front.length >>= fun _ => next) pos (front ++ text) back result :=
  bind (skipped front) later

/-- A text that consists of blanks, in front of one that does not start with any. -/
structure Blank (blank back : List Char) : Prop where
  spaces : blank = [] ∨ blank = [' ']
  tight : isTight back = true

theorem skippedBlanks {blank : List Char} (blanks : Blank blank back) :
    Reads rounds Reading.skipBlanks pos blank back () := by
  intro state awaited comments here shape enough
  rw [skipBlanks_apply]
  rcases blanks.spaces with rfl | rfl
  · rw [ReadState.skipBlanks_of_isTight (by rw [shape]; exact blanks.tight)]
    rfl
  · rw [ReadState.skipBlanks_of_space shape blanks.tight]
    rfl

theorem skipBlanks {blank : List Char} {next : Reading β} (blanks : Blank blank (text ++ back))
    (later : Reads rounds next (pos.along blank) text back result) :
    Reads rounds (Reading.skipBlanks >>= fun _ => next) pos (blank ++ text) back result :=
  bind (skippedBlanks blanks) later

theorem tight {next : Reading β} (tight : isTight (text ++ back) = true)
    (later : Reads rounds next pos text back result) :
    Reads rounds (Reading.skipBlanks >>= fun _ => next) pos text back result :=
  skipBlanks ⟨.inl rfl, tight⟩ later

theorem takeComments (items : List Item) :
    Reads rounds (Reading.takeComments items) pos [] back items :=
  fun _ _ comments _ _ _ => takeComments_idle comments

theorem newline (inner : Inner) : Reads rounds (Reading.newline inner) pos ['\n'] back () :=
  fun _ awaited _ _ _ _ => newline_idle awaited

end Reads

/-- A loop whose rounds take exactly the text. -/
inductive Runs (rounds : Nat) (step : α → Reading (Round α β)) :
    α → Position → List Char → List Char → β → Prop
  | done {value : α} {pos : Position} {text back : List Char} {result : β}
      (last : Reads rounds (step value) pos text back (.done result)) :
      Runs rounds step value pos text back result
  | again {value next : α} {pos : Position} {front text back : List Char} {result : β}
      (filled : front ≠ [])
      (round : Reads rounds (step value) pos front (text ++ back) (.again next))
      (later : Runs rounds step next (pos.along front) text back result) :
      Runs rounds step value pos (front ++ text) back result

theorem Runs.iterate {step : α → Reading (Round α β)}
    (runs : Runs rounds step value pos text back result) :
    Reads rounds (Reading.iterate step rounds value) pos text back result := by
  suffices every : ∀ fuel, (text ++ back).length < fuel →
      Reads rounds (Reading.iterate step fuel value) pos text back result by
    intro state awaited comments here shape enough
    exact every rounds enough state awaited comments here shape enough
  intro fuel few
  obtain ⟨fuel, rfl⟩ : ∃ less, fuel = less + 1 := ⟨fuel - 1, by omega⟩
  induction runs generalizing fuel with
  | done last => exact Reads.bindLast last (.pure _)
  | @again value next pos front text back result filled round later ih =>
      have long := List.length_pos_iff.mpr filled
      simp only [List.length_append] at few ih
      obtain ⟨fuel, rfl⟩ : ∃ less, fuel = less + 1 := ⟨fuel - 1, by omega⟩
      exact round.bind (ih fuel (by omega))

end Reading
end RecipeLint
