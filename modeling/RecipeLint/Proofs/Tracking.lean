import RecipeLint.Proofs.Progress.Commands

/-!
# Runs that track each other

Two runs of a reading from the same place, with different bounds on rounds and depth, and the second
one with some more here-documents read before.  The second run tracks the first one if it ends
likewise.  `Bounds` says which bounds the runs may reach.  A reading is followed through both runs
at once, one rule for each way to build a reading, together with a bound on what is left to read: a
reading that starts in front of some text comes to the inside of a construct with less of it. -/

namespace RecipeLint

/-- Whether a text is refused only because a bound on rounds or depth has been reached. -/
def Cause.isBound : Cause → Bool
  | .tooDeep | .exhausted => true
  | _ => false

/-- The bounds that two runs may reach. -/
structure Bounds where
  /-- Bounds that both runs reach at the same place. -/
  both : Cause → Prop
  /-- Bounds that the first run may reach alone. -/
  alone : Cause → Prop

namespace Bounds

open Reading

variable {α β : Type} (bounds : Bounds)

/-- The second outcome is the first one with some more here-documents, unless the first run has
reached a bound.  At most `left` characters are left. -/
def Matches (left : Nat) (spare : Bodies) : Outcome α → Outcome α → Prop
  | .ok (value, after), second =>
      after.cursor.rest.length ≤ left ∧ second = .ok (value, after.knowing spare)
  | .error error, second => bounds.alone error.cause ∨
      (error.cause.isBound = true → bounds.both error.cause) ∧ second = .error error

/-- The second reading tracks the first one from every place with a text of the given kind and of at
most `size` characters left to read. -/
def Tracks (kind : List Char → Prop) (size : Nat) (first second : Reading α) : Prop :=
  ∀ (spare : Bodies) (state : ReadState), kind state.cursor.rest →
    state.cursor.rest.length ≤ size →
      bounds.Matches state.cursor.rest.length spare (first state) (second (state.knowing spare))

/-- Tracking from every place. -/
abbrev TracksAll (size : Nat) (first second : Reading α) : Prop :=
  bounds.Tracks (fun _ => True) size first second

variable {bounds} {kind : List Char → Prop} {size : Nat}

theorem Matches.larger {less left : Nat} (le : less ≤ left) {spare : Bodies}
    {first second : Outcome α} (matched : bounds.Matches less spare first second) :
    bounds.Matches left spare first second := by
  match first, matched with
  | .ok (value, after), ⟨fewer, same⟩ => exact ⟨Nat.le_trans fewer le, same⟩
  | .error _, matched => exact matched

/-- Outcomes still match behind what is read next if they match there for the value that was
read. -/
theorem Matches.bind {left : Nat} {spare : Bodies} {state state' : ReadState}
    {first second : Reading α}
    {next next' : α → Reading β} (matched : bounds.Matches left spare (first state) (second state'))
    (later : ∀ value after, first state = .ok (value, after) → after.cursor.rest.length ≤ left →
      bounds.Matches left spare (next value after) (next' value (after.knowing spare))) :
    bounds.Matches left spare ((first >>= next) state) ((second >>= next') state') := by
  match run : first state, matched with
  | .ok (value, after), ⟨fewer, same⟩ =>
      rw [bind_ok run, bind_ok same]
      exact later value after run fewer
  | .error error, matched =>
      rw [bind_error run]
      rcases matched with alone | ⟨both, same⟩
      · exact .inl alone
      · exact .inr ⟨both, bind_error same⟩

namespace Tracks

variable {first second : Reading α}

theorem imp {wider : List Char → Prop} (tracks : bounds.Tracks wider size first second)
    (weaken : ∀ text, kind text → wider text) :
    bounds.Tracks kind size first second :=
  fun spare state here short => tracks spare state (weaken _ here) short

theorem all (tracks : bounds.TracksAll size first second) :
    bounds.Tracks kind size first second :=
  tracks.imp fun _ _ => trivial

theorem smaller {less : Nat} (le : less ≤ size) (tracks : bounds.Tracks kind size first second) :
    bounds.Tracks kind less first second :=
  fun spare state here short => tracks spare state here (Nat.le_trans short le)

theorem pure (value : α) : bounds.Tracks kind size (Pure.pure value) (Pure.pure value) :=
  fun _ _ _ _ => ⟨Nat.le_refl _, rfl⟩

theorem failAt (pos : Position) {cause : Cause} (refused : cause.isBound = false) :
    bounds.Tracks kind size (Reading.failAt pos cause : Reading α) (Reading.failAt pos cause) :=
  fun _ _ _ _ => .inr ⟨fun bound => absurd bound (by simp [refused]), rfl⟩

theorem fail {cause : Cause} (refused : cause.isBound = false) :
    bounds.Tracks kind size (Reading.fail cause : Reading α) (Reading.fail cause) :=
  fun _ _ _ _ => .inr ⟨fun bound => absurd bound (by simp [refused]), rfl⟩

theorem bind {next next' : α → Reading β} (tracks : bounds.Tracks kind size first second)
    (later : ∀ value, bounds.TracksAll size (next value) (next' value)) :
    bounds.Tracks kind size (first >>= next) (second >>= next') := by
  intro spare state here short
  refine (tracks spare state here short).bind fun value after _ left => ?_
  exact (later value spare after trivial (Nat.le_trans left short)).larger left

/-- Behind a reading that consumes something lies the inside of a construct. -/
theorem bindInside {next next' : α → Reading β} (tracks : bounds.Tracks kind size first second)
    (moves : ∀ state, Moves (fun _ text => text ≠ []) state (first state))
    (later : ∀ value, ∀ less < size, bounds.TracksAll less (next value) (next' value)) :
    bounds.Tracks kind size (first >>= next) (second >>= next') := by
  intro spare state here short
  refine (tracks spare state here short).bind fun value after run left => ?_
  obtain ⟨text, passes, filled⟩ := Ends.of_ok (moves state) run
  have fewer := passes.shorter filled
  exact (later value (size - 1) (by omega) spare after trivial (by omega)).larger left

theorem map (change : α → β) (tracks : bounds.Tracks kind size first second) :
    bounds.Tracks kind size (change <$> first) (change <$> second) :=
  tracks.bind fun value => pure (change value)

theorem here {next next' : Position → Reading β}
    (later : ∀ pos, bounds.Tracks kind size (next pos) (next' pos)) :
    bounds.Tracks kind size (Reading.here >>= next) (Reading.here >>= next') :=
  fun spare state holds short => later _ spare state holds short

theorem cursor {next next' : Cursor → Reading β}
    (later : ∀ cursor : Cursor, kind cursor.rest → cursor.rest.length ≤ size →
      bounds.Tracks (· = cursor.rest) size (next cursor) (next' cursor)) :
    bounds.Tracks kind size (Reading.cursor >>= next) (Reading.cursor >>= next') :=
  fun spare state holds short => later _ holds short spare state rfl short

theorem rest {next next' : List Char → Reading β}
    (later : ∀ text, kind text → text.length ≤ size →
      bounds.Tracks (· = text) size (next text) (next' text)) :
    bounds.Tracks kind size (Reading.rest >>= next) (Reading.rest >>= next') :=
  fun spare state holds short => later _ holds short spare state rfl short

theorem current {next next' : Option Char → Reading β}
    (later : ∀ c, bounds.Tracks (fun text => kind text ∧ text.head? = c) size (next c) (next' c)) :
    bounds.Tracks kind size (Reading.current >>= next) (Reading.current >>= next') :=
  fun spare state holds short => later _ spare state ⟨holds, rfl⟩ short

theorem wordAt {words : List String} {next next' : Option String → Reading β}
    (later : ∀ cursor : Cursor, kind cursor.rest → bounds.Tracks (· = cursor.rest) size
      (next (words.find? cursor.atWord)) (next' (words.find? cursor.atWord))) :
    bounds.Tracks kind size (wordAt? words >>= next) (wordAt? words >>= next') :=
  fun spare state holds short => later _ holds spare state rfl short

theorem redirectAt {next next' : Option RedirectHead → Reading β}
    (later : ∀ head, bounds.Tracks kind size (next head) (next' head)) :
    bounds.Tracks kind size (redirectAt? >>= next) (redirectAt? >>= next') :=
  fun spare state holds short => later _ spare state holds short

/-- Behind some characters, less is left to read. -/
theorem skipInto {less : Nat} (count : Nat)
    (drops : ∀ text, kind text → text.length ≤ size → text.length - count ≤ less)
    {next next' : Reading β} (later : bounds.TracksAll less next next') :
    bounds.Tracks kind size (Reading.skip count >>= fun _ => next)
      (Reading.skip count >>= fun _ => next') := by
  intro spare state here short
  have left : (state.skip count).cursor.rest.length = state.cursor.rest.length - count := by
    simp only [ReadState.skip_cursor, Cursor.advance_rest, List.length_drop]
  have few := left ▸ drops _ here short
  exact (later spare (state.skip count) trivial few).larger (by omega)

theorem skip (count : Nat) {next next' : Reading β} (later : bounds.TracksAll size next next') :
    bounds.Tracks kind size (Reading.skip count >>= fun _ => next)
      (Reading.skip count >>= fun _ => next') :=
  skipInto count (fun _ _ short => Nat.le_trans (Nat.sub_le ..) short) later

/-- Behind a text that is not empty lies the inside of a construct. -/
theorem skipInside {count : Nat} (positive : 0 < count) (filled : ∀ text, kind text → text ≠ [])
    {next next' : Reading β} (later : ∀ less < size, bounds.TracksAll less next next') :
    bounds.Tracks kind size (Reading.skip count >>= fun _ => next)
      (Reading.skip count >>= fun _ => next') := by
  intro spare state here short
  have present := List.length_pos_iff.mpr (filled _ here)
  have drops (text : List Char) (_ : kind text) (few : text.length ≤ size) :
      text.length - count ≤ size - 1 := by omega
  exact skipInto count drops (later (size - 1) (by omega)) spare state here short

theorem skipBlanks {next next' : Reading β} (later : bounds.TracksAll size next next') :
    bounds.Tracks kind size (Reading.skipBlanks >>= fun _ => next)
      (Reading.skipBlanks >>= fun _ => next') := by
  intro spare state _ short
  have left : state.skipBlanks.cursor.rest.length ≤ state.cursor.rest.length := by
    simp only [ReadState.skipBlanks_cursor, Cursor.skipBlanks_rest, List.length_drop]
    omega
  exact (later spare state.skipBlanks trivial (Nat.le_trans left short)).larger left

theorem skipped (count : Nat) :
    bounds.Tracks kind size (Reading.skip count) (Reading.skip count) :=
  skip count (pure ())

theorem ite {condition : Prop} [Decidable condition] {yes₁ yes₂ no₁ no₂ : Reading α}
    (yes : condition → bounds.Tracks kind size yes₁ yes₂) (no : ¬condition →
      bounds.Tracks kind size no₁ no₂) :
    bounds.Tracks kind size (if condition then yes₁ else no₁)
      (if condition then yes₂ else no₂) := by
  by_cases holds : condition
  · rw [if_pos holds, if_pos holds]
    exact yes holds
  · rw [if_neg holds, if_neg holds]
    exact no holds

/-- A change of the state that neither moves nor touches the here-documents read. -/
theorem modify {change : ReadState → ReadState}
    (stays : ∀ state : ReadState, (change state).cursor = state.cursor)
    (apart : ∀ (state : ReadState) spare, change (state.knowing spare) =
      (change state).knowing spare) :
    bounds.Tracks kind size (modify change : Reading PUnit) (modify change) := by
  intro spare state _ short
  exact ⟨Nat.le_of_eq (by rw [stays]), by rw [modify_apply, apart]⟩

theorem get {next next' : ReadState → Reading β}
    (blind : ∀ (state : ReadState) spare, next' (state.knowing spare) = next' state)
    (later : ∀ state, bounds.Tracks kind size (next state) (next' state)) :
    bounds.Tracks kind size (MonadState.get >>= next) (MonadState.get >>= next') := by
  intro spare state here short
  rw [get_bind, get_bind, blind]
  exact later state spare state here short

theorem moveTo {next : Cursor} (fewer : ∀ text, kind text → next.rest.length ≤ text.length) :
    bounds.Tracks kind size (move fun _ => next) (move fun _ => next) :=
  fun _ _ here _ => ⟨fewer _ here, rfl⟩

/-- A text of its own, of which nothing else is known. -/
theorem within {text : List Char} {pos : Position} {less : Nat} {first second : Reading α}
    (fits : text.length ≤ less) (tracks : bounds.TracksAll less first second) :
    bounds.Tracks kind size (Reading.within text pos first) (Reading.within text pos second) := by
  intro spare state _ short
  have matched := tracks [] (.ofText text pos) trivial fits
  rw [ReadState.knowing_nil] at matched
  match run : first (.ofText text pos), matched with
  | .ok (value, after), ⟨_, same⟩ =>
      simp only [Reading.within, run, same, ReadState.knowing_nil]
      exact ⟨Nat.le_refl _, rfl⟩
  | .error error, matched =>
      simp only [Reading.within, run]
      rcases matched with alone | ⟨both, same⟩
      · exact .inl alone
      · exact .inr ⟨both, by rw [same]⟩

theorem forM {γ : Type} {first second : γ → Reading PUnit}
    (tracks : ∀ value, bounds.TracksAll size (first value) (second value)) (values : List γ) :
    bounds.TracksAll size (values.forM first) (values.forM second) := by
  induction values with
  | nil => exact pure ()
  | cons value values ih => exact (tracks value).bind fun _ => ih

/-- Bounds on rounds under which loops over at most `size` characters run alike: the same bound, or
two that are not reached. -/
def Rounds (bounds : Bounds) (size rounds rounds' : Nat) : Prop :=
  rounds = rounds' ∧ bounds.both .exhausted ∨ size < rounds ∧ size < rounds'

/-- A loop whose rounds track each other, and consume something unless they are the last one. -/
theorem iterate {step step' : α → Reading (Round α β)} {done : α → β → List Char → Prop}
    (round : ∀ value, bounds.TracksAll size (step value) (step' value))
    (moves : ∀ value state, Moves (Turn (· ≠ []) (done value)) state (step value state))
    {rounds rounds' : Nat} (enough : Rounds bounds size rounds rounds') (value : α) :
    bounds.Tracks kind size (Reading.iterate step rounds value)
      (Reading.iterate step' rounds' value) := by
  intro spare state here short
  have few : rounds = rounds' ∧ bounds.both .exhausted ∨
      state.cursor.rest.length < rounds ∧ state.cursor.rest.length < rounds' :=
    enough.imp_right fun ⟨first, second⟩ =>
      ⟨Nat.lt_of_le_of_lt short first, Nat.lt_of_le_of_lt short second⟩
  clear enough here
  induction rounds generalizing rounds' value state with
  | zero =>
      rcases few with ⟨rfl, both⟩ | ⟨none, -⟩
      · exact .inr ⟨fun _ => both, rfl⟩
      · omega
  | succ rounds ih =>
      obtain ⟨rounds', rfl⟩ : ∃ rounds, rounds' = rounds + 1 :=
        ⟨rounds' - 1, by omega⟩
      have matched := round value spare state trivial short
      match run : step value state, matched with
      | .ok (.again next, after), ⟨left, same⟩ =>
          have shorter := Moves.shorter (moves value state) run
          rw [iterate_again run, iterate_again same]
          refine (ih next after (Nat.le_trans left short) ?_).larger left
          exact few.imp (fun ⟨eq, both⟩ => ⟨by omega, both⟩) fun _ => by omega
      | .ok (.done result, after), ⟨left, same⟩ =>
          rw [iterate_done run, iterate_done same]
          exact ⟨left, rfl⟩
      | .error error, matched =>
          have stopped : Reading.iterate step (rounds + 1) value state = .error error :=
            bind_error run
          rw [stopped]
          rcases matched with alone | ⟨both, same⟩
          · exact .inl alone
          · exact .inr ⟨both, bind_error same⟩

end Tracks

/-- Two levels whose productions track each other.  Statements and commands lie inside of some
construct, so that less is left in front of them than in front of an expansion. -/
structure Twins (bounds : Bounds) (size : Nat) (inner inner' : Inner) : Prop where
  moving : inner.Moving
  rounds : Tracks.Rounds bounds size inner.rounds inner'.rounds
  statements : ∀ less < size, ∀ stops,
    bounds.TracksAll less (inner.statements stops) (inner'.statements stops)
  command : ∀ less < size, bounds.TracksAll less inner.command inner'.command
  furtherConditional : ∀ less < size,
    bounds.Tracks (· ≠ []) less inner.furtherConditional inner'.furtherConditional
  expansion : ∀ quoted, bounds.TracksAll size (inner.expansion quoted) (inner'.expansion quoted)

theorem Twins.smaller {less : Nat} {inner inner' : Inner} (twins : bounds.Twins size inner inner')
    (le : less ≤ size) : bounds.Twins less inner inner' where
  moving := twins.moving
  rounds := twins.rounds.imp_right fun ⟨first, second⟩ =>
    ⟨Nat.lt_of_le_of_lt le first, Nat.lt_of_le_of_lt le second⟩
  statements fewer lt := twins.statements fewer (Nat.lt_of_lt_of_le lt le)
  command fewer lt := twins.command fewer (Nat.lt_of_lt_of_le lt le)
  furtherConditional fewer lt := twins.furtherConditional fewer (Nat.lt_of_lt_of_le lt le)
  expansion quoted := (twins.expansion quoted).smaller le

end Bounds
end RecipeLint
