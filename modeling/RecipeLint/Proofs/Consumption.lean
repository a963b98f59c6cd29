import RecipeLint.Proofs.Heads
import RecipeLint.Proofs.Running

/-!
# What readings consume

Every reading moves its cursor forward over some text.  `Moves` relates a run to a language of the
texts that it may consume.  Two languages matter: a `Settled` text does not end with a newline
unless a backslash escapes it, and a `Firm` text is settled and not empty.  Constructs that are
complete in themselves consume firm texts, so every round of every loop consumes something, and none
of them swallows the newline that ends its line.
-/

namespace RecipeLint

variable {text front back : List Char} {c : Char}

/-- A text that does not end with a newline, unless a backslash escapes it. -/
def Settled (text : List Char) : Prop :=
  ∀ front, text = front ++ ['\n'] → front.getLast? = some '\\'

/-- A text that is settled and not empty. -/
def Firm (text : List Char) : Prop :=
  text ≠ [] ∧ Settled text

theorem Settled.nil : Settled [] := by
  intro front ends
  simp at ends

theorem Firm.settled (firm : Firm text) : Settled text := firm.2

theorem Firm.of_last (plain : c ≠ '\n') : Firm (front ++ [c]) := by
  refine ⟨by simp, fun other ends => ?_⟩
  have last := congrArg List.getLast? ends
  simp [plain] at last

theorem Firm.single (plain : c ≠ '\n') : Firm [c] :=
  @of_last [] c plain

theorem Firm.of_getLast (plain : text.getLast?.any (· ≠ '\n') = true) :
    Firm text := by
  obtain ⟨c, last, other⟩ : ∃ c, text.getLast? = some c ∧ c ≠ '\n' := by
    simpa [Option.any_eq_true] using plain
  obtain ⟨front, rfl⟩ := List.getLast?_eq_some_iff.mp last
  exact of_last other

theorem Firm.escaped_newline : Firm ['\\', '\n'] := by
  refine ⟨by simp, fun front ends => ?_⟩
  have init := congrArg List.dropLast ends
  rw [List.dropLast_concat] at init
  rw [← init]
  rfl

theorem Firm.escape (text : List Char) : Firm (('\\' :: text).take 2) := by
  cases text with
  | nil => exact single (by decide)
  | cons c text =>
      by_cases newline : c = '\n'
      · subst newline
        exact escaped_newline
      · exact @of_last ['\\'] c newline

/-- Whatever stands in front of a firm text, the whole is firm. -/
theorem Firm.behind (front : List Char) (firm : Firm back) :
    Firm (front ++ back) := by
  refine ⟨by simp [firm.1], fun other ends => ?_⟩
  have whole := (List.dropLast_concat_getLast firm.1).symm
  rw [whole, ← List.append_assoc] at ends
  obtain ⟨rfl, same⟩ := List.append_inj' ends rfl
  have escaped := firm.2 back.dropLast (whole.trans (by rw [same]))
  rw [List.getLast?_append, escaped]
  rfl

theorem Settled.append (first : Settled front) (second : Settled back) :
    Settled (front ++ back) := by
  by_cases empty : back = []
  · simpa [empty] using first
  · exact (Firm.behind front ⟨empty, second⟩).2

theorem Firm.append (first : Firm front) (second : Settled back) :
    Firm (front ++ back) :=
  ⟨by simp [first.1], first.2.append second⟩

theorem Settled.of_forall (plain : ∀ c ∈ text, c ≠ '\n') : Settled text := by
  rintro front rfl
  exact absurd rfl (plain '\n' (by simp))

theorem Firm.take {count : Nat} (found : text[count]? = some c)
    (plain : c ≠ '\n') : Firm (text.take (count + 1)) := by
  rw [List.take_add_one, found]
  exact of_last plain

theorem Firm.first (found : text.head? = some c) (plain : c ≠ '\n') :
    Firm (text.take 1) := by
  obtain ⟨rest, rfl⟩ := List.head?_eq_some_iff.mp found
  exact single plain

theorem Firm.recognised {cursor : Cursor} {text : String} (starts : cursor.startsWith text = true)
    (plain : text.toList.getLast?.any (· ≠ '\n') = true) :
    Firm (cursor.rest.take text.length) := by
  rw [Cursor.take_of_startsWith starts]
  exact of_getLast plain

theorem blankRun_settled (text : List Char) : Settled (text.take (blankRun text)) := by
  fun_induction blankRun text with
  | case1 rest ih | case2 rest ih | case3 rest ih =>
      exact (Firm.single (by decide)).settled.append ih
  | case4 rest ih => exact Firm.escaped_newline.settled.append ih
  | case5 => exact Settled.nil

namespace Reading

variable {α β : Type}

/-- What a round of a loop consumes: one language if another round follows, else another. -/
abbrev Turn (again : List Char → Prop) (done : β → List Char → Prop) :
    Round α β → List Char → Prop :=
  Round.elim (fun _ => again) done

/-- A run that, if it succeeds, has moved its cursor over a text of the language that goes with its
value. -/
def Moves (language : α → List Char → Prop) (start : ReadState) (outcome : Outcome α) : Prop :=
  Ends (fun _ => True)
    (fun value after => ∃ text, Cursor.Passes text start.cursor after.cursor ∧ language value text)
    outcome

namespace Moves

variable {language : α → List Char → Prop} {goal : β → List Char → Prop} {state : ReadState}
  {outcome : Outcome α} {reading : Reading α} {next : α → Reading β}

theorem imp {wider : α → List Char → Prop} (moves : Moves language state outcome)
    (weaken : ∀ value text, language value text → wider value text) :
    Moves wider state outcome :=
  Ends.imp moves fun value _ ⟨text, passes, fits⟩ => ⟨text, passes, weaken value text fits⟩

theorem bind (first : Moves language state (reading state))
    (later : ∀ value after text, Cursor.Passes text state.cursor after.cursor →
      language value text →
        Moves (fun result back => goal result (text ++ back)) after (next value after)) :
    Moves goal state ((reading >>= next) state) :=
  Ends.bind first fun value after ⟨text, passes, fits⟩ =>
    Ends.imp (later value after text passes fits) fun _ _ ⟨back, further, reached⟩ =>
      ⟨text ++ back, passes.trans further, reached⟩

theorem done {value : α} (fits : language value []) : Moves language state (.ok (value, state)) :=
  ⟨[], .refl _, fits⟩

/-- A change of the state that leaves the cursor alone. -/
theorem kept {value : α} {after : ReadState} (same : after.cursor = state.cursor)
    (fits : language value []) : Moves language state (.ok (value, after)) :=
  ⟨[], same ▸ .refl _, fits⟩

theorem returning {change : α → β} (moves : Moves language state (reading state))
    (carried : ∀ value text, language value text → goal (change value) text) :
    Moves goal state ((do return change (← reading) : Reading β) state) :=
  moves.bind fun value _ text _ fits => done (by simpa using carried value text fits)

theorem map {change : α → β} (moves : Moves language state (reading state))
    (carried : ∀ value text, language value text → goal (change value) text) :
    Moves goal state ((change <$> reading) state) :=
  moves.returning carried

/-- A run from behind some text, seen from in front of it. -/
theorem after {text : List Char} {middle : ReadState}
    (passes : Cursor.Passes text state.cursor middle.cursor)
    (later : Moves (fun value back => language value (text ++ back)) middle outcome) :
    Moves language state outcome :=
  Ends.imp later fun _ _ ⟨back, further, fits⟩ => ⟨text ++ back, passes.trans further, fits⟩

theorem skip (count : Nat)
    (later : Moves (fun value back => language value (state.cursor.rest.take count ++ back))
      (state.skip count) outcome) : Moves language state outcome :=
  after (Cursor.advance_passes count state.cursor) later

theorem skipBlanks
    (later : ∀ text, Settled text →
      Moves (fun value back => language value (text ++ back)) state.skipBlanks outcome) :
    Moves language state outcome :=
  after (Cursor.advance_passes _ state.cursor) (later _ (blankRun_settled state.cursor.rest))

theorem failed {error : ParseError} : Moves language state (.error error) := trivial

/-- A reading that consumes a firm text may follow any other. -/
theorem bindFirm (first : Moves language state (reading state))
    (later : ∀ value after, Moves (fun _ => Firm) after (next value after)) :
    Moves (fun _ => Firm) state ((reading >>= next) state) :=
  bind first fun value after text _ _ => (later value after).imp fun _ _ => Firm.behind text

theorem bindSettled (first : Moves (fun _ => Settled) state (reading state))
    (later : ∀ value after, Moves (fun _ => Settled) after (next value after)) :
    Moves (fun _ => Settled) state ((reading >>= next) state) :=
  bind first fun value after _ _ settled => (later value after).imp fun _ _ => settled.append

/-- A firm text stays firm if a settled one follows. -/
theorem firmBind (first : Moves (fun _ => Firm) state (reading state))
    (later : ∀ value after, Moves (fun _ => Settled) after (next value after)) :
    Moves (fun _ => Firm) state ((reading >>= next) state) :=
  bind first fun value after _ _ firm => (later value after).imp fun _ _ => firm.append

/-- A last reading that consumes a firm text because of where the first one has stopped. -/
theorem bindStopped {post : α → ReadState → Prop} (first : Moves language state (reading state))
    (stops : Ends (fun _ => True) post (reading state))
    (later : ∀ value after, post value after → Moves (fun _ => Firm) after (next value after)) :
    Moves (fun _ => Firm) state ((reading >>= next) state) :=
  Ends.bind (first.and stops) fun value after ⟨⟨text, passes, _⟩, stopped⟩ =>
    Ends.imp (later value after stopped) fun _ _ ⟨back, further, firm⟩ =>
      ⟨text ++ back, passes.trans further, firm.behind text⟩

/-- Consumption of any text at all. -/
theorem bindAny (first : Moves language state (reading state))
    (later : ∀ value after, Moves (fun _ _ => True) after (next value after)) :
    Moves (fun _ _ => True) state ((reading >>= next) state) :=
  bind first fun value after _ _ _ => later value after

theorem firm (moves : Moves (fun (_ : α) => Firm) state outcome) :
    Moves (fun _ => Settled) state outcome :=
  moves.imp fun _ _ => Firm.settled

theorem any (moves : Moves language state outcome) : Moves (fun _ _ => True) state outcome :=
  moves.imp fun _ _ _ => trivial

theorem filled {done : β → List Char → Prop} {outcome : Outcome (Round α β)}
    (moves : Moves (Turn Firm done) state outcome) : Moves (Turn (· ≠ []) done) state outcome :=
  moves.imp fun result _ fits => by
    cases result with
    | again _ => exact fits.1
    | done _ => exact fits

/-- A round after blanks. -/
theorem behind {outcome : Outcome (Round α β)} {blanks : List Char}
    (moves : Moves (Turn Firm fun _ => Settled) state outcome) (settled : Settled blanks) :
    Moves (fun result text => Turn Firm (fun _ => Settled) result (blanks ++ text)) state outcome :=
  moves.imp fun result _ fits => by
    cases result with
    | again _ => exact Firm.behind blanks fits
    | done _ => exact settled.append fits

/-- A round that adds one more construct consumes that construct's text. -/
theorem adding {γ : Type} {done : β → List Char → Prop} {value : α → γ}
    (moves : Moves (fun _ => Firm) state (reading state)) :
    Moves (Turn Firm done) state
      ((do return .again (value (← reading)) : Reading (Round γ β)) state) :=
  moves.returning fun _ _ firm => firm

theorem skipFirm (count : Nat) (later : Moves (fun (_ : α) => Firm) (state.skip count) outcome) :
    Moves (fun _ => Firm) state outcome :=
  skip count (later.imp fun _ _ => Firm.behind _)

theorem skipAny (count : Nat) (later : Moves (fun (_ : α) _ => True) (state.skip count) outcome) :
    Moves (fun _ _ => True) state outcome :=
  skip count later

theorem blanksFirm (later : Moves (fun (_ : α) => Firm) state.skipBlanks outcome) :
    Moves (fun _ => Firm) state outcome :=
  skipBlanks fun text _ => later.imp fun _ _ => Firm.behind text

theorem blanksSettled (later : Moves (fun (_ : α) => Settled) state.skipBlanks outcome) :
    Moves (fun _ => Settled) state outcome :=
  skipBlanks fun _ settled => later.imp fun _ _ => settled.append

theorem blanksAny (later : Moves (fun (_ : α) _ => True) state.skipBlanks outcome) :
    Moves (fun _ _ => True) state outcome :=
  skipBlanks fun _ _ => later

/-- Moving past a last piece of text. -/
theorem ended {value : α} {count : Nat} (fits : language value (state.cursor.rest.take count)) :
    Moves language state (.ok (value, state.skip count)) :=
  ⟨_, Cursor.advance_passes count state.cursor, fits⟩

/-- Moving past a last text that has been recognised. -/
theorem recognised {value : α} {text : String} (starts : state.cursor.startsWith text = true)
    (plain : text.toList.getLast?.any (· ≠ '\n') = true) :
    Moves (fun _ => Firm) state (.ok (value, state.skip text.length)) :=
  ended (Firm.recognised starts plain)

/-- Moving past one last character that is no newline. -/
theorem last {value : α} {c : Char} (found : state.cursor.rest.head? = some c) (plain : c ≠ '\n') :
    Moves (fun _ => Firm) state (.ok (value, state.skip 1)) :=
  ended (Firm.first found plain)

/-- Reading a text of its own moves nothing. -/
theorem within (text : List Char) (pos : Position) (reading : Reading α) (state : ReadState) :
    Moves (fun _ => (· = [])) state (Reading.within text pos reading state) := by
  unfold Reading.within
  cases reading (.ofText text pos) with
  | ok _ => exact kept rfl rfl
  | error _ => exact failed

/-- A round that asks for another one leaves less to read. -/
theorem shorter {done : β → List Char → Prop} {outcome : Outcome (Round α β)} {value : α}
    {after : ReadState} (moves : Moves (Turn (· ≠ []) done) state outcome)
    (run : outcome = .ok (.again value, after)) :
    after.cursor.rest.length < state.cursor.rest.length := by
  obtain ⟨text, passes, filled⟩ := Ends.of_ok moves run
  exact passes.shorter filled

/-- The texts of all rounds and of the end make up the text of a loop. -/
theorem iterate {step : α → Reading (Round α β)} (again : List Char → Prop)
    (round : ∀ value state, Moves (Turn again goal) state (step value state))
    (closed : ∀ result front back, again front → goal result back → goal result (front ++ back))
    (rounds : Nat) (value : α) (state : ReadState) :
    Moves goal state (Reading.iterate step rounds value state) := by
  induction rounds generalizing value state with
  | zero => trivial
  | succ rounds ih =>
      refine (round value state).bind fun result after text _ fits => ?_
      cases result with
      | again value => exact (ih value after).imp fun result back => closed result text back fits
      | done result => exact done (by simpa using fits)

/-- Readings one after another. -/
theorem forM {γ : Type} {action : γ → Reading PUnit}
    (moves : ∀ value state, Moves (fun _ _ => True) state (action value state)) (values : List γ)
    (state : ReadState) : Moves (fun _ _ => True) state (values.forM action state) := by
  induction values generalizing state with
  | nil => exact .done trivial
  | cons value values ih => exact (moves value state).bindAny fun _ after => ih after

/-- A loop whose rounds consume firm texts either ends in its first round or consumes a firm
text. -/
theorem iterateFirm {step : α → Reading (Round α β)} {done : α → β → List Char → Prop}
    (round : ∀ value state, Moves (Turn Firm (done value)) state (step value state))
    (settles : ∀ value result text, done value result text → Settled text)
    (rounds : Nat) (value : α) (state : ReadState) :
    Moves (fun result text => done value result text ∨ Firm text) state
      (Reading.iterate step rounds value state) := by
  induction rounds generalizing value state with
  | zero => trivial
  | succ rounds ih =>
      refine (round value state).bind fun result after text _ fits => ?_
      cases result with
      | again value =>
          refine (ih value after).imp fun result back reached => .inr ?_
          rcases reached with ended | firm
          · exact Firm.append fits (settles value result back ended)
          · exact firm.behind text
      | done result => exact .done (.inl (by simpa using fits))

/-- A loop whose rounds consume something consumes some text. -/
theorem loopAny {step : α → Reading (Round α β)} {again : List Char → Prop}
    {done : α → β → List Char → Prop}
    (round : ∀ value state, Moves (Turn again (done value)) state (step value state))
    (rounds : Nat) (value : α) (state : ReadState) :
    Moves (fun _ _ => True) state (Reading.iterate step rounds value state) :=
  iterate (fun _ => True) (fun value state => (round value state).imp fun result _ _ => by
    cases result <;> trivial) (fun _ _ _ _ _ => trivial) rounds value state

/-- A loop whose rounds consume something either ends in its first round or consumes something. -/
theorem iterateFilled {step : α → Reading (Round α β)} {done : α → β → List Char → Prop}
    (round : ∀ value state, Moves (Turn (· ≠ []) (done value)) state (step value state))
    (rounds : Nat) (value : α) (state : ReadState) :
    Moves (fun result text => done value result text ∨ text ≠ []) state
      (Reading.iterate step rounds value state) := by
  cases rounds with
  | zero => trivial
  | succ rounds =>
      refine (round value state).bind fun result after text _ fits => ?_
      cases result with
      | again value =>
          refine (loopAny round rounds value after).imp fun _ back _ => .inr ?_
          exact List.append_ne_nil_of_left_ne_nil fits back
      | done result => exact .done (.inl (by simpa using fits))

end Moves
end Reading

end RecipeLint
