import RecipeLint.Proofs.Consumption
import RecipeLint.Proofs.Drafts

/-!
# What readings yield

A reading starts and ends at a stage: a place in the text, and the redirections read so far.  What
it yields is a draft at every later stage.  `Yields` says this of a reading, given what is known of
the values read before, and about texts that it starts and stops in front of; there is one rule for
each way to build a reading.  Whatever fails, fails at a position of the source. -/

namespace RecipeLint

/-- How far a text has been read. -/
structure Stage where
  cursor : Cursor
  redirects : List Redirect

namespace Stage

/-- What a list of statements may wait for. -/
def pending (stage : Stage) : Pending where
  ended pos := stage.cursor.rest = [] ∧ stage.cursor.position = pos
  redirects := stage.redirects

/-- What the inside of brackets may wait for: more text certainly follows. -/
def inside (stage : Stage) : Pending where
  ended _ := False
  redirects := stage.redirects

/-- The second stage follows the first one. -/
structure Leads (before after : Stage) : Prop where
  passes : ∃ text, Cursor.Passes text before.cursor after.cursor
  kept : before.redirects ⊆ after.redirects
  later : ∀ it ∈ after.redirects, it ∈ before.redirects ∨ ¬it.pos.Before before.cursor.position

namespace Leads

variable {before middle after : Stage}

theorem refl (stage : Stage) : stage.Leads stage :=
  ⟨⟨[], .refl _⟩, List.Subset.refl _, fun _ => .inl⟩

theorem trans (first : before.Leads middle) (second : middle.Leads after) : before.Leads after where
  passes := by
    obtain ⟨front, passes⟩ := first.passes
    obtain ⟨back, further⟩ := second.passes
    exact ⟨front ++ back, passes.trans further⟩
  kept := List.Subset.trans first.kept second.kept
  later it member := by
    rcases second.later it member with old | new
    · exact first.later it old
    · obtain ⟨text, passes⟩ := first.passes
      rw [passes.position_eq] at new
      exact .inr fun before => new (before.along text)

theorem inside (leads : before.Leads after) : before.inside.Le after.inside :=
  ⟨fun _ => id, leads.kept⟩

theorem pending (leads : before.Leads after) : before.pending.Le after.pending where
  ended pos := by
    rintro ⟨ended, rfl⟩
    obtain ⟨text, passes⟩ := leads.passes
    have whole := passes.rest_eq
    rw [ended] at whole
    obtain ⟨rfl, rest⟩ := List.append_eq_nil_iff.mp whole.symm
    exact ⟨rest, passes.position_eq⟩
  redirects := leads.kept

end Leads

theorem inside_le_pending (stage : Stage) : stage.inside.Le stage.pending :=
  ⟨fun _ => False.elim, List.Subset.refl _⟩

/-- In front of more text, no comment has reached the end. -/
theorem pending_le_inside {stage : Stage} (more : stage.cursor.rest ≠ []) :
    stage.pending.Le stage.inside :=
  ⟨fun _ ended => more ended.1, List.Subset.refl _⟩

/-- The here-document belongs to a redirection that has been read. -/
def Announces (stage : Stage) (awaited : Awaited) : Prop :=
  ∃ redirect ∈ stage.redirects, redirect.op.takesBody = true ∧ awaited = .ofRedirect redirect

theorem Leads.announces {before after : Stage} {awaited : Awaited} (leads : before.Leads after)
    (announced : before.Announces awaited) : after.Announces awaited := by
  obtain ⟨redirect, member, rest⟩ := announced
  exact ⟨redirect, leads.kept member, rest⟩

end Stage

/-- The stage of a reading at which the given redirections have been read. -/
def ReadState.stage (state : ReadState) (redirects : List Redirect) : Stage :=
  ⟨state.cursor, redirects⟩

/-- The state of a reading whose results so far are drafts. -/
structure Sound (ground : Ground) (redirects : List Redirect) (state : ReadState) : Prop where
  lies : ground.Lies state.cursor.position state.cursor.rest
  comments : ∀ it ∈ state.comments, Made ground (state.stage redirects).pending (.comment it)
  awaited : ∀ it ∈ state.awaited, (state.stage redirects).Announces it
  bodies : ∀ entry ∈ state.bodies, ∃ redirect ∈ redirects, redirect.pos = entry.1 ∧
    redirect.Takes entry.2 ∧ Node.Everywhere (Finished ground) (.word entry.2)
  earlier : ∀ it ∈ redirects, it.pos.Before state.cursor.position
  single : ∀ it ∈ redirects, ∀ other ∈ redirects, it.pos = other.pos → it = other

namespace Sound

variable {ground : Ground} {redirects : List Redirect} {state : ReadState}

/-- The here-documents that have been read are ones that the redirections can take. -/
theorem takes (sound : Sound ground redirects state) :
    (state.stage redirects).pending.Takes state.bodies := by
  intro redirect member body found
  obtain ⟨front, back, split, -⟩ := List.lookup_eq_some_iff.mp found
  obtain ⟨other, present, same, takes, -⟩ := sound.bodies (redirect.pos, body) (by simp [split])
  obtain rfl := sound.single redirect member other present same.symm
  exact takes

theorem settled (sound : Sound ground redirects state) :
    ∀ entry ∈ state.bodies, Node.Everywhere (Finished ground) (.word entry.2) := by
  intro entry member
  obtain ⟨_, _, _, _, settled⟩ := sound.bodies entry member
  exact settled

/-- The cursor moves over some text. -/
theorem move (sound : Sound ground redirects state) {next : Cursor} {text : List Char}
    (passes : Cursor.Passes text state.cursor next) :
    Sound ground redirects { state with cursor := next } ∧
      (state.stage redirects).Leads (ReadState.stage { state with cursor := next } redirects) := by
  have leads : (state.stage redirects).Leads
      (ReadState.stage { state with cursor := next } redirects) :=
    ⟨⟨text, passes⟩, List.Subset.refl _, fun _ => .inl⟩
  refine ⟨⟨?_, ?_, sound.awaited, sound.bodies, ?_, sound.single⟩, leads⟩
  · have lies := sound.lies
    rw [passes.rest_eq] at lies
    rw [passes.position_eq]
    exact lies.behind
  · exact fun it member => (sound.comments it member).imp leads.pending
  · intro it member
    rw [passes.position_eq]
    exact (sound.earlier it member).along text

/-- A text that is read on its own. -/
theorem ofText {text : List Char} {pos : Position} (lies : ground.Lies pos text) :
    Sound ground [] (.ofText text pos) :=
  ⟨lies, nofun, nofun, nofun, nofun, nofun⟩

end Sound

open Reading

variable {α β : Type} {ground : Ground} {given : Stage → Prop} {kind : List Char → Prop}
  {stop : α → List Char → Prop} {post : Stage → α → Prop} {goal : β → List Char → Prop}
  {result : Stage → β → Prop}

/-- What a run from a stage comes to. -/
def Reached (ground : Ground) (given : Stage → Prop) (stop : α → List Char → Prop)
    (post : Stage → α → Prop) (before : Stage) (outcome : Outcome α) : Prop :=
  Ends (fun error => ground.Holds error.pos)
    (fun value after => ∃ redirects, before.Leads (after.stage redirects) ∧
      Sound ground redirects after ∧ stop value after.cursor.rest ∧
        ∀ later, (after.stage redirects).Leads later → given later → post later value) outcome

/-- From every sound state in front of a text of the given kind, the reading succeeds with a value
such that `stop` holds of it and the text behind, and `post` at all later stages at which `given`
holds, or fails at a position of the source. -/
def Yields (ground : Ground) (given : Stage → Prop) (kind : List Char → Prop) (reading : Reading α)
    (stop : α → List Char → Prop) (post : Stage → α → Prop) : Prop :=
  ∀ state redirects, Sound ground redirects state → kind state.cursor.rest →
    Reached ground given stop post (state.stage redirects) (reading state)

/-- A reading that yields drafts whatever is known. -/
abbrev YieldsFreely (ground : Ground) (kind : List Char → Prop) (reading : Reading α)
    (stop : α → List Char → Prop) (post : Stage → α → Prop) : Prop :=
  Yields ground (fun _ => True) kind reading stop post

/-- A reading that yields drafts whatever is known and whatever it is in front of. -/
abbrev YieldsAll (ground : Ground) (reading : Reading α) (post : Stage → α → Prop) : Prop :=
  YieldsFreely ground (fun _ => True) reading (fun _ _ => True) post

/-- The rounds of a loop that keep an invariant of its value, wherever they are. -/
abbrev YieldsRounds (ground : Ground) (invariant : Stage → α → Prop)
    (step : α → Reading (Round α β)) (result : Stage → β → Prop) : Prop :=
  ∀ value, Yields ground (invariant · value) (fun _ => True) (step value) (fun _ _ => True)
    fun stage turn => turn.elim (invariant stage) (result stage)

namespace Reached

theorem after {before middle : Stage} {outcome : Outcome α} (leads : before.Leads middle)
    (reached : Reached ground given stop post middle outcome) :
    Reached ground given stop post before outcome :=
  reached.imp fun _ _ ⟨redirects, further, rest⟩ => ⟨redirects, leads.trans further, rest⟩

theorem bind {before : Stage} {reading : Reading α} {next : α → Reading β} {state : ReadState}
    (reached : Reached ground given stop post before (reading state))
    (later : ∀ value, Yields ground (fun stage => given stage ∧ post stage value) (stop value)
      (next value) goal result) :
    Reached ground given goal result before ((reading >>= next) state) := by
  refine Ends.bind reached fun value after ⟨redirects, leads, sound, stopped, holds⟩ => ?_
  refine Reached.after leads ((later value after redirects sound stopped).imp ?_)
  rintro value last ⟨redirects, further, sound, stopped, reached⟩
  exact ⟨redirects, further, sound, stopped, fun later leads known =>
    reached later leads ⟨known, holds later (further.trans leads) known⟩⟩

/-- Behind a reading that depends on nothing, its value is there at once. -/
theorem next {before : Stage} {reading : Reading α} {next : α → Reading β} {state : ReadState}
    (reached : Reached ground (fun _ => True) stop post before (reading state))
    (later : ∀ value after redirects, before.Leads (after.stage redirects) →
      Sound ground redirects after →
      stop value after.cursor.rest → (∀ stage, (after.stage redirects).Leads stage →
        post stage value) →
        Reached ground given goal result (after.stage redirects) (next value after)) :
    Reached ground given goal result before ((reading >>= next) state) := by
  refine Ends.bind reached fun value after ⟨redirects, leads, sound, stopped, holds⟩ => ?_
  exact (later value after redirects leads sound stopped fun stage further =>
    holds stage further trivial).after leads

end Reached

namespace Yields

variable {reading : Reading α}

theorem imp {given' : Stage → Prop} {kind' : List Char → Prop} {stop' : α → List Char → Prop}
    {post' : Stage → α → Prop} (yields : Yields ground given kind reading stop post)
    (known : ∀ stage, given' stage → given stage) (here : ∀ text, kind' text → kind text)
    (stops : ∀ value text, stop value text → stop' value text)
    (holds : ∀ stage value, given' stage → post stage value → post' stage value) :
    Yields ground given' kind' reading stop' post' := by
  intro state redirects sound start
  refine (yields state redirects sound (here _ start)).imp ?_
  rintro value after ⟨redirects, leads, sound, stopped, reached⟩
  exact ⟨redirects, leads, sound, stops _ _ stopped, fun later leads known' =>
    holds later value known' (reached later leads (known later known'))⟩

/-- What holds in any case holds given something. -/
theorem any (yields : Yields ground (fun _ => True) kind reading stop post) :
    Yields ground given kind reading stop post :=
  yields.imp (fun _ _ => trivial) (fun _ => id) (fun _ _ => id) fun _ _ _ => id

/-- In front of any text. -/
theorem anywhere (yields : YieldsFreely ground (fun _ => True) reading stop post) :
    Yields ground given kind reading stop post :=
  yields.imp (fun _ _ => trivial) (fun _ _ => trivial) (fun _ _ => id) fun _ _ _ => id

/-- Where it does not matter what stands behind. -/
theorem stopless (yields : Yields ground given kind reading stop post) :
    Yields ground given kind reading (fun _ _ => True) post :=
  yields.imp (fun _ => id) (fun _ => id) (fun _ _ _ => trivial) fun _ _ _ => id

/-- In front of each of the texts in question. -/
theorem pin (yields : ∀ text, kind text → Yields ground given (· = text) reading stop post) :
    Yields ground given kind reading stop post :=
  fun state redirects sound start => yields _ start state redirects sound rfl

theorem pure {value : α} (stops : ∀ text, kind text → stop value text)
    (holds : ∀ stage, given stage → post stage value) :
    Yields ground given kind (Pure.pure value) stop post :=
  fun _ redirects sound start =>
    ⟨redirects, .refl _, sound, stops _ start, fun later _ => holds later⟩

/-- Where it does not matter what follows. -/
theorem returns {value : α} (holds : ∀ stage, given stage → post stage value) :
    Yields ground given kind (Pure.pure value) (fun _ _ => True) post :=
  pure (fun _ _ => trivial) holds

theorem idle {value : α} :
    Yields ground given kind (Pure.pure value) (fun _ _ => True) fun _ _ => True :=
  returns fun _ _ => trivial

theorem failAt {pos : Position} (holds : ground.Holds pos) (cause : Cause) :
    Yields ground given kind (Reading.failAt pos cause : Reading α) stop post :=
  fun _ _ _ _ => holds

theorem fail (cause : Cause) :
    Yields ground given kind (Reading.fail cause : Reading α) stop post :=
  fun _ _ sound _ => sound.lies.holds

theorem bind {next : α → Reading β} (yields : Yields ground given kind reading stop post)
    (later : ∀ value, Yields ground (fun stage => given stage ∧ post stage value) (stop value)
      (next value) goal result) :
    Yields ground given kind (reading >>= next) goal result :=
  fun state redirects sound start => (yields state redirects sound start).bind later

theorem map {change : α → β} (yields : Yields ground given kind reading stop post)
    (stops : ∀ value text, stop value text → goal (change value) text)
    (holds : ∀ stage value, post stage value → result stage (change value)) :
    Yields ground given kind (change <$> reading) goal result :=
  yields.bind fun value => pure (stops value) fun stage known => holds stage value known.2

theorem here {next : Position → Reading β}
    (later : ∀ pos text, kind text → ground.Lies pos text →
      Yields ground given (· = text) (next pos) goal result) :
    Yields ground given kind (Reading.here >>= next) goal result :=
  fun state redirects sound start => later _ _ start sound.lies state redirects sound rfl

/-- In front of a known text. -/
theorem hereAt {text : List Char} {next : Position → Reading β}
    (later : ∀ pos, ground.Lies pos text → Yields ground given (· = text) (next pos) goal result) :
    Yields ground given (· = text) (Reading.here >>= next) goal result := by
  refine here fun pos other same lies => ?_
  subst same
  exact later pos lies

theorem rest {next : List Char → Reading β}
    (later : ∀ text, kind text → Yields ground given (· = text) (next text) goal result) :
    Yields ground given kind (Reading.rest >>= next) goal result :=
  fun state redirects sound start => later _ start state redirects sound rfl

theorem restAt {text : List Char} {next : List Char → Reading β}
    (later : Yields ground given (· = text) (next text) goal result) :
    Yields ground given (· = text) (Reading.rest >>= next) goal result := by
  refine rest fun other same => ?_
  subst same
  exact later

theorem current {next : Option Char → Reading β}
    (later : ∀ text, kind text → Yields ground given (· = text) (next text.head?) goal result) :
    Yields ground given kind (Reading.current >>= next) goal result :=
  fun state redirects sound start => later _ start state redirects sound rfl

theorem cursor {next : Cursor → Reading β}
    (later : ∀ cursor : Cursor, kind cursor.rest →
      Yields ground given (· = cursor.rest) (next cursor) goal result) :
    Yields ground given kind (Reading.cursor >>= next) goal result :=
  fun state redirects sound start => later _ start state redirects sound rfl

theorem wordAt {words : List String} {next : Option String → Reading β}
    (later : ∀ found, Yields ground given kind (next found) goal result) :
    Yields ground given kind (wordAt? words >>= next) goal result :=
  fun state redirects sound start => later _ state redirects sound start

theorem redirectAt {next : Option RedirectHead → Reading β}
    (later : ∀ text, kind text →
      Yields ground given (· = text) (next (RedirectHead.starting? text)) goal result) :
    Yields ground given kind (redirectAt? >>= next) goal result :=
  fun state redirects sound start => later _ start state redirects sound rfl

/-- Behind some characters of a known text. -/
theorem skip {text : List Char} (count : Nat) {next : Reading β}
    (later : Yields ground given (· = text.drop count) next goal result) :
    Yields ground given (· = text) (Reading.skip count >>= fun _ => next) goal result := by
  intro state redirects sound start
  have moved := sound.move (Cursor.advance_passes count state.cursor)
  refine .after moved.2 (later (state.skip count) redirects moved.1 ?_)
  rw [ReadState.skip_cursor, Cursor.advance_rest, start]

/-- Behind some characters of any text. -/
theorem skipAny (count : Nat) {next : Reading β}
    (later : Yields ground given (fun _ => True) next goal result) :
    Yields ground given kind (Reading.skip count >>= fun _ => next) goal result := by
  intro state redirects sound start
  have moved := sound.move (Cursor.advance_passes count state.cursor)
  exact .after moved.2 (later (state.skip count) redirects moved.1 trivial)

theorem skipBlanks {next : Reading β}
    (later : Yields ground given (fun _ => True) next goal result) :
    Yields ground given kind (Reading.skipBlanks >>= fun _ => next) goal result := by
  intro state redirects sound start
  have moved := sound.move (Cursor.advance_passes (blankRun state.cursor.rest) state.cursor)
  exact .after moved.2 (later state.skipBlanks redirects moved.1 trivial)

theorem ite {condition : Prop} [Decidable condition] {yes no : Reading α}
    (first : condition → Yields ground given kind yes stop post)
    (second : ¬condition → Yields ground given kind no stop post) :
    Yields ground given kind (if condition then yes else no) stop post := by
  by_cases holds : condition
  · rw [if_pos holds]
    exact first holds
  · rw [if_neg holds]
    exact second holds

/-- A loop that keeps an invariant of its value and of the text in front of it. -/
theorem iterate {step : α → Reading (Round α β)} {kept : α → List Char → Prop}
    {invariant : Stage → α → Prop}
    (round : ∀ value, Yields ground (invariant · value) (kept value) (step value)
      (fun turn text => turn.elim (kept · text) (goal · text))
      (fun stage turn => turn.elim (invariant stage) (result stage)))
    {value : α} (start : ∀ stage, given stage → invariant stage value)
    (here : ∀ text, kind text → kept value text) {rounds : Nat} :
    Yields ground given kind (Reading.iterate step rounds value) goal result := by
  induction rounds generalizing given kind value with
  | zero => exact fail .exhausted
  | succ rounds ih =>
      refine ((round value).imp start here (fun _ _ => id) fun _ _ _ => id).bind fun turn => ?_
      cases turn with
      | again next => exact ih (fun _ known => known.2) fun _ => id
      | done value => exact .pure (fun _ => id) fun _ known => known.2

/-- A loop that keeps an invariant of its value, wherever it is. -/
theorem loop {step : α → Reading (Round α β)} {invariant : Stage → α → Prop}
    (round : YieldsRounds ground invariant step result) {value : α}
    (start : ∀ stage, given stage → invariant stage value) {rounds : Nat} :
    Yields ground given kind (Reading.iterate step rounds value) (fun _ _ => True) result := by
  refine @iterate _ _ _ _ _ _ _ _ (fun _ _ => True)
    _ (fun value => (round value).imp (fun _ => id) (fun _ => id)
    (fun turn _ _ => ?_) fun _ _ _ => id) _ start (fun _ _ => trivial) _
  cases turn <;> trivial

/-- What a text of its own comes to when it has been read. -/
def Done (ground : Ground) (stop : α → List Char → Prop) (post : Stage → α → Prop)
    (outcome : α × Bodies) : Prop :=
  ∃ state redirects, Sound ground redirects state ∧ state.bodies = outcome.2 ∧
    stop outcome.1 state.cursor.rest ∧ post (state.stage redirects) outcome.1

/-- Reading a text of its own leaves everything else as it is. -/
theorem within {text : List Char} {pos : Position} {reading : Reading α}
    (lies : ground.Lies pos text)
    (yields : Yields ground (fun _ => True) (· = text) reading stop post) :
    Yields ground given kind (Reading.within text pos reading)
      (fun outcome behind => kind behind ∧ Done ground stop post outcome) (fun _ _ => True) := by
  intro state redirects sound start
  have reached := yields (.ofText text pos) [] (.ofText lies) rfl
  unfold Reading.within
  match run : reading (.ofText text pos), reached with
  | .ok (value, inner), ⟨others, _, sound', stopped, holds⟩ =>
      exact ⟨redirects, .refl _, { sound with }, ⟨start, inner, others, sound', rfl, stopped,
        holds _ (.refl _) trivial⟩, fun _ _ _ => trivial⟩
  | .error _, reached => exact reached

end Yields

end RecipeLint
