import RecipeLint.Proofs.Scanning
import RecipeLint.Proofs.Seam

/-!
# Quoted parts across a seam

Two readings of texts that agree up to a mark, followed through scans, texts of their own and quoted
parts, given that the productions one level further in are followed.
-/

namespace RecipeLint
namespace Seam

open Reading

variable {front first second : List Char}

/-- Two levels whose productions are followed. -/
structure Level (seam : Seam) (inner inner' : Inner) : Prop where
  rounds : inner.rounds = seam.rounds
  rounds' : inner'.rounds = seam.rounds'
  moving : inner.Moving
  moving' : inner'.Moving
  statements : ∀ {p state state'} stops, seam.Paired p state state' →
    seam.Follows p (inner.statements stops state) (inner'.statements stops state')
  command : ∀ {p state state'}, seam.Paired p state state' →
    seam.Follows p (inner.command state) (inner'.command state')
  furtherConditional : ∀ {p state state'}, seam.Paired p state state' →
    seam.Follows p (inner.furtherConditional state) (inner'.furtherConditional state')
  expansion : ∀ {p state state'} quoted, seam.Paired p state state' →
    state.cursor.rest.head? = some '$' →
      seam.Follows p (inner.expansion quoted state) (inner'.expansion quoted state')

variable {seam : Seam} {inner inner' : Inner} {p : Phase} {state state' : ReadState}

/-- A loop of both levels, each of whose rounds is followed, and consumes something if another one
comes. -/
theorem Level.iterate {α β : Type} [Recastable α] [Recastable β] (level : seam.Level inner inner')
    {step : Inner → α → Reading (Round α β)} {done : α → β → List Char → Prop}
    (advances : ∀ {inner : Inner}, inner.Moving → ∀ value state,
      Moves (Turn (· ≠ []) (done value)) state (step inner value state))
    (round : ∀ {q value value' after after'}, p.Leads q → seam.Alike q value value' →
      seam.Paired q after after' → seam.Follows q (step inner value after)
        (step inner' value' after'))
    {value value' : α} (alike : seam.Alike p value value') (paired : seam.Paired p state state') :
    seam.Follows p (Reading.iterate (step inner) inner.rounds value state)
      (Reading.iterate (step inner') inner'.rounds value' state') := by
  rw [level.rounds, level.rounds']
  exact .iterate (advances level.moving) (advances level.moving') round alike paired

/-! ## Scans -/

/-- A scan that looks no further than the place it finds. -/
def Local (scan : List Char → Option β) (size : β → Nat) : Prop :=
  ∀ {front back result} (other : List Char), scan (front ++ back) = some result →
    size result < front.length → scan (front ++ other) = some result

theorem local_singleEnd? (escapes : Bool) : Local (singleEnd? escapes 0) id :=
  fun other found inside => singleEnd?_local other found (by simpa using inside)

theorem local_bracketEnd? {opening closing : Char} (distinct : opening ≠ closing) :
    Local (bracketEnd? opening closing 0 1) id :=
  fun other found inside => bracketEnd?_local distinct other found (by simpa using inside)

theorem local_backquoteText? : Local (backquoteText? [] 0) (·.2) :=
  fun other found inside => backquoteText?_local other found (by simpa using inside)

theorem Paired.short (paired : seam.Paired p state state') :
    state.cursor.rest.length < seam.rounds := by
  obtain ⟨front, first, second, apart⟩ := paired.cursors
  exact apart.short

theorem Paired.short' (paired : seam.Paired p state state') (kept : p ≠ .lost) :
    state'.cursor.rest.length < seam.rounds' := by
  obtain ⟨front, first, second, apart⟩ := paired.cursors
  exact apart.short' kept

theorem Paired.text (paired : seam.Paired p state state') : seam.text p state.cursor.rest := by
  obtain ⟨front, first, second, apart⟩ := paired.cursors
  exact apart.text

/-- A text of its own, read at positions that correspond. -/
theorem Paired.ofText {text : List Char} {pos pos' : Position}
    (along : ∀ change, seam.changes p change → change.Along text pos pos')
    (known : seam.text p.within text) (short : text.length < seam.rounds)
    (short' : p ≠ .lost → text.length < seam.rounds') :
    seam.Paired p.within (.ofText text pos) (.ofText text pos') where
  cursors := ⟨text, [], [], (List.append_nil text).symm, (List.append_nil text).symm,
    fun change admitted => along change (seam.changes_within.mp admitted),
    fun early => absurd early p.within_ne_before, fun early => absurd early p.within_ne_before,
    fun _ => ⟨rfl, rfl⟩, known, short, fun kept => short' (mt Phase.within_eq_lost.mpr kept)⟩
  awaited := .nil
  bodies := .nil
  comments := .nil
  awaits := by simp [ReadState.ofText]
  announced := by simp [ReadState.ofText]

/-- A text in front of the mark, read as a text of its own. -/
theorem Apart.window {cursor cursor' : Cursor} {count : Nat}
    (apart : seam.Apart p front first second cursor cursor') (within : p = .before →
      count ≤ front.length) :
    seam.Paired p.within (.ofText (cursor.rest.take count) cursor.position)
      (.ofText (cursor.rest.take count) cursor'.position) := by
  have taken : cursor.rest.take count = front.take count := by
    rw [apart.rest₁]
    by_cases early : p = .before
    · exact List.take_append_of_le_length (within early)
    · rw [(apart.ended early).1, List.append_nil]
  have shorter (rest : List Char) : (front.take count).length ≤ (front ++ rest).length := by
    simp only [List.length_take, List.length_append]
    omega
  refine .ofText (fun change admitted => ?_) (seam.text_within (seam.text_take count apart.text))
    ?_ fun kept => ?_
  · rw [taken]
    exact (apart.along change admitted).take count
  · rw [taken]
    exact Nat.lt_of_le_of_lt (apart.rest₁ ▸ shorter first) apart.short
  · rw [taken]
    exact Nat.lt_of_le_of_lt (apart.rest₂ ▸ shorter second) (apart.short' kept)

/-- Behind the mark the first reading goes on alone. -/
theorem Paired.cross {count : Nat} (paired : seam.Paired .before state state')
    (apart : seam.Apart .before front first second state.cursor state'.cursor)
    (beyond : front.length < count) : ∃ after', seam.Paired .lost (state.skip count) after' :=
  ⟨{ state' with cursor := state.cursor.advance count },
    paired.withCursors .lose ⟨_, _, _, apart.cross beyond⟩⟩

/-- What a scan finds in the first text is found in the second one, or it lies behind the mark. -/
theorem Paired.scan {β : Type} {scan : List Char → Option β} {size : β → Nat}
    (bounded : Local scan size) (paired : seam.Paired p state state') :
    (scan state'.cursor.rest = scan state.cursor.rest ∧
      ∀ {result}, scan state.cursor.rest = some result →
        state'.cursor.rest.take (size result) = state.cursor.rest.take (size result) ∧
          seam.Paired p (state.skip (size result + 1)) (state'.skip (size result + 1)) ∧
            seam.Paired p.within
              (.ofText (state.cursor.rest.take (size result)) state.cursor.position)
              (.ofText (state.cursor.rest.take (size result)) state'.cursor.position)) ∨
    p = .before ∧ ∃ front first second,
      seam.Apart .before front first second state.cursor state'.cursor ∧
        ∀ {result}, scan state.cursor.rest = some result → front.length ≤ size result := by
  obtain ⟨front, first, second, apart⟩ := paired.cursors
  by_cases early : p = .before
  · subst early
    cases found : scan state.cursor.rest with
    | none => exact .inr ⟨rfl, front, first, second, apart, nofun⟩
    | some result =>
        by_cases inside : size result < front.length
        · refine .inl ⟨?_, fun same => ?_⟩
          · rw [apart.rest₁] at found
            rw [apart.rest₂]
            exact bounded second found inside
          · cases same
            refine ⟨?_, paired.withCursors (.stay _) ⟨_, _, _, apart.advance fun _ => inside⟩,
              apart.window fun _ => Nat.le_of_lt inside⟩
            rw [apart.rest₁, apart.rest₂, List.take_append_of_le_length (by omega),
              List.take_append_of_le_length (by omega)]
        · refine .inr ⟨rfl, front, first, second, apart, fun same => ?_⟩
          cases same
          omega
  · refine .inl ⟨by rw [paired.rest_eq early], fun _ => ⟨by rw [paired.rest_eq early], ?_, ?_⟩⟩
    · exact paired.withCursors (.stay _)
        ⟨_, _, _, apart.advance fun before => absurd before early⟩
    · exact apart.window fun before => absurd before early

/-- A text of its own is read by both readings, and neither moves in its own text. -/
theorem Follows.within {α : Type} [Recastable α] {text : List Char} {pos₁ pos₂ : Position}
    {reading reading' : Reading α} (paired : seam.Paired p state state')
    (inner : seam.Follows p.within (reading (.ofText text pos₁)) (reading' (.ofText text pos₂))) :
    seam.Follows p (Reading.within text pos₁ reading state)
      (Reading.within text pos₂ reading' state') := by
  unfold Reading.within
  match run : reading (.ofText text pos₁), inner with
  | .error fault, inner =>
      rintro rfl
      obtain ⟨pos, reached, alike⟩ := inner rfl
      rw [reached]
      exact ⟨pos, rfl, alike⟩
  | .ok (value₁, after), ⟨q, value₂, after', leads, reached, alike, ended⟩ =>
      obtain rfl := leads.eq_of_within
      have both : seam.Alike p.within (value₁, after.bodies) (value₂, after'.bodies) :=
        fun change admitted => by
          rw [recast_pair, alike change admitted, ended.bodies change admitted]
      exact ⟨p, (value₂, after'.bodies), { state' with seen := after'.seen ++ state'.seen },
        .stay p,
        fun kept => by rw [reached (mt Phase.within_eq_lost.mp kept)], both.outside,
        { paired with }⟩

theorem placeItems_alike {bodies₁ bodies₂ : Bodies} {items₁ items₂ : List Item}
    (bodies : seam.Alike p bodies₁ bodies₂) (items : seam.Alike p items₁ items₂) :
    seam.Alike p (placeItems bodies₁ items₁) (placeItems bodies₂ items₂) := by
  intro change admitted
  rw [← bodies change admitted, ← items change admitted]
  have placed := recastItems_place (lookup_recastBodies change bodies₁) items₁
  simp only [recastItems_eq_map] at placed
  exact placed

/-- Text in backquotes lies in front of the mark. -/
theorem Apart.backquote {inside : List Char} {cursor cursor' : Cursor}
    {length : Nat} (apart : seam.Apart p front first second cursor cursor')
    (clean : ∀ {first second position}, seam.joint first second position → '\x60' ∉ first)
    (found : backquoteText? [] 0 cursor.rest = some (inside, length)) :
    backquoteText? [] 0 front = some (inside, length) := by
  by_cases early : p = .before
  · obtain ⟨count, reached, closed, -⟩ := backquoteText?_found found
    have within : length < front.length := by
      refine Nat.lt_of_not_le fun behind => ?_
      rw [apart.rest₁, List.getElem?_append_right (by omega)] at closed
      exact clean (apart.ahead early) (List.mem_of_getElem? closed)
    rw [apart.rest₁] at found
    simpa using local_backquoteText? [] found within
  · rwa [apart.rest₁, (apart.ended early).1, List.append_nil] at found

section

variable (level : seam.Level inner inner') (paired : seam.Paired p state state')

variable {pos pos' : Position}

include level paired

/-! ## Quoted parts -/

omit level in
theorem skipIf_follows (accepted : Char → Bool) :
    seam.Follows p (skipIf accepted state) (skipIf accepted state') := by
  unfold skipIf
  exact .current paired fun _ _ => .ite (fun _ => .ended paired 1 .unit) fun _ => .ok .unit paired

omit level in
theorem singleQuoted_follows (dollar : Bool) (start : seam.Alike p pos pos') :
    seam.Follows p (singleQuoted pos dollar state) (singleQuoted pos' dollar state') := by
  have opening := paired.here
  have alike {q : Phase} (leads : p.Leads q) (text : String) :
      seam.Alike q (Part.single pos text dollar) (.single pos' text dollar) :=
    fun change admitted => by simp [start.leads leads change admitted]
  unfold singleQuoted
  simp only [here_bind]
  refine .skip paired 1 fun {q after'} leads paired => ?_
  simp only [rest_bind]
  rcases paired.scan (local_singleEnd? dollar) with ⟨same, found_same⟩ |
    ⟨rfl, front, first, second, apart, beyond⟩
  · rw [same]
    cases found : singleEnd? dollar 0 (state.skip 1).cursor.rest with
    | none => exact .error (opening.leads leads)
    | some length =>
        obtain ⟨taken, paired, -⟩ := found_same found
        simp only [id_eq] at taken
        simp only [taken, skip_bind]
        exact .ok (alike leads _) paired
  · cases found : singleEnd? dollar 0 (state.skip 1).cursor.rest with
    | none => exact .unfollowed (by decide)
    | some length =>
        obtain ⟨after', paired⟩ := paired.cross apart (Nat.lt_succ_of_le (beyond found))
        exact .lost (alike (leads.trans .lose) _) paired

/-- Statements that have to fill their text. -/
theorem wholeText_follows :
    seam.Follows p
      ((do
        let items ← inner.statements []
        match ← current with
        | none => return items
        | some c => fail (.unexpected c) : Reading (List Item)) state)
      ((do
        let items ← inner'.statements []
        match ← current with
        | none => return items
        | some c => fail (.unexpected c) : Reading (List Item)) state') := by
  refine (level.statements [] paired).bind fun {q items₁ items₂ after after'} _ items paired => ?_
  refine .current paired fun c _ => ?_
  cases c with
  | none => exact .ok items paired
  | some c => exact .fail paired

theorem backquoted_follows (quote : state.cursor.rest.head? = some '\x60') :
    seam.Follows p (backquoted inner state) (backquoted inner' state') := by
  rcases seam.backquotes with ⟨unescaped, clean⟩ | absent
  · have opening := paired.here
    unfold backquoted
    simp only [here_bind]
    refine .skip paired 1 fun {q after'} leads paired => ?_
    simp only [here_bind, rest_bind]
    obtain ⟨front, first, second, apart⟩ := paired.cursors
    cases found : backquoteText? [] 0 (state.skip 1).cursor.rest with
    | none =>
        by_cases early : q = .before
        · subst early
          exact .unfollowed (by decide)
        · rw [paired.rest_eq early, found]
          exact .error (opening.leads leads)
    | some read =>
        obtain ⟨text, length⟩ := read
        have inside := apart.backquote clean found
        obtain ⟨count, reached, closed, -⟩ := backquoteText?_found inside
        have within : length < front.length := by
          have := (List.getElem?_eq_some_iff.mp closed).1
          omega
        have found₂ : backquoteText? [] 0 after'.cursor.rest = some (text, length) := by
          rw [apart.rest₂]
          rw [← List.append_nil front] at inside
          exact local_backquoteText? second inside within
        have entered : seam.Paired q.within (.ofText text (state.skip 1).cursor.position)
            (.ofText text after'.cursor.position) :=
          .ofText (unescaped apart.along inside)
            (seam.text_within (seam.text_unescaped paired.text found))
            (Nat.lt_of_le_of_lt (backquoteText?_length found) paired.short)
            fun kept => Nat.lt_of_le_of_lt (backquoteText?_length found₂) (paired.short' kept)
        have onward : seam.Paired q ((state.skip 1).skip (length + 1)) (after'.skip (length + 1)) :=
          paired.withCursors (.stay _) ⟨_, _, _, apart.advance fun _ => within⟩
        simp only [found₂, skip_bind]
        refine (Follows.within onward (wholeText_follows level entered)).bind
          fun {_ read₁ read₂ _ _} further read paired => ?_
        obtain ⟨items, bodies⟩ := read₁
        obtain ⟨items', bodies'⟩ := read₂
        have placed := placeItems_alike read.of_pair.2 read.of_pair.1
        exact .ok (fun change admitted => by
          simp [opening.leads (leads.trans further) change admitted, ← placed change admitted])
          paired
  · exact absurd (List.mem_of_head? quote) (absent paired.text)

/-- A dollar sign is read as an expansion or taken literally. -/
theorem expansion_or_literal_follows {α β : Type} [Recastable α] [Recastable β] {quoted : Bool}
    {taken₁ taken₂ : Part → α} {literal₁ literal₂ : α} (dollar : state.cursor.rest.head? = some '$')
    (taken : ∀ {q part₁ part₂}, p.Leads q → seam.Alike q part₁ part₂ →
      seam.Alike q (taken₁ part₁) (taken₂ part₂))
    (literal : seam.Alike p literal₁ literal₂) :
    seam.Follows p
      ((do
        match ← inner.expansion quoted with
        | some part => return .again (taken₁ part)
        | none =>
            skip 1
            return .again literal₁ : Reading (Round α β)) state)
      ((do
        match ← inner'.expansion quoted with
        | some part => return .again (taken₂ part)
        | none =>
            skip 1
            return .again literal₂ : Reading (Round α β)) state') := by
  refine (level.expansion quoted paired dollar).bind fun leads read paired => ?_
  obtain ⟨rfl, rfl⟩ | ⟨part₁, part₂, rfl, rfl, parts⟩ := read.option
  · exact .ended paired 1 (literal.leads leads).again
  · exact .ok (taken leads parts).again paired

theorem quotedRound_follows (stop : Option Char) {pieces₁ pieces₂ : Pieces}
    (pieces : seam.Alike p pieces₁ pieces₂) :
    seam.Follows p (quotedRound inner stop pieces₁ state)
      (quotedRound inner' stop pieces₂ state') := by
  have here := paired.here
  unfold quotedRound
  simp only [here_bind, rest_bind]
  rcases paired.rest_cases with ⟨shape, shape'⟩ | ⟨c, text, text', shape, shape', next⟩
  · rw [shape, shape']
    exact .ok pieces.finish.done paired
  rw [shape, shape']
  simp only
  refine .ite (fun _ => .ok pieces.finish.done paired) fun _ => .ite (fun escape => ?_) fun _ =>
    .ite (fun quote => ?_) fun _ => .ite (fun dollar => ?_) fun _ =>
      .ended paired 1 (pieces.push here [c]).again
  · obtain ⟨head, first⟩ := next (by simp [escape]) (by simp [escape])
    rw [head, first]
    exact .ite (fun _ => .ended paired 2 pieces.again) fun _ => .ite
      (fun _ => .ended paired 2 (pieces.push here _).again) fun _ =>
        .ended paired 1 (pieces.push here [c]).again
  · exact (backquoted_follows level paired (by simp [shape, quote])).returning
      fun leads parts => (pieces.add leads parts).again
  · exact expansion_or_literal_follows level paired (by simp [shape, dollar])
      pieces.add (pieces.push here _)

theorem quotedParts_follows (stop : Option Char) :
    seam.Follows p (quotedParts inner stop state) (quotedParts inner' stop state') := by
  have here := paired.here
  unfold quotedParts
  simp only [here_bind]
  exact level.iterate (fun moving pieces state => quotedRound_moves moving state stop pieces)
    (fun _ pieces paired => quotedRound_follows level paired stop pieces)
    (fun change admitted => by simp [here change admitted]) paired

omit level in
/-- A closing character at the end of a construct. -/
theorem closed_follows {α : Type} [Recastable α] (closing : Char) {value₁ value₂ : α}
    {cause : Cause} (start : seam.Alike p pos pos') (alike : seam.Alike p value₁ value₂) :
    seam.Follows p
      ((do
        if (← current) = some closing then
          skip 1
          return value₁
        else
          failAt pos cause : Reading α) state)
      ((do
        if (← current) = some closing then
          skip 1
          return value₂
        else
          failAt pos' cause : Reading α) state') := by
  exact .current paired fun _ _ => .ite (fun _ => .ended paired 1 alike) fun _ => .error start

theorem doubleQuoted_follows (dollar : Bool) (start : seam.Alike p pos pos') :
    seam.Follows p (doubleQuoted inner pos dollar state)
      (doubleQuoted inner' pos' dollar state') := by
  have opening := paired.here
  unfold doubleQuoted
  simp only [here_bind]
  refine .skip paired 1 fun leads paired => ?_
  refine (quotedParts_follows level paired (some '"')).bind fun further parts paired => ?_
  exact closed_follows paired '"'
    ((opening.leads leads).leads further) (fun change admitted => by
      simp [(start.leads leads).leads further change admitted, parts change admitted])

theorem substituted_follows (opening : String) :
    seam.Follows p (substituted inner opening state) (substituted inner' opening state') := by
  have start := paired.here
  unfold substituted
  simp only [here_bind]
  refine .skip paired 2 fun leads paired => ?_
  refine (level.statements [")"] paired).bind fun further items paired => ?_
  exact closed_follows paired ')' ((start.leads leads).leads further) items

end

end Seam
end RecipeLint
