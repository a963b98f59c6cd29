import Mathlib.Data.List.Chain
import RecipeLint.Proofs.Seam.Statements
import RecipeLint.Proofs.Whole

/-!
# Reading line by line

A script that ends with a complete line is read independently of what follows it.  Two seams give
this.  In front of the last newline, a reading of the script alone and one of the longer text are
side by side up to that newline; behind it, a reading of the longer text and one of the rest alone
are in front of the same text, some lines apart.

Here-documents are placed by the positions of their redirections.  Those of the rest lie on later
lines than any redirection of the script, which is why changes that only differ on lines that do not
occur are admitted as well.
-/

namespace RecipeLint

variable {text : List Char}

namespace Position

/-- A complete line ends in front of the first column. -/
theorem along_lines (text : List Char) (position : Position) :
    position.along (text ++ ['\n']) = ⟨position.line + (text ++ ['\n']).count '\n', 1⟩ := by
  rw [along_append, along_cons, along_nil, after, if_pos rfl, along_line, List.count_append]
  simp [Int.add_assoc]

end Position

namespace Change

variable {position : Position}

/-- Positions from the first line on go a number of lines down. -/
def below (lines : Nat) : Change where
  place position :=
    if 0 < position.line then ⟨position.line + lines, position.column⟩ else position
  injective {first second} same := by
    obtain ⟨line, column⟩ := first
    obtain ⟨line', column'⟩ := second
    grind
  unbraced _ := false

/-- The first lines stay where they are; all other positions go in front of them. -/
def fold (lines : Nat) : Change where
  place position :=
    if position.line ≤ 0 then ⟨2 * position.line - 1, position.column⟩
    else if position.line ≤ lines then position
    else ⟨-2 * position.line, position.column⟩
  injective {first second} same := by
    obtain ⟨line, column⟩ := first
    obtain ⟨line', column'⟩ := second
    grind
  unbraced _ := false

theorem line_pos_of_below {lines : Nat} (filled : 0 < lines)
    (same : (below lines).place position = (down lines).place position) : 0 < position.line := by
  simp only [below, down] at same
  grind

theorem none_uniform : none.Uniform := ⟨fun _ _ => rfl, fun _ => rfl⟩

theorem down_uniform (lines : Nat) : (down lines).Uniform := by
  refine ⟨fun position c => ?_, fun _ => rfl⟩
  simp only [down, Position.after]
  split
  · simp [Int.add_right_comm]
  · rfl

theorem below_along {lines : Nat} (text : List Char) (numbered : 0 < position.line) :
    (below lines).Along text position ⟨position.line + lines, position.column⟩ := by
  induction text generalizing position with
  | nil => exact if_pos numbered
  | cons c text ih =>
      refine ⟨if_pos numbered, rfl, ?_⟩
      have further : 0 < (position.after c).line := by
        rw [Position.after]
        split
        · exact Int.add_pos numbered Int.one_pos
        · exact numbered
      have moved := (down_uniform lines).after position c
      exact moved ▸ ih further

theorem fold_eq_iff {lines : Nat} :
    (fold lines).place position = position ↔ 0 < position.line ∧ position.line ≤ lines := by
  obtain ⟨line, column⟩ := position
  simp only [fold]
  grind

theorem fold_along {lines : Nat} {text : List Char} :
    (fold lines).Along text position position ↔
      0 < position.line ∧ position.line + text.count '\n' ≤ lines := by
  induction text generalizing position with
  | nil => simpa [Along] using fold_eq_iff
  | cons c text ih =>
      have braces : (fold lines).unbraced position = false := rfl
      rw [Along, fold_eq_iff, ih, List.count_cons, Position.after]
      by_cases newline : c = '\n'
      · simp only [newline, braces, if_true, beq_self_eq_true, true_and]
        omega
      · simp only [newline, braces, if_false, beq_iff_eq, true_and]
        omega

/-- No position goes behind the lines that stay. -/
theorem fold_line_le (lines : Nat) (position : Position) :
    ((fold lines).place position).line ≤ lines := by
  simp only [fold]
  grind

end Change

/-- A text in which no angle bracket opens twice. -/
def Undoubled (text : List Char) : Prop :=
  text.IsChain fun first second => first = '<' → second ≠ '<'

theorem undoubled_iff : Undoubled text ↔ ¬['<', '<'] <:+: text := by
  constructor
  · intro apart doubled
    simpa using apart.infix doubled
  · intro single
    induction text with
    | nil => exact .nil
    | cons c text ih =>
        cases text with
        | nil => exact .singleton c
        | cons d text =>
            have tail : ¬['<', '<'] <:+: d :: text :=
              fun inside => single (inside.trans (List.suffix_cons c _).isInfix)
            refine List.isChain_cons_cons.mpr ⟨?_, ih tail⟩
            rintro rfl rfl
            exact single ⟨[], text, rfl⟩

/-- A redirection that takes the lines behind it opens an angle bracket twice. -/
theorem Undoubled.not_takesBody {head : RedirectHead}
    (single : Undoubled text) (found : RedirectHead.starting? text = some head) :
    head.op.takesBody = false := by
  obtain ⟨rest, rfl⟩ := RedirectHead.text_of_starting? found
  have doubled : ¬['<', '<'] <:+: head.op.text.toList := fun inside =>
    undoubled_iff.mp single (inside.trans ⟨head.descriptor.getD [], rest, rfl⟩)
  cases op : head.op with
  | hereDoc | hereDocTabs => exact absurd (by rw [op]; decide) doubled
  | _ => rfl

theorem backquoteText?_undoubled {rest inside : List Char} {length stop : Nat}
    (found : backquoteText? text length rest = some (inside, stop))
    (single : Undoubled (text.reverse ++ rest)) : Undoubled inside := by
  fun_induction backquoteText? text length rest with
  | case1 => cases found
  | case2 =>
      cases found
      exact single.left_of_append
  | case3 text length c rest escaped ih =>
      have other : c ≠ '<' := by
        rintro rfl
        simp at escaped
      refine ih found ?_
      unfold Undoubled at single ⊢
      grind [List.isChain_append]
  | case4 text length c rest _ ih | case5 text length c rest _ _ ih =>
      exact ih found (by simpa using single)

theorem backquoteText?_count {rest inside : List Char} {length stop : Nat}
    (found : backquoteText? text length rest = some (inside, stop)) :
    inside.count '\n' ≤ text.count '\n' + rest.count '\n' := by
  fun_induction backquoteText? text length rest with grind

namespace Reading

variable {α β γ : Type} {inner : Inner} {stops : List String} {state : ReadState}

theorem map_returning (reading : Reading α) (first : α → β) (second : β → γ) :
    ((do return first (← reading) : Reading β) state).map (Prod.map second id) =
      (do return second (first (← reading)) : Reading γ) state := by
  cases run : reading state with
  | ok outcome => rw [bind_ok run, bind_ok run]; rfl
  | error fault => rw [bind_error run, bind_error run]; rfl

/-- A round of statements whose list goes on another one; the last element comes first. -/
def behind (earlier : List Item) : Round (List Item) (List Item) → Round (List Item) (List Item) :=
  Round.elim (fun items => .again (items ++ earlier)) fun items => .done (earlier.reverse ++ items)

theorem takeComments_bind (items : List Item) (next : List Item → Reading α) :
    (takeComments items >>= next) state =
      next ((state.comments.map Item.comment).reverse ++ items) { state with comments := [] } := rfl

theorem statement_append (items earlier : List Item) :
    statement inner (items ++ earlier) state =
      (statement inner items state).map (Prod.map (· ++ earlier) id) := by
  unfold statement
  cases run : logic inner state with
  | error fault => rw [bind_error run, bind_error run]; rfl
  | ok outcome =>
      rw [bind_ok run, bind_ok run, takeComments_bind, takeComments_bind, map_returning]
      simp only [List.append_assoc, List.cons_append]

theorem statementRound_append (items earlier : List Item) :
    statementRound inner stops (items ++ earlier) state =
      (statementRound inner stops items state).map (Prod.map (behind earlier) id) := by
  unfold statementRound
  simp only [skipBlanks_bind, takeComments_bind, ← List.append_assoc]
  generalize (state.skipBlanks.comments.map Item.comment).reverse ++ items = taken
  generalize { state.skipBlanks with comments := [] } = after
  simp only [rest_bind]
  have done : (Except.ok (.done (taken ++ earlier).reverse, after) :
      Outcome (Round (List Item) (List Item))) =
      Except.map (Prod.map (behind earlier) id) (.ok (.done taken.reverse, after)) := by
    simp [Except.map, behind]
  split
  · exact done
  simp only [current_bind]
  generalize after.cursor.rest.head? = c
  split
  · exact done
  · rw [map_returning (newline inner) fun _ => Round.again taken]
    rfl
  · rw [map_returning comment fun remark => Round.again (.comment remark :: taken)]
    rfl
  · split
    · exact done
    · rfl
  · simp only [wordAt_bind]
    cases listTerminators.find? after.cursor.atWord with
    | none =>
        simp only
        rw [map_returning]
        cases run : statement inner taken after with
        | error fault =>
            rw [bind_error run, bind_error (by rw [statement_append, run]; rfl)]
        | ok outcome =>
            rw [bind_ok run, bind_ok (by rw [statement_append, run]; rfl)]
            rfl
    | some word =>
        simp only
        split
        · exact done
        · rfl

/-- Statements read earlier stand in front of those that further rounds add. -/
theorem iterate_append (rounds : Nat) (items earlier : List Item) :
    iterate (statementRound inner stops) rounds (items ++ earlier) state =
      (iterate (statementRound inner stops) rounds items state).map
        (Prod.map (earlier.reverse ++ ·) id) := by
  induction rounds generalizing items state with
  | zero => rfl
  | succ rounds ih =>
      have append : statementRound inner stops (items ++ earlier) state = _ :=
        statementRound_append items earlier
      cases run : statementRound inner stops items state with
      | error fault =>
          rw [run] at append
          rw [iterate, iterate, bind_error run, bind_error append]
          rfl
      | ok outcome =>
          obtain ⟨round, after⟩ := outcome
          rw [run] at append
          cases round with
          | again items =>
              rw [iterate_again run, iterate_again append, ih]
              rfl
          | done result =>
              rw [iterate_done run, iterate_done append]
              rfl

/-- A newline that no here-document waits for. -/
theorem newline_idle (idle : state.awaited = []) :
    newline inner state = .ok ((), state.skip 1) := by
  unfold newline
  simp only [skip_bind, get_bind, modify_bind]
  obtain ⟨cursor, awaited, bodies, comments, seen⟩ := state
  obtain rfl := idle
  rfl

/-- A newline in place of a statement, where no here-document waits for it. -/
theorem statementRound_newline {items : List Item}
    (newline : state.skipBlanks.cursor.rest.head? = some '\n') (idle : state.awaited = []) :
    statementRound inner stops items state =
      .ok (.again ((state.comments.map Item.comment).reverse ++ items),
        { state.skipBlanks.skip 1 with comments := [] }) := by
  obtain ⟨rest, shape⟩ := List.head?_eq_some_iff.mp newline
  have other : closesCaseItem ('\n' :: rest) = false := rfl
  unfold statementRound
  simp only [skipBlanks_bind, takeComments_bind, rest_bind, shape, other, Bool.false_eq_true,
    if_false, current_bind, List.head?_cons]
  exact bind_ok (@newline_idle inner { state.skipBlanks with comments := [] } idle)

theorem statementRound_end {items : List Item} (ended : state.cursor.rest = []) :
    statementRound inner stops items state =
      .ok (.done ((state.comments.map Item.comment).reverse ++ items).reverse,
        { state with comments := [] }) := by
  have stays : state.skipBlanks = state := by
    unfold ReadState.skipBlanks Cursor.skipBlanks
    rw [Cursor.advance_of_rest_eq_nil ended]
  have other : closesCaseItem [] = false := rfl
  unfold statementRound
  simp only [skipBlanks_bind, takeComments_bind, rest_bind, stays, ended, other, Bool.false_eq_true,
    if_false, current_bind, List.head?_nil]
  rfl

end Reading

/-- Moving forward does not change where the text ends. -/
theorem Cursor.Passes.along_rest {before after : Cursor}
    (passes : Passes text before after) :
    after.position.along after.rest = before.position.along before.rest := by
  rw [passes.rest_eq, Position.along_append, passes.position_eq]

/-- A reading in front of a text, with nothing left to be taken up. -/
structure ReadState.Fresh (state : ReadState) (text : List Char) (pos : Position) : Prop where
  rest_eq : state.cursor.rest = text
  position_eq : state.cursor.position = pos
  awaited_eq : state.awaited = []
  bodies_eq : state.bodies = []
  comments_eq : state.comments = []

namespace Seam

/-! ## Behind the last newline -/

/-- Two readings of the same text, a number of lines apart. -/
def linesApart (lines rounds rounds' : Nat) (filled : 0 < lines) : Seam where
  rounds
  rounds'
  mark := '\n'
  changes _ change := change = .down lines ∨ change = .below lines
  text _ _ := True
  joint _ _ _ := False
  awaits _ := True
  marked := .inr rfl
  joint_mark := False.elim
  some_change _ := ⟨_, .inl rfl⟩
  changes_inside := Iff.rfl
  changes_leads _ admitted := admitted
  text_drop _ _ := trivial
  text_take _ _ := trivial
  text_inside _ := trivial
  text_crossed _ := False.elim
  along_crossed _ := False.elim
  backquotes := by
    refine .inl ⟨fun {_ first second _ _ _} along _ => ?_, False.elim⟩
    have moved : (Change.down lines).place first = second := (along _ (.inl rfl)).place
    have numbered : 0 < first.line :=
      Change.line_pos_of_below filled ((along _ (.inr rfl)).place.trans moved.symm)
    rintro change (rfl | rfl)
    · exact (Change.down_uniform lines).along _ moved
    · exact moved ▸ Change.below_along _ numbered
  text_unescaped _ _ := trivial

theorem linesApart_resumes {lines rounds rounds' : Nat} {filled : 0 < lines}
    {inner inner' : Inner} :
    (linesApart lines rounds rounds' filled).Resumes inner inner' where
  expansion _ _ _ apart := (apart.ahead rfl).elim
  index _ apart _ _ := (apart.ahead rfl).elim
  assignHead _ _ apart _ := (apart.ahead rfl).elim
  hereDoc _ apart _ _ _ := (apart.ahead rfl).elim
  announced _ _ _ _ _ := trivial

/-! ## In front of the last newline -/

/-- A reading of some lines alone and one of a longer text, in front of the last newline. -/
def lastLine (lines rounds rounds' : Nat) (back : List Char) : Seam where
  rounds
  rounds'
  mark := '\n'
  changes phase change := change = .none ∨ phase ≠ .lost ∧ change = .fold lines
  text phase text' :=
    match phase with
    | .before | .inside => Undoubled text'
    | .after => False
    | .lost => text' = []
  joint first second _ := first = ['\n'] ∧ second = '\n' :: back
  awaits _ := False
  marked := .inr rfl
  joint_mark := fun ⟨ended, further⟩ => ⟨⟨[], ended⟩, back, further⟩
  some_change _ := ⟨_, .inl rfl⟩
  changes_inside := by simp
  changes_leads leads := Or.imp_right fun ⟨kept, fold⟩ => ⟨leads.ne_lost kept, fold⟩
  text_drop {phase text'} count known := by
    cases phase with
    | before | inside => exact known.drop count
    | after => exact known
    | lost => exact (congrArg (List.drop count) known).trans List.drop_nil
  text_take {phase text'} count known := by
    cases phase with
    | before | inside => exact known.take count
    | after => exact known
    | lost => exact (congrArg (List.take count) known).trans List.take_nil
  text_inside known := known
  text_crossed count joint _ := by simp [joint.1]
  along_crossed count _ admitted := by
    obtain rfl := admitted.resolve_right fun fold => fold.1 rfl
    exact Change.none_uniform.along _ rfl
  backquotes := by
    refine .inl ⟨fun {_ first second _ _ _} along found => ?_, ?_⟩
    · obtain rfl : first = second := (along _ (.inl rfl)).place
      rintro change (rfl | ⟨kept, rfl⟩)
      · exact Change.none_uniform.along _ rfl
      · obtain ⟨numbered, early⟩ := Change.fold_along.mp (along _ (.inr ⟨kept, rfl⟩))
        have fewer := backquoteText?_count found
        simp only [List.count_nil, Nat.zero_add] at fewer
        exact Change.fold_along.mpr ⟨numbered, by omega⟩
    · rintro first second position ⟨rfl, -⟩
      decide
  text_unescaped {phase text' inside length} known found := by
    cases phase with
    | before | inside => exact backquoteText?_undoubled found known
    | after => exact known
    | lost =>
        obtain rfl := known
        cases found

theorem lastLine_resumes {lines rounds rounds' : Nat} {back : List Char} {inner inner' : Inner} :
    (lastLine lines rounds rounds' back).Resumes inner inner' where
  expansion _ dollar _ _ := absurd dollar (by decide : '\n' ≠ '$')
  index {state _ front _ _ length} _ apart found beyond := by
    obtain ⟨count, rfl, closed⟩ := bracketEnd?_found (by decide) found
    rw [apart.rest₁, (apart.ahead rfl).1, List.getElem?_append_right (by omega)] at closed
    have only := List.mem_of_getElem? closed
    simp at only
  assignHead dollar _ _ _ := absurd dollar (by decide : '\n' ≠ '$')
  hereDoc _ _ _ awaits _ := awaits.elim
  announced {p state _ _ _ _} _ paired found takes _ := by
    have known := paired.text
    cases p with
    | before | inside =>
        have takes' := Undoubled.not_takesBody known found
        simp [takes] at takes'
    | after => exact known
    | lost =>
        have ended : state.cursor.rest = [] := known
        rw [ended] at found
        cases found

/-! ## The last line -/

section LastLine

open Reading

variable {lines rounds rounds' : Nat} {back : List Char} {inner inner' : Inner}
  {state state' after : ReadState}

variable {items : List Item}

theorem lastLine_awaited
    (paired : (lastLine lines rounds rounds' back).Paired .before state state') :
    state.awaited = [] ∧ state'.awaited = [] := by
  have none₁ : state.awaited = [] := List.eq_nil_iff_forall_not_mem.mpr paired.awaits
  exact ⟨none₁, (none₁ ▸ paired.awaited).of_nil⟩

theorem lastLine_bodies
    (paired : (lastLine lines rounds rounds' back).Paired .before state state') :
    state.bodies = [] ∧ state'.bodies = [] := by
  have none₁ : state.bodies = [] := by
    cases bodies : state.bodies with
    | nil => rfl
    | cons entry rest =>
        obtain ⟨_, waits⟩ := paired.announced (by simp [bodies])
        exact waits.elim
  exact ⟨none₁, (none₁ ▸ paired.bodies).of_nil⟩

theorem lastLine_items {items' : List Item}
    (alike : (lastLine lines rounds rounds' back).Alike .before items items') :
    items' = items :=
  (alike .none (.inl rfl)).symm.trans (List.map_id'' Item.recast_none items)

/-- As long as the first reading has something left, both are in front of the last newline. -/
theorem lastLine_kept {α : Type} [Recastable α] {reading reading' : Reading α} {value₁ : α}
    (follows : (lastLine lines rounds rounds' back).Follows .before (reading state)
      (reading' state'))
    (run : reading state = .ok (value₁, after)) (unfinished : after.cursor.rest ≠ []) :
    ∃ value₂ after', reading' state' = .ok (value₂, after') ∧
      (lastLine lines rounds rounds' back).Alike .before value₁ value₂ ∧
      (lastLine lines rounds rounds' back).Paired .before after after' := by
  rw [run] at follows
  obtain ⟨q, value₂, after', leads, reached, alike, paired⟩ := follows
  cases leads with
  | stay => exact ⟨value₂, after', reached (by decide), alike, paired⟩
  | resume => exact paired.text.elim
  | lose => exact absurd paired.text unfinished

theorem lastLine_blanks (paired : (lastLine lines rounds rounds' back).Paired .before state state')
    (unfinished : state.skipBlanks.cursor.rest ≠ []) :
    (lastLine lines rounds rounds' back).Paired .before state.skipBlanks state'.skipBlanks := by
  have follows : (lastLine lines rounds rounds' back).Follows .before ((skipBlanks >>= pure) state)
      ((skipBlanks >>= pure) state') := .skipBlanks paired fun _ paired => .ok .unit paired
  obtain ⟨_, after', run, _, paired⟩ := lastLine_kept follows rfl unfinished
  rw [skipBlanks_bind, pure_apply] at run
  cases run
  exact paired

/-- A settled text does not reach behind the last newline. -/
theorem lastLine_unfinished {α : Type} {outcome : Outcome α} {value : α}
    (paired : (lastLine lines rounds rounds' back).Paired .before state state')
    (moves : Moves (fun _ => Settled) state outcome) (run : outcome = .ok (value, after)) :
    after.cursor.rest ≠ [] := by
  intro ended
  obtain ⟨front, first, second, apart⟩ := paired.cursors
  obtain ⟨text, passes, settled⟩ := Ends.of_ok moves run
  have whole : text = front ++ ['\n'] := by
    have := passes.rest_eq
    rw [apart.rest₁, (apart.ahead rfl).1, ended, List.append_nil] at this
    exact this.symm
  exact (apart.marks rfl).unescaped rfl (settled front whole)

/-- A round of statements either stays in front of the last newline or reads that newline, and then
nothing is left to be taken up. -/
theorem statementRound_lastLine (level : (lastLine lines rounds rounds' back).Level inner inner')
    (paired : (lastLine lines rounds rounds' back).Paired .before state state')
    (alike : (lastLine lines rounds rounds' back).Alike .before items items)
    {round : Round (List Item) (List Item)}
    (run : statementRound inner [] items state = .ok (round, after)) :
    (∃ round₂ after', statementRound inner' [] items state' = .ok (round₂, after') ∧
      (lastLine lines rounds rounds' back).Alike .before round round₂ ∧
      (lastLine lines rounds rounds' back).Paired .before after after') ∨
    ∃ items' after', round = .again items' ∧
      (lastLine lines rounds rounds' back).Alike .before items' items' ∧
      statementRound inner' [] items state' = .ok (.again items', after') ∧
      after.Fresh [] after.cursor.position ∧ after'.Fresh back after.cursor.position := by
  by_cases newline : state.skipBlanks.cursor.rest.head? = some '\n'
  · obtain ⟨idle, idle'⟩ := lastLine_awaited paired
    obtain ⟨bodies, bodies'⟩ := lastLine_bodies paired
    have read := paired.commentItems.reverse.append alike
    have same := lastLine_items read
    have paired := lastLine_blanks paired (List.ne_nil_of_mem (List.mem_of_head? newline))
    rw [statementRound_newline newline idle] at run
    have run₂ : statementRound inner' [] items state' = _ :=
      statementRound_newline (by rw [paired.sees head?_sighted, newline]) idle'
    rw [same] at run₂ read
    cases run
    obtain ⟨front, first, second, apart⟩ := paired.cursors
    obtain ⟨rfl, rfl⟩ := apart.ahead rfl
    cases front with
    | nil =>
        have here : state.skipBlanks.cursor.position = state'.skipBlanks.cursor.position :=
          paired.here .none (.inl rfl)
        refine .inr ⟨_, _, rfl, read, run₂, ⟨?_, rfl, idle, bodies, rfl⟩, ?_, ?_,
          idle', bodies', rfl⟩
        · rw [ReadState.skip_cursor, Cursor.advance_rest, apart.rest₁]
          rfl
        · rw [ReadState.skip_cursor, Cursor.advance_rest, apart.rest₂]
          rfl
        · rw [ReadState.skip_cursor, ReadState.skip_cursor, Cursor.advance_position,
            Cursor.advance_position, apart.rest₁, apart.rest₂, here]
          rfl
    | cons c front =>
        refine .inl ⟨_, _, run₂, read.again, ?_⟩
        exact { paired.withCursors (.stay _) ⟨_, _, _, apart.advance fun _ => by simp⟩ with
          comments := .nil }
  · refine .inl
      (lastLine_kept (statementRound_follows level lastLine_resumes paired [] alike) run ?_)
    exact lastLine_unfinished paired (statementRound_settles level.moving state []
      items newline) run

/-- Reading some lines alone, and reading them in front of a longer text, which goes on behind them
with nothing left to be taken up. -/
theorem statements_lastLine (level : (lastLine lines rounds rounds' back).Level inner inner')
    {fewer fewer' : Nat} {result : List Item}
    (paired : (lastLine lines rounds rounds' back).Paired .before state state')
    (alike : (lastLine lines rounds rounds' back).Alike .before items items)
    (enough : state'.cursor.rest.length < fewer')
    (run : iterate (statementRound inner []) fewer items state = .ok (result, after))
    (ended : after.cursor.rest = []) :
    ∃ items' left after', result = items'.reverse ∧
      (lastLine lines rounds rounds' back).Alike .before items' items' ∧ after.bodies = [] ∧
      back.length < left ∧
      after'.Fresh back (state.cursor.position.along state.cursor.rest) ∧
      iterate (statementRound inner' []) fewer' items state' =
        iterate (statementRound inner' []) left items' after' := by
  induction fewer generalizing items state state' fewer' with
  | zero => cases run
  | succ fewer ih =>
      obtain ⟨left, rfl⟩ := Nat.exists_eq_add_of_lt enough
      match first : statementRound inner [] items state with
      | .error fault =>
          rw [iterate, bind_error first] at run
          cases run
      | .ok (round, middle) =>
          have passes := Ends.of_ok (statementRound_moves level.moving state [] items) first
          obtain ⟨text, passes, -⟩ := passes
          rcases statementRound_lastLine level paired alike first with
            ⟨round₂, middle', second, turns, paired⟩ |
            ⟨items', middle', rfl, alike, second, fresh, fresh'⟩
          · cases round with
            | done result =>
                rw [iterate_done first] at run
                cases run
                obtain ⟨front, _, _, apart⟩ := paired.cursors
                rw [apart.rest₁, (apart.ahead rfl).1] at ended
                simp at ended
            | again items' =>
                obtain ⟨_, rfl, further⟩ := turns.of_again
                obtain rfl := lastLine_items further
                have shorter := (statementRound_moves level.moving' state' [] items).shorter second
                rw [iterate_again first] at run
                rw [iterate_again second, ← passes.along_rest]
                exact ih paired further (by omega) run
          · have shorter := (statementRound_moves level.moving' state' [] items).shorter second
            rw [iterate_again first] at run
            cases fewer with
            | zero => cases run
            | succ fewer =>
                rw [iterate_done (statementRound_end fresh.rest_eq), fresh.comments_eq] at run
                cases run
                refine ⟨items', _, middle', rfl, alike, fresh.bodies_eq, ?_, ?_,
                  iterate_again second _⟩
                · rw [fresh'.rest_eq] at shorter
                  omega
                · rw [← passes.along_rest, fresh.rest_eq]
                  exact fresh'

end LastLine

end Seam

/-! ## Placing here-documents -/

theorem placeItems_append (bodies : Bodies) (front back : List Item) :
    placeItems bodies (front ++ back) = placeItems bodies front ++ placeItems bodies back := by
  induction front with
  | nil => rfl
  | cons item front ih => rw [List.cons_append, placeItems, placeItems, ih, List.cons_append]

/-- Here-documents of later lines are not placed below items of earlier ones. -/
theorem placeItems_of_later {lines : Nat} {bodies : Bodies} {items : List Item}
    (early : (Change.fold lines).on items = items)
    (late : ∀ entry ∈ bodies, (lines : Int) < entry.1.line) :
    placeItems bodies items = placeItems [] items := by
  have fixed : recastItems (.fold lines) items = items := by
    rw [recastItems_eq_map]
    exact early
  have placed {other : Bodies}
      (absent : ∀ pos, other.lookup ((Change.fold lines).place pos) = none) :
      recastItems (.fold lines) (placeItems [] items) = placeItems other items := by
    rw [recastItems_place absent, fixed]
  refine (placed fun pos => ?_).symm.trans (placed fun _ => rfl)
  rw [List.lookup_eq_none_iff]
  intro entry member
  have behind := late entry member
  have front := Change.fold_line_le lines pos
  rw [bne_iff_ne]
  intro same
  rw [same] at front
  omega

namespace Script

variable {name : String}

/-- Reading a text that ends with a complete line, and reading it in front of another one. -/
theorem statements_complete {rounds depth : Nat} {init back : List Char} {result : List Item}
    {after : ReadState} (unescaped : init.getLast? ≠ some '\\')
    (single : ¬['<', '<'] <:+: init ++ ['\n']) (enough : (init ++ ['\n'] ++ back).length < rounds)
    (run : Reading.iterate
        (Reading.statementRound (Inner.level ((init ++ ['\n']).length + 1) depth) [])
        ((init ++ ['\n']).length + 1) [] (.ofText (init ++ ['\n']) .start) = .ok (result, after))
    (ended : after.cursor.rest = []) :
    ∃ items left state, result = items.reverse ∧
      (Change.fold ((init ++ ['\n']).count '\n')).on items = items ∧ after.bodies = [] ∧
      back.length < left ∧ state.Fresh back ⟨1 + (init ++ ['\n']).count '\n', 1⟩ ∧
      Reading.iterate (Reading.statementRound (Inner.level rounds depth) []) rounds []
          (.ofText (init ++ ['\n'] ++ back) .start) =
        Reading.iterate (Reading.statementRound (Inner.level rounds depth) [])
          left items state := by
  generalize count_eq : (init ++ ['\n']).count '\n' = lines
  have level := (Seam.lastLine lines ((init ++ ['\n']).length + 1) rounds back).level_depth
    (fun _ => Seam.lastLine_resumes) depth
  have along : ∀ change : Change, change = .none ∨ Phase.before ≠ .lost ∧ change = .fold lines →
      change.Along init .start .start := by
    rintro change (rfl | ⟨-, rfl⟩)
    · exact Change.none_uniform.along init rfl
    · refine Change.fold_along.mpr ⟨by decide, ?_⟩
      rw [List.count_append] at count_eq
      simp only [Position.start, ← count_eq, List.count_singleton_self]
      omega
  have paired : (Seam.lastLine lines ((init ++ ['\n']).length + 1) rounds back).Paired .before
      (.ofText (init ++ ['\n']) .start) (.ofText (init ++ ['\n'] ++ back) .start) :=
    ⟨⟨init, ['\n'], '\n' :: back, rfl, List.append_assoc .., along, fun _ => ⟨rfl, rfl⟩,
      fun _ => ⟨.inr rfl, fun _ => unescaped⟩, fun early => absurd rfl early,
      undoubled_iff.mpr single, Nat.lt_succ_self _, fun _ => enough⟩, .nil, .nil,
        .nil, nofun, nofun⟩
  obtain ⟨items, left, state, rfl, alike, bodies, more, fresh, same⟩ :=
    Seam.statements_lastLine level paired .nil enough run ended
  refine ⟨items, left, state, rfl, alike _ (.inr ⟨by decide, rfl⟩), bodies, more, ?_, same⟩
  have position : Position.start.along (init ++ ['\n']) = ⟨1 + lines, 1⟩ :=
    count_eq ▸ Position.along_lines init .start
  exact position ▸ fresh

/-- Reading a text on its own, and reading it some lines further down. -/
theorem statements_linesApart {lines rounds left depth : Nat} {text : List Char} {state : ReadState}
    (filled : 0 < lines) (fresh : state.Fresh text ⟨1 + lines, 1⟩) (enough : text.length < left)
    (bounded : text.length < rounds) :
    (Seam.linesApart lines (text.length + 1) rounds filled).Follows .after
      (Reading.iterate (Reading.statementRound (Inner.level (text.length + 1) depth) [])
        (text.length + 1) [] (.ofText text .start))
      (Reading.iterate (Reading.statementRound (Inner.level rounds depth) []) left [] state) := by
  have level := (Seam.linesApart lines (text.length + 1) rounds filled).level_depth
    (fun _ => Seam.linesApart_resumes) depth
  have along : ∀ change : Change, change = .down lines ∨ change = .below lines →
      change.Along text .start state.cursor.position := by
    rw [fresh.position_eq]
    rintro change (rfl | rfl)
    · exact (Change.down_uniform lines).along text rfl
    · exact Change.below_along text (by decide)
  have paired : (Seam.linesApart lines (text.length + 1) rounds filled).Paired .after
      (.ofText text .start) state := by
    refine ⟨⟨text, [], [], (List.append_nil text).symm, ?_, along, nofun, nofun,
      fun _ => ⟨rfl, rfl⟩,
      trivial, Nat.lt_succ_self _, fun _ => ?_⟩, ?_, ?_, ?_, nofun, nofun⟩
    · rw [fresh.rest_eq, List.append_nil]
    · rw [fresh.rest_eq]
      exact bounded
    · rw [fresh.awaited_eq]
      exact .nil
    · rw [fresh.bodies_eq]
      exact .nil
    · rw [fresh.comments_eq]
      exact .nil
  refine .rounds
    (fun items state => Reading.statementRound_moves level.moving state [] items)
    (fun items state => Reading.statementRound_moves level.moving' state [] items)
    (fun _ items paired => Seam.statementRound_follows level Seam.linesApart_resumes paired
      [] items)
    (.stay _) .nil paired (Nat.lt_succ_self _) fun _ => ?_
  rw [fresh.rest_eq]
  exact enough

/-- The here-documents of a text that is read some lines further down lie behind these lines. -/
theorem late_of_linesApart {lines rounds rounds' : Nat} {filled : 0 < lines}
    {bodies bodies' : Bodies}
    (alike : (Seam.linesApart lines rounds rounds' filled).Alike .after bodies bodies') :
    ∀ entry ∈ bodies', (lines : Int) < entry.1.line := by
  induction bodies generalizing bodies' with
  | nil =>
      obtain rfl := alike.of_nil
      exact nofun
  | cons entry bodies ih =>
      obtain ⟨⟨pos₂, body₂⟩, rest, rfl, head, tail⟩ := alike.of_cons
      obtain ⟨pos, body⟩ := entry
      have down : (Change.down lines).place pos = pos₂ := head.of_pair.1 _ (.inl rfl)
      have below : (Change.below lines).place pos = pos₂ := head.of_pair.1 _ (.inr rfl)
      refine List.forall_mem_cons.mpr ⟨?_, ih tail⟩
      rw [← down] at below ⊢
      simp only [Change.down, Change.below] at below ⊢
      grind

/-- Here-documents of earlier lines are not placed below items that are read some lines further
down. -/
theorem placeItems_linesApart {lines rounds rounds' : Nat} {filled : 0 < lines}
    {bodies₁ bodies₂ spare : Bodies} {items₁ items₂ : List Item}
    (bodies : (Seam.linesApart lines rounds rounds' filled).Alike .after bodies₁ bodies₂)
    (items : (Seam.linesApart lines rounds rounds' filled).Alike .after items₁ items₂)
    (front : ∀ entry ∈ spare, 0 < entry.1.line ∧ entry.1.line ≤ lines) :
    placeItems (bodies₂ ++ spare) items₂ =
      (placeItems bodies₁ items₁).map (·.recast (.down lines)) := by
  have absent (pos : Position) : spare.lookup ((Change.below lines).place pos) = none := by
    rw [List.lookup_eq_none_iff]
    intro entry member
    obtain ⟨numbered, early⟩ := front entry member
    rw [bne_iff_ne]
    intro same
    rw [← same] at numbered early
    simp only [Change.below] at numbered early
    grind
  have agree (pos : Position) : (bodies₂ ++ spare).lookup ((Change.below lines).place pos) =
      (bodies₁.lookup pos).map (·.recast (.below lines)) := by
    rw [List.lookup_append, absent, Option.or_none, ← bodies _ (.inr rfl)]
    exact lookup_recastBodies _ bodies₁ pos
  have placed := recastItems_place agree items₁
  have alone : (Change.below lines).on (placeItems bodies₁ items₁) = placeItems bodies₂ items₂ :=
    Seam.placeItems_alike bodies items _ (.inr rfl)
  have down : (Change.down lines).on (placeItems bodies₁ items₁) = placeItems bodies₂ items₂ :=
    Seam.placeItems_alike bodies items _ (.inl rfl)
  have moved : items₁.map (·.recast (.below lines)) = items₂ := items _ (.inr rfl)
  simp only [recastItems_eq_map] at placed
  rw [moved] at placed
  exact placed.symm.trans (alone.trans down.symm)

/-- What is concluded behind earlier items from reading a text some lines further down, when some
here-documents have been read before. -/
theorem conclude_knowing {lines rounds rounds' : Nat} {filled : 0 < lines}
    {outcome outcome' : Reading.Outcome (List Item)} {earlier placed : List Item} {spare : Bodies}
    (follows : (Seam.linesApart lines rounds rounds' filled).Follows .after outcome outcome')
    (early : ∀ late : Bodies, (∀ entry ∈ late, (lines : Int) < entry.1.line) →
      placeItems (late ++ spare) earlier = placed)
    (front : ∀ entry ∈ spare, 0 < entry.1.line ∧ entry.1.line ≤ lines) :
    conclude name (outcome'.map (Prod.map (earlier ++ ·) (·.knowing spare))) =
      match conclude name outcome with
      | .ok further => .ok { name, items := placed ++ further.items.map (·.recast (.down lines)) }
      | .error error => .error
          { error with pos := ⟨error.pos.line + lines, error.pos.column⟩ } := by
  match outcome, follows with
  | .error fault, follows =>
      obtain ⟨pos, rfl, alike⟩ := follows rfl
      rw [← alike (.down lines) (.inl rfl)]
      rfl
  | .ok (items₁, state), ⟨q, items₂, state', leads, reached, alike, paired⟩ =>
      obtain rfl := leads.of_after
      obtain rfl := reached (by decide)
      have position : (Change.down lines).place state.cursor.position = state'.cursor.position :=
        paired.here _ (.inl rfl)
      have further := placeItems_linesApart paired.bodies alike front
      simp only [conclude, Except.map, Prod.map, ReadState.knowing]
      rw [paired.rest_eq (by decide), placeItems_append, early _ (late_of_linesApart paired.bodies),
        further, ← position]
      cases state.cursor.rest.head? with
      | none | some c => rfl

/-- What is concluded behind earlier items from reading a text some lines further down. -/
theorem conclude_linesApart {lines rounds rounds' : Nat} {filled : 0 < lines}
    {outcome outcome' : Reading.Outcome (List Item)} {earlier : List Item}
    (follows : (Seam.linesApart lines rounds rounds' filled).Follows .after outcome outcome')
    (early : (Change.fold lines).on earlier = earlier) :
    conclude name (outcome'.map (Prod.map (earlier ++ ·) id)) =
      match conclude name outcome with
      | .ok further => .ok
          { name
            items := placeItems [] earlier ++ further.items.map (·.recast (.down lines)) }
      | .error error => .error
          { error with pos := ⟨error.pos.line + lines, error.pos.column⟩ } := by
  have nothing : (fun state : ReadState => state.knowing []) = id := funext ReadState.knowing_nil
  rw [← nothing]
  refine conclude_knowing follows (fun late behind => ?_) nofun
  rw [List.append_nil, placeItems_of_later early behind]

/-- A script that ends with a complete line is read independently of the text behind it: the
statements of that text follow, further down by the number of lines, and so does its error. -/
theorem parse_append {front back : List Char} {limit : NestingLimit} {script : Script}
    (read : parse name front limit = .ok script)
    (complete : ∃ init, front = init ++ ['\n'] ∧ init.getLast? ≠ some '\\')
    (single : ¬['<', '<'] <:+: front) :
    parse name (front ++ back) limit =
      match parse name back limit with
      | .ok further => .ok
          { name, items := script.items ++ further.items.map (·.recast (.down (front.count '\n'))) }
      | .error error => .error
          { error with pos := ⟨error.pos.line + front.count '\n', error.pos.column⟩ } := by
  obtain ⟨init, rfl, unescaped⟩ := complete
  have filled : 0 < (init ++ ['\n']).count '\n' := List.count_pos_iff.mpr (by simp)
  obtain ⟨depth, levels⟩ := limit.levels_eq
  simp only [parse, parseWithin_eq_conclude, levels, Inner.level_statements] at read ⊢
  obtain ⟨result, after, run, ended, rfl⟩ := conclude_ok read
  obtain ⟨items, left, state, rfl, early, bodies, more, fresh, same⟩ :=
    statements_complete unescaped single (Nat.lt_succ_self (init ++ ['\n'] ++ back).length)
      run ended
  rw [same.trans (Reading.iterate_append left [] items), bodies]
  refine conclude_linesApart (statements_linesApart filled fresh more ?_) ?_
  · simp only [List.length_append]
    omega
  · rw [recast_reverse, early]

/-- A substitution that runs over two lines, and a here-document behind it. -/
theorem parse_append_hereDoc : ∃ first second,
    parse "" ['x', '=', '$', '(', 'a', '\n', ')', '\n'] = .ok first ∧
    parse "" ['c', '<', '<', 'E', '\n', '$', 'y', '\n', 'E'] = .ok second ∧
    parse "" (['x', '=', '$', '(', 'a', '\n', ')', '\n'] ++
        ['c', '<', '<', 'E', '\n', '$', 'y', '\n', 'E']) =
      .ok { name := "", items := first.items ++ second.items.map (·.recast (.down 2)) } := by
  obtain ⟨first, read⟩ : ∃ script, parse "" ['x', '=', '$', '(', 'a', '\n', ')', '\n'] =
    .ok script :=
    exists_of_isOk (by decide +kernel)
  obtain ⟨second, read'⟩ :
      ∃ script, parse "" ['c', '<', '<', 'E', '\n', '$', 'y', '\n', 'E'] = .ok script :=
    exists_of_isOk (by decide +kernel)
  refine ⟨first, second, read, read', ?_⟩
  rw [parse_append read ⟨['x', '=', '$', '(', 'a', '\n', ')'], rfl, by decide⟩ (by decide), read']
  rfl

end Script
end RecipeLint
