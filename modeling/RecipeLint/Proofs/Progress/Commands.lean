import RecipeLint.Proofs.Progress.Words

/-!
# What commands consume

What commands and statements consume, and with it that the productions of every level move forward:
each round of a loop that asks for another round consumes something, and a command or a statement
consumes a firm text, so it never swallows the newline that ends its line.
-/

namespace RecipeLint
namespace Reading

variable {inner : Inner} (moving : inner.Moving) (state : ReadState)

variable (pos : Position) (keyword : String) (stops : List String)

include moving

/-! ## Simple commands -/

theorem redirect_moves (head : RedirectHead) :
    Moves (fun _ => Firm) state (redirect inner head state) := by
  unfold redirect
  simp only [here_bind, skip_bind, skipBlanks_bind, current_bind]
  refine Moves.skipFirm head.text.length (Moves.blanksFirm ?_)
  split
  · exact .failed
  · refine (word_moves moving _).firmBind fun target after => ?_
    exact (await_moves after _).bind fun _ after front _ stays =>
      .done (by simp [stays, Settled.nil])

theorem elementRound_moves (elements : List Word) :
    Moves (Turn Firm fun _ => Firm) state (elementRound inner elements state) := by
  unfold elementRound
  refine (linebreaks_moves state).bind fun _ after blanks _ _ => ?_
  simp only [current_bind]
  generalize shape : after.cursor.rest.head? = c
  split
  · exact .failed
  · exact .ended ((Firm.first shape (by decide)).behind blanks)
  · exact (word_moves moving after).returning fun _ _ => Firm.behind blanks

theorem value_moves : Moves (fun _ => Settled) state (value inner state) := by
  unfold value
  simp only [current_bind]
  split
  · refine Moves.firm (Moves.skipFirm 1 (Moves.returning ?_ fun _ _ firm => firm))
    exact Moves.iterate Firm (fun elements state => elementRound_moves moving state elements)
      (fun _ front _ _ => Firm.behind front) _ _ _
  rw [cursor_bind]
  split
  · exact .done Settled.nil
  · exact ((word_moves moving state).returning fun _ _ firm => firm.settled)

omit moving in
theorem assignHead_moves {head : AssignHead}
    (found : AssignHead.of? state.cursor.rest = some head) :
    Moves (fun _ => Firm) state (assignHead inner head state) := by
  obtain ⟨rest, rest_eq⟩ := (AssignHead.starts_of_of? found).written
  have whole : state.cursor.rest.take (head.name.length +
      ((head.indexText.getD []).length + head.operator.length)) = head.text := by
    rw [← head.length_text, rest_eq, List.take_left]
  unfold assignHead
  simp only [skip_bind]
  refine Moves.skip head.name.length ((assignIndex_moves _ head).bind fun index after front passes
    stays => ?_)
  subst stays
  have after_eq : after.cursor.rest = state.cursor.rest.drop head.name.length := by
    simpa using passes.rest_eq.symm
  refine .ended ?_
  rw [after_eq, List.nil_append, ← List.take_add, whole]
  exact assignHead_firm head

theorem assign_moves {head : AssignHead} (found : AssignHead.of? state.cursor.rest = some head) :
    Moves (fun _ => Firm) state (assign inner head state) := by
  unfold assign
  simp only [here_bind]
  refine (assignHead_moves state found).firmBind fun index after => ?_
  exact (value_moves moving after).returning fun _ _ settled => settled

theorem declarationRound_moves (draft : DeclarationDraft) :
    Moves (Turn Firm fun _ => Settled) state (declarationRound inner draft state) := by
  unfold declarationRound
  simp only [skipBlanks_bind, redirectAt_bind]
  refine Moves.skipBlanks fun blanks settled => ?_
  cases RedirectHead.starting? state.skipBlanks.cursor.rest with
  | some head => exact (redirect_moves moving _ head).returning fun _ _ => Firm.behind blanks
  | none =>
      simp only [current_bind]
      split
      · exact .done (by simpa using settled)
      rw [rest_bind]
      cases found : AssignHead.of? state.skipBlanks.cursor.rest with
      | some head => exact (assign_moves moving _ found).returning fun _ _ => Firm.behind blanks
      | none =>
          exact (word_moves moving _).returning fun _ _ => Firm.behind blanks

theorem declaration_moves (redirects : List Redirect) (keyword : Word)
    (declarator : Declarator) :
    Moves (fun _ => Settled) state (declaration inner pos redirects keyword declarator state) :=
  (Moves.iterate Firm (fun draft state => declarationRound_moves moving state draft)
    (fun _ _ _ firm settled => firm.settled.append settled) _ _ _).returning
      fun _ _ settled => settled

theorem evaluationRound_moves (draft : EvaluationDraft) :
    Moves (Turn Firm fun _ => Settled) state (evaluationRound inner draft state) := by
  unfold evaluationRound
  simp only [skipBlanks_bind, redirectAt_bind]
  refine Moves.skipBlanks fun blanks settled => ?_
  cases RedirectHead.starting? state.skipBlanks.cursor.rest with
  | some head => exact (redirect_moves moving _ head).returning fun _ _ => Firm.behind blanks
  | none =>
      simp only [current_bind]
      split
      · exact .done (by simpa using settled)
      · exact (word_moves moving _).returning fun _ _ => Firm.behind blanks

theorem evaluation_moves (redirects : List Redirect) (keyword : Word) :
    Moves (fun _ => Settled) state (evaluation inner pos redirects keyword state) :=
  (Moves.iterate Firm (fun draft state => evaluationRound_moves moving state draft)
    (fun _ _ _ firm settled => firm.settled.append settled) _ _ _).returning
      fun _ _ settled => settled

theorem functionAfterName_moves (name : String) :
    Moves (fun _ => Firm) state (functionAfterName inner pos name state) := by
  unfold functionAfterName
  refine (emptyParentheses_moves state).bindFirm fun _ after => ?_
  refine (linebreaks_moves after).bindFirm fun _ after => ?_
  exact (moving.command after).returning fun _ _ firm => firm

theorem callFunction_moves (draft : CallDraft) :
    Moves (fun _ => Firm) state (callFunction inner pos draft state) := by
  unfold callFunction
  split
  next name redirects =>
    cases name.literal? with
    | none => exact .failed
    | some text => exact (functionAfterName_moves moving _ _ _).returning fun _ _ firm => firm
  next => exact .failed

theorem callWord_moves (draft : CallDraft) :
    Moves (Turn Firm fun _ => Firm) state (callWord inner pos draft state) := by
  unfold callWord
  refine (word_moves moving state).bind fun word after text _ firm => ?_
  generalize (if (draft.args.isEmpty && draft.assigns.isEmpty) = true then word.literal? else none)
    = keyword
  cases keyword.bind Declarator.of? with
  | some declarator =>
      exact (declaration_moves moving after _ _ _ _).returning fun _ _ => firm.append
  | none =>
      simp only
      split
      · exact (evaluation_moves moving after _ _ _).returning fun _ _ => firm.append
      · exact .done (by simpa using firm)

theorem callRound_moves (draft : CallDraft) :
    Moves (Turn Firm fun _ => CallEnd draft) state (callRound inner pos draft state) := by
  unfold callRound
  simp only [skipBlanks_bind, redirectAt_bind]
  refine Moves.skipBlanks fun blanks settled => ?_
  have finished (state : ReadState) :=
    (finishCall_moves state pos draft).imp fun _ back ⟨stays, written⟩ =>
      show CallEnd draft (blanks ++ back) from
        ⟨by simpa [stays] using settled, fun blank => absurd blank written⟩
  cases RedirectHead.starting? state.skipBlanks.cursor.rest with
  | some head => exact (redirect_moves moving _ head).returning fun _ _ => Firm.behind blanks
  | none =>
      simp only [current_bind]
      cases state.skipBlanks.cursor.rest.head? with
      | none => exact (finished _).returning fun _ _ ends => ends
      | some c =>
          have worded := (callWord_moves moving state.skipBlanks pos draft).imp
            fun result back fits =>
            show Turn Firm (fun _ => CallEnd draft) result (blanks ++ back) by
              cases result with
              | again _ => exact Firm.behind blanks fits
              | done _ => exact CallEnd.of_firm (Firm.behind blanks fits)
          simp only
          split
          · exact (finished _).returning fun _ _ ends => ends
          split
          · exact (callFunction_moves moving _ pos draft).returning fun _ _ firm =>
              CallEnd.of_firm (Firm.behind blanks firm)
          split
          · rw [rest_bind]
            cases found : AssignHead.of? state.skipBlanks.cursor.rest with
            | some head =>
                exact (assign_moves moving _ found).returning fun _ _ => Firm.behind blanks
            | none => exact worded
          · exact worded

theorem call_moves : Moves (fun _ => Firm) state (call inner pos state) := by
  refine (Moves.iterateFirm (fun draft state => callRound_moves moving state pos draft)
    (fun _ _ _ ends => ends.1) _ _ state).imp fun _ text reached => ?_
  rcases reached with ends | firm
  · exact ends.2 rfl
  · exact firm

/-! ## Compound commands -/

theorem block_moves : Moves (fun _ => Firm) state (block inner state) := by
  unfold block
  simp only [here_bind, skip_bind]
  refine Moves.skipFirm 1 ((moving.statements _ _).bindFirm fun body after => ?_)
  exact (expectWord_moves after (by decide)).returning fun _ _ firm => firm

theorem subshell_moves : Moves (fun _ => Firm) state (subshell inner state) := by
  unfold subshell
  simp only [here_bind, skip_bind]
  refine Moves.skipFirm 1 ((moving.statements _ _).bindFirm fun body after => ?_)
  simp only [current_bind]
  split
  next found => exact .last found (by decide)
  next => exact .failed

theorem alternative_moves : Moves (fun _ => Firm) state (alternative inner state) := by
  unfold alternative
  simp only [skipBlanks_bind, here_bind, wordAt_bind]
  refine Moves.blanksFirm ?_
  cases found : ["elif", "else", "fi"].find? state.skipBlanks.cursor.atWord with
  | none => exact .failed
  | some word =>
      have starts := Cursor.startsWith_of_atWord (List.find?_some found)
      have member := List.mem_of_find?_eq_some found
      simp only [List.mem_cons, List.not_mem_nil, or_false] at member
      rcases member with rfl | rfl | rfl
      · exact (moving.furtherConditional _).returning fun _ _ firm => firm
      · simp only [skip_bind]
        refine Moves.skipFirm 4 ((moving.statements _ _).bindFirm fun items after => ?_)
        exact (expectWord_moves after (by decide)).returning fun _ _ firm => firm
      · exact .recognised starts (by decide)

theorem conditional_moves :
    Moves (fun _ => Firm) state (conditional inner keyword state) := by
  unfold conditional
  simp only [here_bind, skip_bind]
  refine Moves.skipFirm keyword.length ((moving.statements _ _).bindFirm fun condition after => ?_)
  refine (expectWord_moves after (by decide)).bindFirm fun _ after => ?_
  refine (moving.statements _ after).bindFirm fun consequence after => ?_
  exact (alternative_moves moving after).returning fun _ _ firm => firm

theorem loopBody_moves : Moves (fun _ => Firm) state (loopBody inner state) := by
  unfold loopBody
  refine (linebreaks_moves state).bindFirm fun _ after => ?_
  refine (expectWord_moves after (by decide)).bindFirm fun _ after => ?_
  refine (moving.statements _ after).bindFirm fun body after => ?_
  exact (expectWord_moves after (by decide)).returning fun _ _ firm => firm

theorem loop_moves :
    Moves (fun _ => Firm) state (loop inner keyword state) := by
  unfold loop
  simp only [here_bind, skip_bind]
  refine Moves.skipFirm keyword.length ((moving.statements _ _).bindFirm fun condition after => ?_)
  exact (loopBody_moves moving after).returning fun _ _ firm => firm

theorem rangeRound_moves (items : List Word) :
    Moves (Turn Firm fun _ => Settled) state (rangeRound inner items state) := by
  unfold rangeRound
  simp only [skipBlanks_bind, current_bind]
  refine Moves.skipBlanks fun blanks settled => ?_
  split
  · exact .done (by simpa using settled)
  · exact (word_moves moving _).returning fun _ _ => Firm.behind blanks

theorem rangeWords_moves : Moves (fun _ _ => True) state (rangeWords inner state) := by
  unfold rangeWords
  simp only [cursor_bind]
  split
  · exact Moves.skipAny 2 ((Moves.loopAny (fun items state => rangeRound_moves moving state items)
      _ _ _).map fun _ _ _ => trivial)
  · exact .done trivial

theorem wordRange_moves :
    Moves (fun _ _ => True) state (wordRange inner keyword state) := by
  unfold wordRange
  simp only [here_bind]
  refine (rangeName_moves _ _).bindAny fun name after => ?_
  refine (linebreaks_moves after).bindAny fun _ after => ?_
  refine (rangeWords_moves moving after).bindAny fun items after => ?_
  exact (rangeEnd_moves after).returning fun _ _ _ => trivial

theorem arithmeticRange_moves : Moves (fun _ _ => True) state (arithmeticRange inner state) := by
  unfold arithmeticRange
  simp only [here_bind, skip_bind]
  refine Moves.skipAny 2 ((arithmeticParts_moves moving _ (by decide)).bindAny
    fun parts after => ?_)
  exact (rangeEnd_moves after).returning fun _ _ _ => trivial

theorem range_moves :
    Moves (fun _ _ => True) state (range inner keyword state) := by
  unfold range
  simp only [cursor_bind]
  split
  · exact arithmeticRange_moves moving state
  · exact wordRange_moves moving state keyword

theorem iteration_moves :
    Moves (fun _ => Firm) state (iteration inner keyword state) := by
  unfold iteration
  simp only [here_bind, skip_bind, skipBlanks_bind]
  refine Moves.skipFirm keyword.length (Moves.blanksFirm ?_)
  refine (range_moves moving _ keyword).bindFirm fun range after => ?_
  exact (loopBody_moves moving after).returning fun _ _ firm => firm

theorem patternRound_moves (patterns : List Word) :
    Moves (Turn Firm fun _ => Firm) state (patternRound inner patterns state) := by
  unfold patternRound
  simp only [skipBlanks_bind]
  refine Moves.skipBlanks fun blanks _ =>
    (word_moves moving _).bind fun word after text _ firm => ?_
  simp only [skipBlanks_bind, current_bind]
  refine Moves.skipBlanks fun spaces settled => ?_
  have read : Firm (blanks ++ (text ++ spaces)) := (firm.append settled).behind blanks
  split
  next found =>
    refine .ended ?_
    have piped := (Firm.first found (by decide)).behind (blanks ++ (text ++ spaces))
    simpa [List.append_assoc] using piped
  next => exact .done (by simpa using read)

theorem caseItem_moves : Moves (fun _ text => text ≠ []) state (caseItem inner state) := by
  unfold caseItem
  simp only [here_bind]
  refine (skipIf_moves _ _).bind fun _ after front _ _ => ?_
  refine Moves.bind
    (Moves.iterate Firm (fun patterns state => patternRound_moves moving state patterns)
    (fun _ front _ _ => Firm.behind front) _ _ _) fun patterns after text _ firm => ?_
  simp only [current_bind]
  split
  · rw [skip_bind]
    refine Moves.imp (Moves.skipAny 1 ((moving.statements _ _).bindAny fun body after =>
      (caseEnd_moves after).returning fun _ _ _ => trivial)) fun _ back _ => ?_
    simp [firm.1]
  · exact .failed

theorem caseRound_moves (items : List CaseItem) :
    Moves (Turn (· ≠ []) fun _ => Firm) state (caseRound inner items state) := by
  unfold caseRound
  refine (linebreaks_moves state).bind fun _ after blanks _ _ => ?_
  simp only [cursor_bind]
  split
  next found =>
    exact .ended ((Firm.recognised (Cursor.startsWith_of_atWord found) (by decide)).behind blanks)
  next =>
    rw [cursor_bind]
    split
    · exact .failed
    · exact (caseItem_moves moving after).returning fun _ text filled => by simp [filled]

theorem case_moves : Moves (fun _ => Firm) state (case inner state) := by
  unfold case
  simp only [here_bind, skip_bind, skipBlanks_bind]
  refine Moves.skipFirm 4 (Moves.blanksFirm ?_)
  refine (word_moves moving _).bindFirm fun subject after => ?_
  refine (linebreaks_moves after).bindFirm fun _ after => ?_
  refine (expectWord_moves after (by decide)).bindFirm fun _ after => ?_
  exact (Moves.iterate (· ≠ []) (fun items state => caseRound_moves moving state items)
    (fun _ front _ _ => Firm.behind front) _ _ _).returning fun _ _ firm => firm

theorem keywordFunction_moves : Moves (fun _ => Firm) state (keywordFunction inner state) := by
  unfold keywordFunction
  simp only [here_bind, skip_bind, skipBlanks_bind]
  refine Moves.skipFirm 8 (Moves.blanksFirm ?_)
  refine (word_moves moving _).bindFirm fun word after => ?_
  cases word.literal? with
  | none => exact .failed
  | some name =>
      simp only [skipBlanks_bind]
      refine Moves.blanksFirm ((optionalParentheses_moves _).bindFirm fun _ after => ?_)
      refine (linebreaks_moves after).bindFirm fun _ after => ?_
      exact (moving.command after).returning fun _ _ firm => firm

theorem testRound_moves (words : List Word) :
    Moves (Turn (· ≠ []) fun _ => Firm) state (testRound inner words state) := by
  unfold testRound
  refine (linebreaks_moves state).bind fun _ after blanks _ _ => ?_
  simp only [cursor_bind]
  split
  next found =>
    exact .ended ((Firm.recognised (Cursor.startsWith_of_atWord found) (by decide)).behind blanks)
  next =>
    rw [cursor_bind]
    split
    · exact .failed
    rw [rest_bind]
    cases found : testOperator? after.cursor.rest with
    | some operator => exact .ended (((testOperator_firm found).behind blanks).1)
    | none =>
        exact (wordUpTo_moves moving after (by decide)).returning fun _ _ firm =>
          (firm.behind blanks).1

theorem test_moves : Moves (fun _ => Firm) state (test inner state) := by
  unfold test
  simp only [here_bind, skip_bind]
  exact Moves.skipFirm 2 ((Moves.iterate (· ≠ [])
    (fun words state => testRound_moves moving state words)
    (fun _ front _ _ => Firm.behind front) _ _ _).returning fun _ _ firm => firm)

theorem arithmetic_moves : Moves (fun _ => Firm) state (arithmetic inner state) := by
  unfold arithmetic
  simp only [here_bind, skip_bind]
  exact Moves.skipFirm 2
    ((arithmeticParts_moves moving _ (by decide)).returning fun _ _ firm => firm)

theorem redirectRound_moves (redirects : List Redirect) :
    Moves (Turn Firm fun _ => Settled) state (redirectRound inner redirects state) := by
  unfold redirectRound
  simp only [skipBlanks_bind, redirectAt_bind]
  refine Moves.skipBlanks fun blanks settled => ?_
  cases RedirectHead.starting? state.skipBlanks.cursor.rest with
  | some head => exact (redirect_moves moving _ head).returning fun _ _ => Firm.behind blanks
  | none => exact .done (by simpa using settled)

theorem compound?_moves : Moves Whole state (compound? inner state) := by
  unfold compound?
  simp only [cursor_bind]
  split
  · exact (arithmetic_moves moving state).map fun _ _ firm => firm
  split
  · exact (subshell_moves moving state).map fun _ _ firm => firm
  generalize compoundWords.find? state.cursor.atWord = word
  split
  · exact (block_moves moving state).map fun _ _ firm => firm
  · exact (conditional_moves moving state _).map fun _ _ firm => firm
  · exact (loop_moves moving state _).map fun _ _ firm => firm
  · exact (loop_moves moving state _).map fun _ _ firm => firm
  · exact (iteration_moves moving state _).map fun _ _ firm => firm
  · exact (iteration_moves moving state _).map fun _ _ firm => firm
  · exact (case_moves moving state).map fun _ _ firm => firm
  · exact (keywordFunction_moves moving state).map fun _ _ firm => firm
  · exact (test_moves moving state).map fun _ _ firm => firm
  · exact .done rfl

theorem command_moves : Moves (fun _ => Firm) state (command inner state) := by
  unfold command
  simp only [skipBlanks_bind, here_bind]
  refine Moves.blanksFirm ((compound?_moves moving _).bind fun found after text _ whole => ?_)
  cases found with
  | none => exact (call_moves moving after _).imp fun _ _ => Firm.behind text
  | some command =>
      exact (Moves.iterate Firm (fun redirects state => redirectRound_moves moving state redirects)
        (fun _ _ _ firm settled => firm.settled.append settled) _ _ _).returning
          fun _ _ => Firm.append whole

/-! ## Statements -/

theorem pipelineRound_moves (left : Stmt) :
    Moves (Turn Firm fun _ => Settled) state (pipelineRound inner left state) := by
  unfold pipelineRound
  simp only [skipBlanks_bind, rest_bind]
  refine Moves.skipBlanks fun blanks settled => ?_
  cases Connective.pipe? state.skipBlanks.cursor.rest with
  | none => exact .done (by simpa using settled)
  | some connective => exact (join_moves _ (command_moves moving) left _).behind settled

theorem pipes_moves : Moves (fun _ => Firm) state (pipes inner state) :=
  (command_moves moving state).firmBind fun _ _ =>
    Moves.iterate Firm (fun left state => pipelineRound_moves moving state left)
      (fun _ _ _ firm settled => firm.settled.append settled) _ _ _

theorem pipeline_moves : Moves (fun _ => Firm) state (pipeline inner state) := by
  unfold pipeline
  simp only [skipBlanks_bind, here_bind, rest_bind]
  refine Moves.blanksFirm ?_
  split
  · rw [skip_bind]
    exact Moves.skipFirm 1 ((pipes_moves moving _).returning fun _ _ firm => firm)
  · exact pipes_moves moving _

theorem logicRound_moves (left : Stmt) :
    Moves (Turn Firm fun _ => Settled) state (logicRound inner left state) := by
  unfold logicRound
  simp only [skipBlanks_bind, rest_bind]
  refine Moves.skipBlanks fun blanks settled => ?_
  cases Connective.logical? state.skipBlanks.cursor.rest with
  | none => exact .done (by simpa using settled)
  | some connective => exact (join_moves _ (pipeline_moves moving) left _).behind settled

theorem logic_moves : Moves (fun _ => Firm) state (logic inner state) :=
  (pipeline_moves moving state).firmBind fun _ _ =>
    Moves.iterate Firm (fun left state => logicRound_moves moving state left)
      (fun _ _ _ firm settled => firm.settled.append settled) _ _ _

theorem statement_moves (items : List Item) :
    Moves (fun _ => Firm) state (statement inner items state) := by
  unfold statement
  refine (logic_moves moving state).firmBind fun stmt after => ?_
  refine Moves.bindSettled ((takeComments_moves after []).imp fun _ _ stays => stays ▸ .nil)
    fun comments after => ?_
  exact (statementEnd_moves after).returning fun _ _ settled => settled

/-- A round of statements swallows a newline only where the newline stands in place of a
statement. -/
theorem statementRound_turns (items : List Item) :
    Moves (Turn (fun text => text ≠ [] ∧
        (state.skipBlanks.cursor.rest.head? ≠ some '\n' → Settled text)) fun _ => Settled)
      state (statementRound inner stops items state) := by
  unfold statementRound
  simp only [skipBlanks_bind]
  refine Moves.skipBlanks fun blanks settled => ?_
  refine (takeComments_moves _ items).bind fun items after front passes stays => ?_
  subst stays
  have same : after.cursor.rest = state.skipBlanks.cursor.rest := passes.rest_eq.symm
  simp only [rest_bind, List.nil_append]
  have ended {items : List Item} : Moves (fun result back => Turn (α := List Item)
      (fun text => text ≠ [] ∧ (state.skipBlanks.cursor.rest.head? ≠ some '\n' → Settled text))
      (fun _ => Settled) result (blanks ++ back)) after (.ok (.done items, after)) :=
    .done (by simpa using settled)
  have firmly {text : List Char} (firm : Firm text) : blanks ++ text ≠ [] ∧
      (state.skipBlanks.cursor.rest.head? ≠ some '\n' → Settled (blanks ++ text)) :=
    ⟨(firm.behind blanks).1, fun _ => (firm.behind blanks).settled⟩
  split
  · exact ended
  rw [current_bind]
  generalize shape : after.cursor.rest.head? = c
  split
  · exact ended
  · obtain ⟨rest, rest_eq⟩ := List.head?_eq_some_iff.mp shape
    refine (newline_moves after).returning fun _ text filled => ?_
    exact ⟨by simp [filled (by simp [rest_eq])], fun plain => absurd (same ▸ shape) plain⟩
  · obtain ⟨rest, rest_eq⟩ := List.head?_eq_some_iff.mp shape
    exact (comment_moves after rest_eq).returning fun _ text firm => firmly firm
  · split
    · exact ended
    · exact .failed
  · rw [wordAt_bind]
    cases listTerminators.find? after.cursor.atWord with
    | none => exact (statement_moves moving after items).returning fun _ _ firm => firmly firm
    | some word =>
        simp only
        split
        · exact ended
        · exact .failed

theorem statementRound_moves (items : List Item) :
    Moves (Turn (· ≠ []) fun _ => Settled) state (statementRound inner stops items state) :=
  (statementRound_turns moving state stops items).imp fun result _ fits => by
    cases result with
    | again _ => exact fits.1
    | done _ => exact fits

theorem statementRound_settles (items : List Item)
    (plain : state.skipBlanks.cursor.rest.head? ≠ some '\n') :
    Moves (fun _ => Settled) state (statementRound inner stops items state) :=
  (statementRound_turns moving state stops items).imp fun result _ fits => by
    cases result with
    | again _ => exact fits.2 plain
    | done _ => exact fits

theorem statements_moves :
    Moves (fun _ _ => True) state (statements inner stops state) :=
  Moves.loopAny (fun items state => statementRound_moves moving state stops items) _ _ _

end Reading

namespace Inner

theorem Moving.around {inner : Inner} (moving : inner.Moving) : inner.around.Moving where
  statements stops state := Reading.statements_moves moving state stops
  command state := Reading.command_moves moving state
  furtherConditional state := Reading.conditional_moves moving state "elif"
  expansion quoted state := Reading.expansion_moves moving state quoted

theorem tooDeep_moving (rounds : Nat) : (tooDeep rounds).Moving where
  statements _ _ := trivial
  command _ := trivial
  furtherConditional _ := trivial
  expansion _ _ := trivial

/-- The productions of every level move forward. -/
theorem level_moving (rounds depth : Nat) : (level rounds depth).Moving := by
  induction depth with
  | zero => exact tooDeep_moving rounds
  | succ depth ih => exact ih.around

end Inner
end RecipeLint
