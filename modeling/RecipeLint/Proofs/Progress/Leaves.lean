import RecipeLint.Proofs.Consumption
import RecipeLint.Proofs.Scanning

/-!
# What readings consume that nest nothing

The readings that reach the level inside them only through texts of their own, if at all: names,
single quotes, patterns, indices, newlines with their here-documents, comments, and the fixed words
and signs between constructs.
-/

namespace RecipeLint

theorem name_firm {c : Char} (named : isNameStart c = true) (text : List Char) :
    Firm ((c :: text).takeWhile isNameChar) := by
  refine ⟨by simp [isNameChar_of_isNameStart named], Settled.of_forall fun d member => ?_⟩
  have holds := List.all_eq_true.mp List.all_takeWhile d member
  rintro rfl
  simp [isNameChar] at holds

namespace Reading

variable {inner : Inner} (state : ReadState)

theorem skipIf_moves (accepted : Char → Bool) :
    Moves (fun _ _ => True) state (skipIf accepted state) := by
  unfold skipIf
  simp only [current_bind]
  split
  · exact .ended trivial
  · exact .done trivial

theorem singleQuoted_moves (pos : Position) (dollar : Bool) :
    Moves (fun _ => Firm) state (singleQuoted pos dollar state) := by
  unfold singleQuoted
  simp only [here_bind, skip_bind, rest_bind]
  refine Moves.skipFirm 1 ?_
  cases found : singleEnd? dollar 0 (state.skip 1).cursor.rest with
  | none => exact .failed
  | some length =>
      obtain ⟨count, rfl, closed⟩ := singleEnd?_found found
      rw [Nat.zero_add]
      exact .ended (Firm.take closed (by decide))

theorem backquoted_moves : Moves (fun _ => Firm) state (backquoted inner state) := by
  unfold backquoted
  simp only [here_bind, skip_bind, rest_bind]
  refine Moves.skipFirm 1 ?_
  cases found : backquoteText? [] 0 (state.skip 1).cursor.rest with
  | none => exact .failed
  | some ended =>
      obtain ⟨text, length⟩ := ended
      obtain ⟨count, rfl, closed, -⟩ := backquoteText?_found found
      rw [Nat.zero_add]
      simp only [skip_bind]
      refine Moves.skip (count + 1)
        (Moves.bind (Moves.within _ _ _ _) fun _ after front _ stays => ?_)
      subst stays
      exact .done (by simpa using Firm.take closed (by decide))

theorem inlineWord_moves (text : List Char) (pos : Position) :
    Moves (fun _ => (· = [])) state (inlineWord inner text pos state) := by
  refine (Moves.within _ _ _ state).bind fun _ after front _ stays => ?_
  subst stays
  exact .done rfl

/-- An arithmetic expression ends in front of its closing bracket. -/
theorem arithmeticRound_stops (opening : Position) (closing : String) (nested : Nested Int) :
    Ends (fun _ => True)
      (Round.elim (fun _ _ => True) fun _ after => after.cursor.startsWith closing = true)
      (arithmeticRound inner opening closing nested state) := by
  unfold arithmeticRound
  simp only [here_bind, rest_bind]
  generalize state.cursor.rest = text
  cases text with
  | nil => trivial
  | cons c text =>
      simp only [cursor_bind]
      split
      next stops => exact (Bool.and_eq_true_iff.mp stops).2
      split
      · trivial
      split
      · refine Ends.bind (.trivial _) fun part after _ => ?_
        cases part <;> trivial
      split
      · exact Ends.bind (.trivial _) fun _ _ _ => trivial
      split
      · exact Ends.bind (.trivial _) fun _ _ _ => trivial
      split
      · trivial
      split
      · trivial
      · trivial

theorem index_moves : Moves (fun _ => Firm) state (index inner state) := by
  unfold index
  simp only [here_bind, skip_bind, rest_bind]
  refine Moves.skipFirm 1 ?_
  cases found : bracketEnd? '[' ']' 0 1 (state.skip 1).cursor.rest with
  | none => exact .failed
  | some length =>
      obtain ⟨count, rfl, closed⟩ := bracketEnd?_found (by decide) found
      simp only [Nat.zero_add, skip_bind]
      refine Moves.skip (count + 1) ((inlineWord_moves _ _ _).imp fun _ back stays => ?_)
      subst stays
      simpa using Firm.take closed (by decide)

theorem question_moves : Moves (fun _ _ => True) state (question state) := by
  unfold question
  simp only [rest_bind]
  cases Question.of? state.cursor.rest with
  | none => exact .done trivial
  | some question => exact .ended trivial

theorem parameterName_moves : Moves (fun _ _ => True) state (parameterName state) := by
  unfold parameterName
  simp only [rest_bind]
  split
  · exact .failed
  · exact .ended trivial

theorem namesMark_moves (question : Question) :
    Moves (fun _ _ => True) state (namesMark question state) := by
  unfold namesMark
  simp only [rest_bind]
  split
  · exact .ended trivial
  · exact .done trivial

theorem optionalIndex_moves : Moves (fun _ _ => True) state (optionalIndex inner state) := by
  unfold optionalIndex
  simp only [current_bind]
  split
  · exact (index_moves state).map fun _ _ _ => trivial
  · exact .done trivial

theorem glob_moves (mark : Char) : Moves (fun _ => Firm) state (glob mark state) := by
  unfold glob
  simp only [here_bind, skip_bind, rest_bind]
  refine Moves.skipFirm 2 ?_
  cases found : bracketEnd? '(' ')' 0 1 (state.skip 2).cursor.rest with
  | none => exact .failed
  | some length =>
      obtain ⟨count, rfl, closed⟩ := bracketEnd?_found (by decide) found
      rw [Nat.zero_add]
      exact .ended (Firm.take closed (by decide))

theorem hereDocBody_moves (awaited : Awaited) (text : List Char) (pos : Position) :
    Moves (fun _ => (· = [])) state (hereDocBody inner awaited text pos state) := by
  unfold hereDocBody
  split
  · exact .done rfl
  · exact inlineWord_moves state text pos

theorem hereDocRound_moves (awaited : Awaited) (value : Unit) :
    Moves (Turn (· ≠ []) fun _ _ => True) state (hereDocRound awaited value state) := by
  by_cases ended : state.cursor.rest = []
  · rw [hereDocRound_ended ended]
    exact .done trivial
  by_cases closed : awaited.closedBy (lineRun state.cursor.rest) = true
  · rw [hereDocRound_closed ended closed]
    exact .ended trivial
  · rw [hereDocRound_further ended closed]
    exact .ended (by simpa using ended)

theorem hereDoc_moves (awaited : Awaited) :
    Moves (fun _ _ => True) state (hereDoc inner awaited state) := by
  unfold hereDoc
  simp only [cursor_bind]
  refine Moves.bindAny (Moves.loopAny (fun value state => hereDocRound_moves state awaited value)
    _ _ _) fun stop after => ?_
  exact (hereDocBody_moves after awaited _ _).bindAny fun body after => .kept rfl trivial

theorem newline_moves :
    Moves (fun _ text => state.cursor.rest ≠ [] → text ≠ []) state (newline inner state) := by
  unfold newline
  simp only [skip_bind, get_bind, modify_bind]
  refine Moves.skip 1 (Moves.imp (Moves.forM (fun awaited state => hereDoc_moves state awaited) _ _)
    fun _ text _ filled => ?_)
  simp [filled]

theorem comment_moves {text : List Char} (shape : state.cursor.rest = '#' :: text) :
    Moves (fun _ => Firm) state (comment state) := by
  unfold comment
  simp only [here_bind, rest_bind, skip_bind, modify_bind]
  refine .skip _ (.kept rfl ?_)
  simp only [shape, List.drop_succ_cons, List.drop_zero, List.take_succ_cons, List.append_nil]
  rw [lineRun, take_length_takeWhile]
  refine (Firm.single (by decide)).append (Settled.of_forall fun c member => ?_)
  simpa using List.all_eq_true.mp List.all_takeWhile c member

theorem linebreakRound_moves (value : Unit) :
    Moves (Turn (· ≠ []) fun _ => Settled) state (linebreakRound inner value state) := by
  unfold linebreakRound
  simp only [skipBlanks_bind, current_bind]
  refine Moves.skipBlanks fun blanks settled => ?_
  generalize shape : state.skipBlanks.cursor.rest.head? = c
  split
  · obtain ⟨rest, rest_eq⟩ := List.head?_eq_some_iff.mp shape
    refine (newline_moves state.skipBlanks).bind fun _ after text _ filled => ?_
    exact .done (by simp [filled (by simp [rest_eq])])
  · obtain ⟨rest, rest_eq⟩ := List.head?_eq_some_iff.mp shape
    refine (comment_moves state.skipBlanks rest_eq).bind fun _ after text _ firm => ?_
    exact .kept rfl (by simp [firm.1])
  · exact .done (by simpa using settled)

theorem linebreaks_moves : Moves (fun _ _ => True) state (linebreaks inner state) :=
  Moves.loopAny (fun value state => linebreakRound_moves state value) _ _ _

theorem await_moves (redirect : Redirect) :
    Moves (fun _ => (· = [])) state (await redirect state) := by
  unfold await
  split
  · exact .kept rfl rfl
  · exact .done rfl

theorem assignIndex_moves (head : AssignHead) :
    Moves (fun _ => (· = [])) state (assignIndex inner head state) := by
  unfold assignIndex
  cases head.index with
  | none => exact .done rfl
  | some index => exact (inlineWord_moves state index _).map fun _ _ stays => stays

theorem assignHead_firm (head : AssignHead) : Firm head.text := by
  unfold AssignHead.text AssignHead.operator
  split
  · exact (@Firm.of_last ['+'] '=' (by decide)).behind _
  · exact Firm.of_last (by decide)

theorem emptyParentheses_moves : Moves (fun _ => Firm) state (emptyParentheses state) := by
  unfold emptyParentheses
  simp only [skip_bind, skipBlanks_bind, current_bind]
  refine Moves.skipFirm 1 (Moves.blanksFirm ?_)
  split
  next found => exact .last found (by decide)
  next => exact .failed

theorem finishCall_moves (pos : Position) (draft : CallDraft) :
    Moves (fun _ text => text = [] ∧ draft ≠ ⟨[], [], []⟩) state (finishCall pos draft state) := by
  unfold finishCall
  split
  · split
    · exact .failed
    next written =>
      refine .done ⟨rfl, ?_⟩
      rintro rfl
      exact written rfl
  next written =>
    refine .done ⟨rfl, ?_⟩
    rintro rfl
    exact written rfl

/-- The text after which a simple command ends, given what has been read of it: never nothing at
all. -/
def CallEnd (draft : CallDraft) (text : List Char) : Prop :=
  Settled text ∧ (draft = ⟨[], [], []⟩ → Firm text)

theorem CallEnd.of_firm {draft : CallDraft} {text : List Char} (firm : Firm text) :
    CallEnd draft text :=
  ⟨firm.settled, fun _ => firm⟩

theorem expectWord_moves {word : String} (plain : word.toList.getLast?.any (· ≠ '\n') = true) :
    Moves (fun _ => Firm) state (expectWord word state) := by
  unfold expectWord
  simp only [skipBlanks_bind, cursor_bind]
  refine Moves.blanksFirm ?_
  split
  next found => exact .recognised (Cursor.startsWith_of_atWord found) plain
  next => exact .failed

theorem rangeEnd_moves : Moves (fun _ _ => True) state (rangeEnd state) :=
  Moves.blanksAny (skipIf_moves _ _)

theorem rangeName_moves (keyword : String) :
    Moves (fun _ _ => True) state (rangeName keyword state) := by
  unfold rangeName
  simp only [rest_bind, skip_bind, cursor_bind]
  refine Moves.skipAny (nameRun state.cursor.rest).length ?_
  split
  · exact .failed
  · exact .done trivial

theorem caseEnd_moves : Moves (fun _ _ => True) state (caseEnd state) := by
  unfold caseEnd
  simp only [rest_bind]
  cases CaseEnd.of? state.cursor.rest with
  | none => exact .done trivial
  | some ending => exact .ended trivial

theorem optionalParentheses_moves : Moves (fun _ _ => True) state (optionalParentheses state) := by
  unfold optionalParentheses
  simp only [current_bind]
  split
  · exact (emptyParentheses_moves state).any
  · exact .done trivial

theorem testOperator_firm {text operator : List Char}
    (found : testOperator? text = some operator) : Firm (text.take operator.length) := by
  have member := List.mem_of_find?_eq_some found
  obtain ⟨rest, rfl⟩ := front_of_find? id found
  rw [id, List.take_left]
  simp only [List.mem_cons, List.not_mem_nil, or_false] at member
  rcases member with rfl | rfl | rfl | rfl | rfl | rfl <;> exact Firm.of_getLast rfl

theorem join_moves {right : Reading Stmt}
    (moves : ∀ state, Moves (fun _ => Firm) state (right state)) (left : Stmt)
    (connective : Connective) :
    Moves (Turn Firm fun _ => Settled) state (join inner left connective right state) := by
  unfold join
  simp only [skip_bind]
  refine Moves.skip connective.text.length ?_
  refine (linebreaks_moves _).bind fun _ after blanks _ _ => ?_
  exact (moves after).returning fun _ _ firm => (firm.behind blanks).behind _

theorem takeComments_moves (items : List Item) :
    Moves (fun _ => (· = [])) state (takeComments items state) :=
  .kept rfl rfl

theorem statementEnd_moves : Moves (fun _ => Settled) state (statementEnd state) := by
  unfold statementEnd
  simp only [skipBlanks_bind, rest_bind]
  refine Moves.blanksSettled ?_
  split
  · exact .done .nil
  rw [current_bind]
  generalize shape : state.skipBlanks.cursor.rest.head? = c
  split
  · exact .done .nil
  · exact .done .nil
  · exact .done .nil
  · exact .done .nil
  · exact (Moves.last shape (by decide)).firm
  · exact (Moves.last shape (by decide)).firm
  · simp only [wordAt_bind]
    split
    · exact .failed
    · exact .done .nil

end Reading
end RecipeLint
