import RecipeLint.Proofs.Progress.Leaves

/-!
# What words consume

What quoted parts, expansions and words consume, given what the productions one level further in
consume.  Every round that asks for another one consumes something, and a whole part or word
consumes a firm text.
-/

namespace RecipeLint

/-- The text of a construct that may be absent: firm if there is one, else empty. -/
def Whole : Option α → List Char → Prop
  | some _ => Firm
  | none => (· = [])

@[simp]
theorem whole_some (value : α) : Whole (some value) = Firm := rfl

/-- A level whose productions move forward. -/
structure Inner.Moving (inner : Inner) : Prop where
  statements : ∀ stops (state : ReadState),
    Reading.Moves (fun _ _ => True) state (inner.statements stops state)
  command : ∀ state : ReadState,
    Reading.Moves (fun _ => Firm) state (inner.command state)
  furtherConditional : ∀ state : ReadState,
    Reading.Moves (fun _ => Firm) state (inner.furtherConditional state)
  expansion : ∀ quoted (state : ReadState),
    Reading.Moves Whole state (inner.expansion quoted state)

namespace Reading

variable {inner : Inner} (moving : inner.Moving) (state : ReadState)

include moving

/-! ## Quoted parts -/

/-- A dollar sign is read as an expansion or taken literally, and is consumed in both cases. -/
theorem expansion_or_literal {quoted : Bool} {taken : Part → α} {literal : α} {c : Char}
    {text : List Char} (shape : state.cursor.rest = c :: text) (plain : c ≠ '\n')
    (done : β → List Char → Prop) :
    Moves (Turn Firm done) state ((do
      match ← inner.expansion quoted with
      | some part => return .again (taken part)
      | none =>
          skip 1
          return .again literal : Reading (Round α β)) state) := by
  refine (moving.expansion quoted state).bind fun part after front passes whole => ?_
  cases part with
  | none =>
      cases whole
      have same := passes.rest_eq.symm.trans shape
      rw [List.nil_append] at same
      exact .ended (by simpa [same] using Firm.single plain)
  | some part => exact .done (by simpa using whole)

theorem quotedRound_moves (stop : Option Char) (pieces : Pieces) :
    Moves (Turn (· ≠ []) fun _ => (· = [])) state (quotedRound inner stop pieces state) := by
  unfold quotedRound
  simp only [here_bind, rest_bind]
  generalize shape : state.cursor.rest = text
  cases text with
  | nil => exact .done rfl
  | cons c text =>
      have skipped {value : Pieces} (count : Nat) :
          Moves (Turn (· ≠ []) fun (_ : List Part) => (· = [])) state
            (.ok (.again value, state.skip (count + 1))) :=
        .ended (by simp [shape])
      simp only
      split
      · exact .done rfl
      split
      · split
        · exact skipped 1
        split
        · exact skipped 1
        · exact skipped 0
      split
      · exact (Moves.adding (backquoted_moves state)).filled
      split
      next dollar =>
        subst dollar
        exact (expansion_or_literal moving state shape (by decide) _).filled
      next => exact skipped 0

theorem quotedParts_moves (stop : Option Char) :
    Moves (fun _ _ => True) state (quotedParts inner stop state) :=
  Moves.loopAny (fun pieces state => quotedRound_moves moving state stop pieces) _ _ state

theorem doubleQuoted_moves (pos : Position) (dollar : Bool) :
    Moves (fun _ => Firm) state (doubleQuoted inner pos dollar state) := by
  unfold doubleQuoted
  simp only [here_bind, skip_bind]
  refine Moves.skipFirm 1 (Moves.bindFirm (quotedParts_moves moving _ _) fun parts after => ?_)
  simp only [current_bind]
  split
  next found => exact .last found (by decide)
  next => exact .failed

theorem substituted_moves (opening : String) :
    Moves (fun _ => Firm) state (substituted inner opening state) := by
  unfold substituted
  simp only [here_bind, skip_bind]
  refine Moves.skipFirm 2 (Moves.bindFirm (moving.statements _ _) fun items after => ?_)
  simp only [current_bind]
  split
  next found => exact .last found (by decide)
  next => exact .failed

/-! ## Expansions -/

theorem arithmeticRound_moves (opening : Position) (closing : String) (nested : Nested Int) :
    Moves (Turn (· ≠ []) fun _ => (· = [])) state
      (arithmeticRound inner opening closing nested state) := by
  unfold arithmeticRound
  simp only [here_bind, rest_bind]
  generalize shape : state.cursor.rest = text
  cases text with
  | nil => exact .failed
  | cons c text =>
      have skipped {value : Nested Int} (count : Nat) :
          Moves (Turn (· ≠ []) fun (_ : List Part) => (· = [])) state
            (.ok (.again value, state.skip (count + 1))) :=
        .ended (by simp [shape])
      simp only [cursor_bind]
      split
      · exact .done rfl
      split
      · exact skipped 1
      split
      next dollar =>
        subst dollar
        exact (expansion_or_literal moving state shape (by decide) _).filled
      split
      · exact (Moves.adding (backquoted_moves state)).filled
      split
      · exact (Moves.adding (doubleQuoted_moves moving state _ _)).filled
      split
      · exact skipped 0
      split
      · exact skipped 0
      · exact skipped 0

/-- The text of an arithmetic expression ends with its closing bracket. -/
theorem arithmeticParts_moves {closing : String}
    (plain : closing.toList.getLast?.any (· ≠ '\n') = true) :
    Moves (fun _ => Firm) state (arithmeticParts inner closing state) := by
  unfold arithmeticParts
  simp only [here_bind]
  refine Moves.bindStopped
    (Moves.loopAny (fun nested state => arithmeticRound_moves moving state _ closing nested) _ _ _)
    (Ends.iterate (fun _ _ => True) (fun _ => trivial)
      (fun nested state _ => arithmeticRound_stops state _ closing nested) _ _ _ trivial)
    fun parts after stopped => ?_
  exact .recognised stopped plain

theorem operandRound_moves (stops : List Char) (nested : Nested Nat) :
    Moves (Turn (· ≠ []) fun parts text => text = [] ∧ parts = nested.pieces.finish) state
      (operandRound inner stops nested state) := by
  unfold operandRound
  simp only [here_bind, rest_bind]
  generalize shape : state.cursor.rest = text
  cases text with
  | nil => exact .failed
  | cons c text =>
      have skipped {value : Nested Nat} (count : Nat) :
          Moves (Turn (· ≠ []) fun parts text => text = [] ∧ parts = nested.pieces.finish) state
            (.ok (.again value, state.skip (count + 1))) :=
        .ended (by simp [shape])
      simp only
      split
      · exact .done ⟨rfl, rfl⟩
      split
      · split
        · exact skipped 1
        · exact skipped 1
      split
      · exact (Moves.adding (singleQuoted_moves state _ _)).filled
      split
      · exact (Moves.adding (doubleQuoted_moves moving state _ _)).filled
      split
      · exact (Moves.adding (backquoted_moves state)).filled
      split
      next dollar =>
        subst dollar
        exact (expansion_or_literal moving state shape (by decide) _).filled
      split
      · exact skipped 0
      split
      · exact skipped 0
      · exact skipped 0

theorem operand_moves (stops : List Char) :
    Moves (fun word text => word ≠ none → text ≠ []) state (operand inner stops state) := by
  unfold operand
  simp only [here_bind]
  refine (Moves.iterateFilled (fun nested state => operandRound_moves moving state stops nested)
    _ _ _).bind
    fun parts after text _ consumed => .done fun present => ?_
  rw [List.append_nil]
  rcases consumed with ⟨-, rfl⟩ | filled
  · exact absurd rfl present
  · exact filled

theorem expand_moves (pos : Position) (op : List Char) :
    Moves (fun _ _ => True) state (expand inner pos op state) := by
  unfold expand
  simp only [skip_bind]
  exact Moves.skipAny _ ((operand_moves moving _ _).bindAny fun _ _ => .done trivial)

theorem furtherOperand_moves (separator : Char) :
    Moves (fun _ _ => True) state (furtherOperand inner separator state) := by
  unfold furtherOperand
  simp only [current_bind]
  split
  · exact Moves.skipAny 1 (operand_moves moving _ _).any
  · exact .done trivial

theorem slice_moves (pos : Position) :
    Moves (fun _ _ => True) state (slice inner pos state) := by
  unfold slice
  simp only [skip_bind]
  refine Moves.skipAny 1 ((operand_moves moving _ _).bindAny fun offset after => ?_)
  exact (furtherOperand_moves moving after _).bindAny fun _ _ => .done trivial

theorem replace_moves (pos : Position) :
    Moves (fun _ _ => True) state (replace inner pos state) := by
  unfold replace
  simp only [skip_bind, current_bind]
  refine Moves.skipAny 1 ((skipIf_moves _ _).bindAny fun _ after => ?_)
  refine (operand_moves moving _ _).bindAny fun pattern after => ?_
  exact (furtherOperand_moves moving after _).bindAny fun _ _ => .done trivial

theorem operation_moves : Moves (fun _ _ => True) state (operation inner state) := by
  unfold operation
  simp only [here_bind, rest_bind]
  cases operandOperator? state.cursor.rest with
  | some op => exact expand_moves moving state _ _
  | none =>
      simp only [rest_bind]
      cases state.cursor.rest with
      | nil => exact .done trivial
      | cons c text =>
          simp only
          split
          · exact .done trivial
          split
          · exact slice_moves moving state _
          split
          · exact replace_moves moving state _
          split
          · exact .ended trivial
          · exact .failed

theorem braced_moves : Moves (fun _ => Firm) state (braced inner state) := by
  unfold braced
  simp only [here_bind, skip_bind]
  refine Moves.skipFirm 2 ((question_moves _).bindFirm fun question after => ?_)
  refine (parameterName_moves _).bindFirm fun name after => ?_
  refine (optionalIndex_moves _).bindFirm fun index after => ?_
  refine (namesMark_moves _ _).bindFirm fun _ after => ?_
  refine (operation_moves moving _).bindFirm fun operation after => ?_
  simp only [current_bind]
  split
  next found => exact .last found (by decide)
  next => exact .failed

theorem expansion_moves (quoted : Bool) :
    Moves Whole state (expansion inner quoted state) := by
  unfold expansion
  simp only [here_bind, rest_bind]
  generalize shape : state.cursor.rest.drop 1 = text
  cases text with
  | nil => exact .done rfl
  | cons c text =>
      obtain ⟨dollar, rest_eq⟩ : ∃ dollar, state.cursor.rest = dollar :: c :: text := by
        cases rest : state.cursor.rest with
        | nil => simp [rest] at shape
        | cons dollar rest => exact ⟨dollar, by simpa [rest] using shape⟩
      simp only
      split
      · exact Moves.skip 1 ((singleQuoted_moves _ _ _).map fun _ _ => Firm.behind _)
      split
      · exact Moves.skip 1 ((doubleQuoted_moves moving _ _ _).map fun _ _ => Firm.behind _)
      split
      · split
        · rw [skip_bind]
          exact Moves.skip 3
            ((arithmeticParts_moves moving _ (by decide)).returning fun _ _ => Firm.behind _)
        · exact (substituted_moves moving _ _).returning fun _ _ firm => firm
      split
      · rw [skip_bind]
        exact Moves.skip 2
          ((arithmeticParts_moves moving _ (by decide)).returning fun _ _ => Firm.behind _)
      split
      · exact (braced_moves moving _).map fun _ _ firm => firm
      split
      next named =>
        refine .ended ?_
        rw [rest_eq, List.take_succ_cons, take_length_takeWhile]
        exact (name_firm named text).behind [dollar]
      split
      next sign =>
        refine .ended ?_
        rw [rest_eq]
        refine @Firm.of_last [dollar] c ?_
        rintro rfl
        simp [specialParameters] at sign
      next => exact .done rfl

/-! ## Words -/

theorem wordRound_moves {delimiters : List Char} (lines : delimiters.contains '\n' = true)
    (pieces : Pieces) :
    Moves (Turn Firm fun parts text => text = [] ∧ parts = pieces.finish) state
      (wordRound inner delimiters pieces state) := by
  unfold wordRound
  simp only [here_bind, rest_bind]
  generalize shape : state.cursor.rest = text
  cases text with
  | nil => exact .done ⟨rfl, rfl⟩
  | cons c text =>
      simp only
      split
      next escape =>
        subst escape
        have firm : Firm (state.cursor.rest.take 2) := by
          rw [shape]
          exact Firm.escape text
        split
        · exact .ended firm
        · exact .ended firm
      split
      · refine (substituted_moves moving state _).returning fun _ _ firm => firm
      split
      · exact .done ⟨rfl, rfl⟩
      next inside =>
        have plain : c ≠ '\n' := by
          rintro rfl
          exact inside lines
        split
        · exact .adding (glob_moves state c)
        split
        · exact .adding (singleQuoted_moves state _ _)
        split
        · exact .adding (doubleQuoted_moves moving state _ _)
        split
        · exact .adding (backquoted_moves state)
        split
        · exact expansion_or_literal moving state shape plain _
        · exact .ended (by simpa [shape] using Firm.single plain)

theorem wordUpTo_moves {delimiters : List Char} (lines : delimiters.contains '\n' = true) :
    Moves (fun _ => Firm) state (wordUpTo inner delimiters state) := by
  unfold wordUpTo
  simp only [here_bind]
  refine Moves.bind
    (Moves.iterateFirm (fun pieces state => wordRound_moves moving state lines pieces)
    ?_ _ _ _) fun parts after text _ consumed => ?_
  · rintro pieces parts text ⟨rfl, -⟩
    exact Settled.nil
  · split
    next =>
      simp only [current_bind]
      cases after.cursor.rest.head? <;> exact .failed
    next filled =>
      -- only the first round may consume nothing, and then there are no parts
      rcases consumed with ⟨-, rfl⟩ | firm
      · exact absurd rfl filled
      · exact .done (by simpa using firm)

theorem word_moves : Moves (fun _ => Firm) state (word inner state) :=
  wordUpTo_moves moving state (by decide)

end Reading
end RecipeLint
