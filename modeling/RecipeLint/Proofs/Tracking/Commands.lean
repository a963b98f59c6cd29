import RecipeLint.Proofs.Tracking.Words

/-!
# Commands that track each other

Commands and statements, read twice with levels inside whose productions track each other, and with
that the productions of every level.  A construct is entered behind its first word or bracket, so
what is left in front of the level inside it is shorter.
-/

namespace RecipeLint

theorem Cursor.rest_ne_nil_of_atWord {cursor : Cursor} {word : String}
    (found : cursor.atWord word = true) (filled : word.toList ≠ []) : cursor.rest ≠ [] := by
  obtain ⟨rest, shape⟩ := rest_of_startsWith (startsWith_of_atWord found)
  simp [shape, filled]

namespace Bounds

open Reading

variable {bounds : Bounds} {kind : List Char → Prop} {size : Nat} {inner inner' : Inner}

/-! ## Simple commands -/

theorem expectWord_tracks (word : String) :
    bounds.Tracks kind size (expectWord word) (expectWord word) :=
  .skipBlanks (.cursor fun _ _ _ => .ite (fun _ => .skipped _) fun _ => .fail rfl)

theorem await_tracks (redirect : Redirect) :
    bounds.Tracks kind size (await redirect) (await redirect) :=
  .ite (fun _ => .modify (fun _ => rfl) fun _ _ => rfl) fun _ => .pure ()

theorem emptyParentheses_tracks : bounds.Tracks kind size emptyParentheses emptyParentheses :=
  .skip 1 (.skipBlanks (.current fun _ => .ite (fun _ => .skipped 1) fun _ => .fail rfl))

theorem finishCall_tracks (pos : Position) (draft : CallDraft) :
    bounds.Tracks kind size (finishCall pos draft) (finishCall pos draft) :=
  .ite (fun _ => .ite (fun _ => .fail rfl) fun _ => .pure _) fun _ => .pure _

section

variable (twins : bounds.Twins size inner inner')

include twins

theorem redirect_tracks (head : RedirectHead) :
    bounds.Tracks kind size (redirect inner head) (redirect inner' head) :=
  .here fun _ => .skip _ (.skipBlanks (.current fun _ => .ite (fun _ => .fail rfl) fun _ =>
    .bind (word_tracks twins) fun _ => .bind (await_tracks _) fun _ => .pure _))

theorem elementRound_tracks (elements : List Word) :
    bounds.TracksAll size (elementRound inner elements) (elementRound inner' elements) := by
  refine .bind (linebreaks_tracks twins) fun _ => .current fun c => ?_
  split
  · exact .fail rfl
  · exact .skip 1 (.pure _)
  · exact .bind (word_tracks twins) fun _ => .pure _

theorem assignIndex_tracks {head : AssignHead} (fits : ∀ index ∈ head.index, index.length ≤ size) :
    bounds.Tracks kind size (assignIndex inner head) (assignIndex inner' head) := by
  unfold assignIndex
  cases indexed : head.index with
  | none => exact .pure _
  | some index => exact .here fun _ => .map some (inlineWord_tracks twins (fits index indexed) _ _)

theorem value_tracks : bounds.Tracks kind size (value inner) (value inner') := by
  refine .current fun _ => .ite (fun _ => .skip 1 (.bind ?_ fun _ => .pure _)) fun _ =>
    .cursor fun _ _ _ => .ite (fun _ => .pure _) fun _ => .bind (word_tracks twins) fun _ => .pure _
  exact .iterate (elementRound_tracks twins)
    (fun elements state => (elementRound_moves twins.moving state elements).filled) twins.rounds []

theorem assign_tracks {head : AssignHead} (fits : ∀ index ∈ head.index, index.length ≤ size) :
    bounds.Tracks kind size (assign inner head) (assign inner' head) := by
  have heads : bounds.Tracks kind size (assignHead inner head) (assignHead inner' head) :=
    .skip _ (.bind (assignIndex_tracks twins fits) fun _ => .skip _ (.pure _))
  exact .here fun _ => .bind heads fun _ => .bind (value_tracks twins) fun _ => .pure _

end

/-- The index of an assignment is part of the text that its head was recognised in. -/
theorem index_length_le {text : List Char} {head : AssignHead}
    (found : AssignHead.of? text = some head)
    (short : text.length ≤ size) : ∀ index ∈ head.index, index.length ≤ size := by
  intro index indexed
  obtain ⟨rest, whole⟩ := (AssignHead.starts_of_of? found).written
  have lengths := congrArg List.length whole
  simp only [AssignHead.text, AssignHead.indexText, Option.mem_def.mp indexed, Option.map_some,
    Option.getD_some, List.length_append, List.length_cons] at lengths
  omega

section

variable (twins : bounds.Twins size inner inner')

variable {less : Nat} {keyword : String} (pos : Position)

include twins

theorem declarationRound_tracks (draft : DeclarationDraft) :
    bounds.TracksAll size (declarationRound inner draft) (declarationRound inner' draft) := by
  refine .skipBlanks (.redirectAt fun head => ?_)
  cases head with
  | some head => exact .bind (redirect_tracks twins head) fun _ => .pure _
  | none =>
      refine .current fun _ => .ite (fun _ => .pure _) fun _ => .rest fun text _ short => ?_
      cases found : AssignHead.of? text with
      | some head =>
          exact .bind (assign_tracks twins (index_length_le found short)) fun _ => .pure _
      | none => exact .bind (word_tracks twins) fun _ => .pure _

theorem declaration_tracks (redirects : List Redirect) (keyword : Word)
    (declarator : Declarator) :
    bounds.Tracks kind size (declaration inner pos redirects keyword declarator)
      (declaration inner' pos redirects keyword declarator) :=
  .bind (.iterate (declarationRound_tracks twins)
    (fun draft state => (declarationRound_moves twins.moving state draft).filled) twins.rounds _)
    fun _ => .pure _

theorem evaluationRound_tracks (draft : EvaluationDraft) :
    bounds.TracksAll size (evaluationRound inner draft) (evaluationRound inner' draft) := by
  refine .skipBlanks (.redirectAt fun head => ?_)
  cases head with
  | some head => exact .bind (redirect_tracks twins head) fun _ => .pure _
  | none =>
      exact .current fun _ => .ite (fun _ => .pure _) fun _ =>
        .bind (word_tracks twins) fun _ => .pure _

theorem evaluation_tracks (redirects : List Redirect) (keyword : Word) :
    bounds.Tracks kind size (evaluation inner pos redirects keyword)
      (evaluation inner' pos redirects keyword) :=
  .bind (.iterate (evaluationRound_tracks twins)
    (fun draft state => (evaluationRound_moves twins.moving state draft).filled) twins.rounds _)
    fun _ => .pure _

/-- The body of a function lies behind the parentheses after its name. -/
theorem functionAfterName_tracks (name : String) :
    bounds.Tracks kind size (functionAfterName inner pos name)
      (functionAfterName inner' pos name) :=
  .bindInside emptyParentheses_tracks
    (fun state => (emptyParentheses_moves state).imp fun _ _ firm => firm.1) fun _ less lt =>
      .bind (linebreaks_tracks (twins.smaller (Nat.le_of_lt lt))) fun _ =>
        .bind (twins.command less lt) fun _ => .pure _

theorem callFunction_tracks (draft : CallDraft) :
    bounds.Tracks kind size (callFunction inner pos draft) (callFunction inner' pos draft) := by
  unfold callFunction
  split
  next name redirects =>
    cases name.literal? with
    | none => exact .fail rfl
    | some text => exact .bind (functionAfterName_tracks twins _ _) fun _ => .pure _
  next => exact .fail rfl

theorem callWord_tracks (draft : CallDraft) :
    bounds.Tracks kind size (callWord inner pos draft) (callWord inner' pos draft) := by
  refine .bind (word_tracks twins) fun word => ?_
  generalize (if (draft.args.isEmpty && draft.assigns.isEmpty) = true then word.literal? else none)
    = keyword
  simp only
  cases keyword.bind Declarator.of? with
  | some declarator => exact .bind (declaration_tracks twins _ _ _ _) fun _ => .pure _
  | none =>
      exact .ite (fun _ => .bind (evaluation_tracks twins _ _ _) fun _ => .pure _) fun _ => .pure _

theorem callRound_tracks (draft : CallDraft) :
    bounds.TracksAll size (callRound inner pos draft) (callRound inner' pos draft) := by
  refine .skipBlanks (.redirectAt fun head => ?_)
  cases head with
  | some head => exact .bind (redirect_tracks twins head) fun _ => .pure _
  | none =>
      refine .current fun c => ?_
      cases c with
      | none => exact .bind (finishCall_tracks pos draft) fun _ => .pure _
      | some c =>
          refine .ite (fun _ => .bind (finishCall_tracks pos draft) fun _ => .pure _) fun _ =>
            .ite (fun _ => .bind (callFunction_tracks twins pos draft) fun _ => .pure _) fun _ =>
            .ite (fun _ => .rest fun text _ short => ?_) fun _ => callWord_tracks twins pos draft
          cases found : AssignHead.of? text with
          | some head =>
              exact .bind (assign_tracks twins (index_length_le found short)) fun _ => .pure _
          | none => exact callWord_tracks twins pos draft

theorem call_tracks : bounds.Tracks kind size (call inner pos) (call inner' pos) :=
  .iterate (callRound_tracks twins pos)
    (fun draft state => (callRound_moves twins.moving state pos draft).filled) twins.rounds _

/-! ## Compound commands -/

theorem block_tracks : bounds.Tracks (· ≠ []) size (block inner) (block inner') :=
  .here fun _ => .skipInside Nat.one_pos (fun _ filled => filled) fun less lt =>
    .bind (twins.statements less lt _) fun _ => .bind (expectWord_tracks _) fun _ => .pure _

theorem subshell_tracks : bounds.Tracks (· ≠ []) size (subshell inner) (subshell inner') :=
  .here fun _ => .skipInside Nat.one_pos (fun _ filled => filled) fun less lt =>
    .bind (twins.statements less lt _) fun _ => .current fun _ =>
      .ite (fun _ => .skip 1 (.pure _)) fun _ => .fail rfl

/-- What follows the consequence of a conditional, some way into the conditional. -/
theorem alternative_tracks (lt : less < size) :
    bounds.TracksAll less (alternative inner) (alternative inner') := by
  refine .skipBlanks (.here fun pos => .wordAt fun cursor _ => ?_)
  cases found : ["elif", "else", "fi"].find? cursor.atWord with
  | none => exact .fail rfl
  | some word =>
      have present := List.find?_some found
      have member := List.mem_of_find?_eq_some found
      simp only [List.mem_cons, List.not_mem_nil, or_false] at member
      rcases member with rfl | rfl | rfl
      · have filled := Cursor.rest_ne_nil_of_atWord present (by decide)
        exact .bind ((twins.furtherConditional less lt).imp fun _ same => same ▸ filled)
          fun _ => .pure _
      · exact .skip 4 (.bind (twins.statements less lt _) fun _ =>
          .bind (expectWord_tracks _) fun _ => .pure _)
      · exact .skip 2 (.pure _)

theorem conditional_tracks (long : 0 < keyword.length) :
    bounds.Tracks (· ≠ []) size (conditional inner keyword) (conditional inner' keyword) :=
  .here fun _ => .skipInside long (fun _ filled => filled) fun less lt =>
    .bind (twins.statements less lt _) fun _ => .bind (expectWord_tracks _) fun _ =>
      .bind (twins.statements less lt _) fun _ =>
        .bind (alternative_tracks twins lt) fun _ => .pure _

theorem loopBody_tracks (lt : less < size) :
    bounds.TracksAll less (loopBody inner) (loopBody inner') :=
  .bind (linebreaks_tracks (twins.smaller (Nat.le_of_lt lt))) fun _ =>
    .bind (expectWord_tracks _) fun _ => .bind (twins.statements less lt _) fun _ =>
      .bind (expectWord_tracks _) fun _ => .pure _

theorem loop_tracks (long : 0 < keyword.length) :
    bounds.Tracks (· ≠ []) size (loop inner keyword) (loop inner' keyword) :=
  .here fun _ => .skipInside long (fun _ filled => filled) fun less lt =>
    .bind (twins.statements less lt _) fun _ => .bind (loopBody_tracks twins lt) fun _ => .pure _

theorem rangeRound_tracks (items : List Word) :
    bounds.TracksAll size (rangeRound inner items) (rangeRound inner' items) :=
  .skipBlanks (.current fun _ => .ite (fun _ => .pure _) fun _ =>
    .bind (word_tracks twins) fun _ => .pure _)

omit twins in
theorem rangeEnd_tracks : bounds.Tracks kind size rangeEnd rangeEnd :=
  .skipBlanks (skipIf_tracks _)

omit twins in
theorem rangeName_tracks (keyword : String) :
    bounds.Tracks kind size (rangeName keyword) (rangeName keyword) :=
  .rest fun _ _ _ => .skip _ (.cursor fun _ _ _ => .ite (fun _ => .fail rfl) fun _ => .pure _)

theorem rangeWords_tracks : bounds.Tracks kind size (rangeWords inner) (rangeWords inner') := by
  refine .cursor fun _ _ _ => .ite (fun _ => .skip 2 (.map some ?_)) fun _ => .pure _
  exact .iterate (rangeRound_tracks twins)
    (fun items state => (rangeRound_moves twins.moving state items).filled) twins.rounds []

theorem range_tracks (keyword : String) :
    bounds.Tracks kind size (range inner keyword) (range inner' keyword) := by
  refine .cursor fun _ _ _ => .ite (fun _ => ?arithmetic) fun _ => ?words
  case arithmetic =>
    exact .here fun _ => .skip 2 (.bind (arithmeticParts_tracks twins _) fun _ =>
      .bind rangeEnd_tracks fun _ => .pure _)
  case words =>
    exact .here fun _ => .bind (rangeName_tracks keyword) fun _ =>
      .bind (linebreaks_tracks twins) fun _ => .bind (rangeWords_tracks twins) fun _ =>
      .bind rangeEnd_tracks fun _ => .pure _

theorem iteration_tracks (long : 0 < keyword.length) :
    bounds.Tracks (· ≠ []) size (iteration inner keyword) (iteration inner' keyword) :=
  .here fun _ => .skipInside long (fun _ filled => filled) fun _ lt =>
    .skipBlanks (.bind (range_tracks (twins.smaller (Nat.le_of_lt lt)) keyword) fun _ =>
      .bind (loopBody_tracks twins lt) fun _ => .pure _)

theorem patternRound_tracks (patterns : List Word) :
    bounds.TracksAll size (patternRound inner patterns) (patternRound inner' patterns) :=
  .skipBlanks (.bind (word_tracks twins) fun _ => .skipBlanks (.current fun _ =>
    .ite (fun _ => .skip 1 (.pure _)) fun _ => .pure _))

omit twins in
theorem caseEnd_tracks : bounds.Tracks kind size caseEnd caseEnd := by
  refine .rest fun text _ _ => ?_
  cases CaseEnd.of? text with
  | some ending => exact .skip _ (.pure _)
  | none => exact .pure _

/-- An item of a case command, some way into the command. -/
theorem caseItem_tracks (lt : less < size) :
    bounds.TracksAll less (caseItem inner) (caseItem inner') := by
  have inside := twins.smaller (Nat.le_of_lt lt)
  refine .here fun _ => .bind (skipIf_tracks _) fun _ => .bind ?_ fun patterns => .current fun _ =>
    .ite (fun _ => .skip 1 (.bind (twins.statements less lt _) fun _ =>
      .bind caseEnd_tracks fun _ => .pure _)) fun _ => .fail rfl
  exact .iterate (patternRound_tracks inside)
    (fun patterns state => (patternRound_moves twins.moving state patterns).filled) inside.rounds []

theorem caseRound_tracks (lt : less < size) (items : List CaseItem) :
    bounds.TracksAll less (caseRound inner items) (caseRound inner' items) :=
  .bind (linebreaks_tracks (twins.smaller (Nat.le_of_lt lt))) fun _ => .cursor fun _ _ _ =>
    .ite (fun _ => .skip 4 (.pure _)) fun _ => .cursor fun _ _ _ =>
      .ite (fun _ => .fail rfl) fun _ => .bind (caseItem_tracks twins lt).all fun _ => .pure _

theorem case_tracks : bounds.Tracks (· ≠ []) size (case inner) (case inner') := by
  refine .here fun _ => .skipInside (by decide) (fun _ filled => filled) fun less lt => ?_
  have inside := twins.smaller (Nat.le_of_lt lt)
  refine .skipBlanks (.bind (word_tracks inside) fun _ => .bind (linebreaks_tracks inside) fun _ =>
    .bind (expectWord_tracks _) fun _ => .bind ?_ fun _ => .pure _)
  exact .iterate (caseRound_tracks twins lt)
    (fun items state => caseRound_moves twins.moving state items) inside.rounds []

omit twins in
theorem optionalParentheses_tracks :
    bounds.Tracks kind size optionalParentheses optionalParentheses :=
  .current fun _ => .ite (fun _ => emptyParentheses_tracks) fun _ => .pure ()

theorem keywordFunction_tracks :
    bounds.Tracks (· ≠ []) size (keywordFunction inner) (keywordFunction inner') := by
  refine .here fun _ => .skipInside (by decide) (fun _ filled => filled) fun less lt => ?_
  have inside := twins.smaller (Nat.le_of_lt lt)
  refine .skipBlanks (.bind (word_tracks inside) fun word => ?_)
  cases word.literal? with
  | none => exact .fail rfl
  | some name =>
      exact .skipBlanks (.bind optionalParentheses_tracks fun _ =>
        .bind (linebreaks_tracks inside) fun _ => .bind (twins.command less lt) fun _ => .pure _)

theorem testRound_tracks (words : List Word) :
    bounds.TracksAll size (testRound inner words) (testRound inner' words) := by
  refine .bind (linebreaks_tracks twins) fun _ => .cursor fun _ _ _ =>
    .ite (fun _ => .skip 2 (.pure _)) fun _ => .cursor fun _ _ _ =>
      .ite (fun _ => .fail rfl) fun _ => .rest fun text _ _ => ?_
  cases testOperator? text with
  | some operator => exact .here fun _ => .skip _ (.pure _)
  | none => exact .bind (wordUpTo_tracks twins (by decide)) fun _ => .pure _

theorem test_tracks : bounds.Tracks kind size (test inner) (test inner') :=
  .here fun _ => .skip 2 (.bind (.iterate (testRound_tracks twins)
    (fun words state => testRound_moves twins.moving state words) twins.rounds []) fun _ => .pure _)

theorem arithmetic_tracks : bounds.Tracks kind size (arithmetic inner) (arithmetic inner') :=
  .here fun _ => .skip 2 (.here fun _ => .bind (arithmeticParts_tracks twins _) fun _ => .pure _)

theorem redirectRound_tracks (redirects : List Redirect) :
    bounds.TracksAll size (redirectRound inner redirects) (redirectRound inner' redirects) := by
  refine .skipBlanks (.redirectAt fun head => ?_)
  cases head with
  | some head => exact .bind (redirect_tracks twins head) fun _ => .pure _
  | none => exact .pure _

theorem compound?_tracks : bounds.TracksAll size (compound? inner) (compound? inner') := by
  refine .cursor fun cursor _ _ => .ite (fun _ => .map some (arithmetic_tracks twins)) fun _ =>
    .ite (fun starts => .map some ((subshell_tracks twins).imp ?_)) fun _ => ?_
  · rintro _ rfl empty
    simp [Cursor.current, empty] at starts
  · cases found : compoundWords.find? cursor.atWord with
    | none => exact .pure none
    | some word =>
        have filled : word.toList ≠ [] := by
          have member := List.mem_of_find?_eq_some found
          have all : ∀ word ∈ compoundWords, word.toList ≠ [] := by decide
          exact all word member
        have there : ∀ text, text = cursor.rest → text ≠ [] :=
          fun _ same => same ▸ Cursor.rest_ne_nil_of_atWord (List.find?_some found) filled
        split
        · exact .map some ((block_tracks twins).imp there)
        · exact .map some ((conditional_tracks twins (by decide)).imp there)
        · exact .map some ((loop_tracks twins (by decide)).imp there)
        · exact .map some ((loop_tracks twins (by decide)).imp there)
        · exact .map some ((iteration_tracks twins (by decide)).imp there)
        · exact .map some ((iteration_tracks twins (by decide)).imp there)
        · exact .map some ((case_tracks twins).imp there)
        · exact .map some ((keywordFunction_tracks twins).imp there)
        · exact .map some (test_tracks twins)
        · exact .pure none

theorem command_tracks : bounds.Tracks kind size (command inner) (command inner') := by
  refine .skipBlanks (.here fun pos => .bind (compound?_tracks twins) fun found => ?_)
  cases found with
  | none => exact call_tracks twins pos
  | some command =>
      exact .bind (.iterate (redirectRound_tracks twins)
        (fun redirects state => (redirectRound_moves twins.moving state redirects).filled)
        twins.rounds []) fun _ => .pure _

/-! ## Statements -/

theorem join_tracks {right₁ right₂ : Reading Stmt} (right : bounds.TracksAll size right₁ right₂)
    (left : Stmt) (connective : Connective) :
    bounds.Tracks kind size (join inner left connective right₁)
      (join inner' left connective right₂) :=
  .skip _ (.bind (linebreaks_tracks twins) fun _ => .bind right fun _ => .pure _)

theorem pipelineRound_tracks (left : Stmt) :
    bounds.TracksAll size (pipelineRound inner left) (pipelineRound inner' left) := by
  refine .skipBlanks (.rest fun text _ _ => ?_)
  cases Connective.pipe? text with
  | none => exact .pure _
  | some connective => exact join_tracks twins (command_tracks twins) left connective

theorem pipes_tracks : bounds.Tracks kind size (pipes inner) (pipes inner') :=
  .bind (command_tracks twins) fun left => .iterate (pipelineRound_tracks twins)
    (fun left state => (pipelineRound_moves twins.moving state left).filled) twins.rounds left

theorem pipeline_tracks : bounds.Tracks kind size (pipeline inner) (pipeline inner') :=
  .skipBlanks (.here fun _ => .rest fun _ _ _ =>
    .ite (fun _ => .skip 1 (.bind (pipes_tracks twins) fun _ => .pure _)) fun _ =>
      pipes_tracks twins)

theorem logicRound_tracks (left : Stmt) :
    bounds.TracksAll size (logicRound inner left) (logicRound inner' left) := by
  refine .skipBlanks (.rest fun text _ _ => ?_)
  cases Connective.logical? text with
  | none => exact .pure _
  | some connective => exact join_tracks twins (pipeline_tracks twins) left connective

theorem logic_tracks : bounds.Tracks kind size (logic inner) (logic inner') :=
  .bind (pipeline_tracks twins) fun left => .iterate (logicRound_tracks twins)
    (fun left state => (logicRound_moves twins.moving state left).filled) twins.rounds left

omit twins in
theorem takeComments_tracks (items : List Item) :
    bounds.Tracks kind size (takeComments items) (takeComments items) :=
  .get (fun _ _ => rfl) fun _ => .bind (.modify (fun _ => rfl) fun _ _ => rfl) fun _ => .pure _

omit twins in
theorem statementEnd_tracks : bounds.Tracks kind size statementEnd statementEnd := by
  refine .skipBlanks (.rest fun text _ _ => .ite (fun _ => .pure _) fun _ => .current fun c => ?_)
  split
  · exact .pure _
  · exact .pure _
  · exact .pure _
  · exact .pure _
  · exact .skip 1 (.pure _)
  · exact .skip 1 (.pure _)
  · exact .wordAt fun _ _ => .ite (fun _ => .fail rfl) fun _ => .pure _

theorem statement_tracks (items : List Item) :
    bounds.Tracks kind size (statement inner items) (statement inner' items) :=
  .bind (logic_tracks twins) fun _ => .bind (takeComments_tracks _) fun _ =>
    .bind statementEnd_tracks fun _ => .pure _

theorem statementRound_tracks (stops : List String) (items : List Item) :
    bounds.TracksAll size (statementRound inner stops items)
      (statementRound inner' stops items) := by
  refine .skipBlanks (.bind (takeComments_tracks items) fun items => .rest fun text _ _ =>
    .ite (fun _ => .pure _) fun _ => .current fun c => ?_)
  split
  · exact .pure _
  · exact .bind (newline_tracks twins) fun _ => .pure _
  · exact .bind comment_tracks fun _ => .pure _
  · exact .ite (fun _ => .pure _) fun _ => .fail rfl
  · refine .wordAt fun cursor _ => ?_
    cases listTerminators.find? cursor.atWord with
    | some word => exact .ite (fun _ => .pure _) fun _ => .fail rfl
    | none => exact .bind (statement_tracks twins items) fun _ => .pure _

theorem statements_tracks (stops : List String) :
    bounds.Tracks kind size (statements inner stops) (statements inner' stops) :=
  .iterate (statementRound_tracks twins stops)
    (fun items state => statementRound_moves twins.moving state stops items) twins.rounds []

/-! ## Levels -/

/-- One more level around both. -/
theorem Twins.around (enough : Tracks.Rounds bounds (size + 1) inner.rounds inner'.rounds) :
    bounds.Twins (size + 1) inner.around inner'.around where
  moving := twins.moving.around
  rounds := enough
  statements _ lt stops := (statements_tracks twins stops).smaller (Nat.le_of_lt_succ lt)
  command _ lt := (command_tracks twins).smaller (Nat.le_of_lt_succ lt)
  furtherConditional _ lt := (conditional_tracks twins (by decide)).smaller (Nat.le_of_lt_succ lt)
  expansion quoted := expansion_tracks twins quoted

end

end Bounds
end RecipeLint
