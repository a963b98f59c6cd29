import RecipeLint.Proofs.Assembly.Words
import RecipeLint.Proofs.Progress.Commands
import RecipeLint.Proofs.Whole

/-!
# How commands are assembled

What the productions for redirections, assignments, commands and lists of statements build.
Comments that are met inside of a command are left over until the list of statements around it takes
them up, so that only lists build trees without comments left over. -/

namespace RecipeLint

/-! ## Commands -/

section Below

variable (pos : Position)

theorem below_stmt (stmt : Stmt) : (Node.stmt stmt).below =
    .of .placed (stmt.command.toList.map .command) ++
    .of .aside (stmt.redirects.map .redirect) := by
  refine (Roots.ofFields_append ..).trans ?_
  rw [Roots.ofFields_optional, Roots.ofFields_many]
  rfl

theorem below_assign (assign : Assign) : (Node.assign assign).below =
    .of .inset (assign.index.toList.map .word) ++ .of .placed (assign.value.fields.map (·.2)) := by
  refine (Roots.ofFields_append ..).trans ?_
  rw [Roots.ofFields_optional]
  cases assign.value with
  | naked | empty | scalar => rfl
  | array words =>
      rw [Value.fields, Roots.ofFields_many, Field.many, List.map_map]
      rfl

theorem below_conditional (condition consequence alternative : List Item) :
    (Node.command (.conditional pos condition consequence alternative)).below =
      .of .placed (condition.map Item.node) ++ .of .placed (consequence.map Item.node) ++
        .of .placed (alternative.map Item.node) := by
  refine (Roots.ofFields_append ..).trans ?_
  rw [Roots.ofFields_append, Roots.ofFields_many, Roots.ofFields_many, Roots.ofFields_many]
  rfl

end Below

/-- The roots of what a loop has gathered, the last one first. -/
def gathered (toNode : α → Node) (values : List α) : Roots :=
  .of .placed (values.reverse.map toNode)

theorem gathered_nil (toNode : α → Node) : gathered toNode [] = [] := rfl

theorem gathered_cons (toNode : α → Node) (value : α) (values : List α) :
    gathered toNode (value :: values) = gathered toNode values ++ .of .placed [toNode value] := by
  rw [gathered, List.reverse_cons, List.map_append, Roots.of_append]
  rfl

/-- The roots of redirections, the last one first. -/
def redirected (redirects : List Redirect) : Roots :=
  .of .aside (redirects.reverse.map .redirect)

theorem redirected_cons (redirect : Redirect) (redirects : List Redirect) :
    redirected (redirect :: redirects) = redirected redirects ++
      .of .aside [.redirect redirect] := by
  rw [redirected, List.reverse_cons, List.map_append, Roots.of_append]
  rfl

/-- The roots of a simple command read so far. -/
def CallDraft.roots (draft : CallDraft) : Roots :=
  gathered .assign draft.assigns ++ gathered .word draft.args ++ redirected draft.redirects

/-- The roots of a declaration read so far. -/
def DeclarationDraft.roots (draft : DeclarationDraft) : Roots :=
  .of .aside (draft.opts.reverse.map .word) ++ gathered .assign draft.assigns ++
  redirected draft.redirects

/-- The roots of an evaluation read so far. -/
def EvaluationDraft.roots (draft : EvaluationDraft) : Roots :=
  gathered .word draft.exprs ++ redirected draft.redirects

/-- Where no reserved word stands in front of a text, a bare word there is reserved only if it is
not spelled in one piece. -/
theorem Stmt.Starts.admitted {source : List Char} {stmt : Stmt} {cursor : Cursor}
    (starts : stmt.Starts cursor.rest) (excerpt : Excerpt source cursor.position cursor.rest)
    (unreserved : listTerminators.find? cursor.atWord = none) : stmt.Admitted source := by
  intro word leads reserved
  obtain ⟨written, rest, whole, joins, ended⟩ := starts word leads
  refine ⟨cursor.position, written, rest, whole ▸ excerpt, joins, ?_⟩
  rintro rfl
  refine List.find?_eq_none.mp unreserved word reserved ?_
  rw [Cursor.atWord, Bool.and_eq_true, Cursor.startsWith, whole, List.isPrefixOf_iff_prefix]
  refine ⟨List.prefix_append .., ?_⟩
  rw [Cursor.wordEndsAt, Cursor.peek, whole, ← String.length_toList,
    List.getElem?_append_right (Nat.le_refl _), Nat.sub_self, ← List.head?_eq_getElem?]
  exact ended

namespace Built

variable {loose : Bool} {start state : ReadState} {pos : Position} {redirects : List Redirect}

/-- One more redirection comes behind the others. -/
theorem redirecting {before : Roots} {it : Redirect}
    (built : Built loose start (before ++ redirected redirects ++ .of .aside [.redirect it])
      state) :
    Built loose start (before ++ redirected (it :: redirects)) state := by
  rw [redirected_cons, ← List.append_assoc]
  exact built

/-- Something comes behind what is in order, wherever redirections stand. -/
theorem inserting {before new : Roots}
    (built : Built loose start (before ++ redirected redirects ++ new) state) :
    Built loose start (before ++ new ++ redirected redirects) state := by
  rw [List.append_assoc] at built ⊢
  exact built.exchange (.inl (Roots.filter_of _ _ _))

/-- A statement of a command and redirections. -/
theorem ofDraft {command : Option Command}
    (built : Built loose start (.of .placed (command.toList.map .command) ++ redirected redirects)
      state) :
    Built loose start (.of .placed [.stmt (.ofDraft pos command redirects)]) state :=
  built.wrap (below_stmt (.ofDraft pos command redirects)).symm rfl (.plain rfl rfl)

/-- The same with redirections in front of the command. -/
theorem ofDraftBehind {command : Command}
    (built : Built loose start (redirected redirects ++ .of .placed [.command command]) state) :
    Built loose start (.of .placed [.stmt (.ofDraft pos (some command) redirects)]) state :=
  ofDraft (@exchange _ _ _ [] _ _ built (.inl (Roots.filter_of _ _ _)))

/-- The same with what is below the command at hand. -/
theorem statement {command : Command} {roots : Roots} (built : Built loose start roots state)
    (same : roots = (Node.command command).below ++ redirected redirects)
    (free : (Node.command command).anchored = false)
    (said : (Node.command command).Says start.cursor) :
    Built loose start (.of .placed [.stmt (.ofDraft pos (some command) redirects)]) state := by
  subst same
  exact ofDraftBehind (.node (@exchange _ _ _ [] _ _ built (.inr (Roots.filter_of _ _ _)))
    free said)

/-- A word of a declaration is a name or an option. -/
theorem declare {draft : DeclarationDraft} {word : Word}
    (built : Built loose start (draft.roots ++ .of .placed [.word word]) state)
    (straight : word.Straight) :
    Built loose start (draft.add word).roots state := by
  have option : Built loose start (DeclarationDraft.roots { draft with opts := word :: draft.opts })
      state := by
    have moved := built.aside
    rw [DeclarationDraft.roots, List.append_assoc, List.append_assoc,
      ← List.append_assoc (gathered _ _)] at moved
    have option := moved.exchange (.inr (Roots.filter_of _ _ _))
    rw [DeclarationDraft.roots, List.reverse_cons, List.map_append, Roots.of_append,
      List.append_assoc, List.append_assoc]
    exact option
  unfold DeclarationDraft.add
  cases literal : word.literal? with
  | none => exact option
  | some name =>
      simp only
      split
      · rw [DeclarationDraft.roots, gathered_cons, ← List.append_assoc]
        refine inserting (.named ?_ (Word.plain_of_literal? literal) rfl (.inl rfl) ?_)
        · exact built
        · exact .named (straight name literal) rfl rfl rfl
      · exact option

end Built

namespace Reading

variable {inner : Inner} {loose : Bool} {start state : ReadState}

/-- One more value is gathered. -/
theorem Grows.gathering {α β : Type} {reading : Reading α} {toNode : α → Node} {values : List α}
    {goal : β → Roots} (built : Built loose start (gathered toNode values) state)
    (grows : Grows loose state (fun value => .of .placed [toNode value]) (reading state)) :
    Grows loose start (Round.elim (gathered toNode) goal)
      ((do return .again ((← reading) :: values) : Reading (Round (List α) β)) state) := by
  refine (Grows.after built grows).bind fun value after built => .done ?_
  rw [Round.elim_again, gathered_cons]
  exact built

theorem expectWord_grows (word : String) :
    Grows loose state (fun _ => []) (expectWord word state) := by
  unfold expectWord
  rw [skipBlanks_bind, cursor_bind]
  split
  · exact .done ((Built.skipBlanks state).behind _)
  · exact .failed

theorem emptyParentheses_grows : Grows loose state (fun _ => []) (emptyParentheses state) := by
  unfold emptyParentheses
  rw [skip_bind, skipBlanks_bind, current_bind]
  split
  · exact .done (((Built.skip 1 state).behindBlanks).behind 1)
  · exact .failed

section Levels

variable (building : inner.Building) (moving : inner.Moving)
variable {head : AssignHead} {items : List Item} (keyword : String)

include building moving

/-! ## Redirections and assignments -/

theorem redirect_grows {head : RedirectHead}
    (found : RedirectHead.starting? state.cursor.rest = some head) :
    Grows loose state (fun it => .of .aside [.redirect it]) (redirect inner head state) := by
  obtain ⟨rest, written⟩ := RedirectHead.text_of_starting? found
  have operator : Built loose state (.of .placed [.word (.anchor state.cursor.position)])
      (state.skip head.text.length) := by
    refine .anchor (Cursor.advance_passes _ _) ?_
    rw [written, List.take_left]
    exact head.text_ne_nil
  unfold redirect
  simp only [here_bind, skip_bind, skipBlanks_bind, current_bind]
  split
  · exact .failed
  refine (Grows.after operator.behindBlanks (word_grows building moving)).bind
    fun target after built => ?_
  have announced {awaited : List Awaited} (waits : awaited = after.awaited ∨ _) :=
    @Built.aside loose _ _ [] _ (@Built.redirect loose _ _ []
      { pos := state.cursor.position, op := head.op, fd := head.fd, target, body := none } _ awaited
      built (Word.plain_anchor _) rfl rfl waits)
  unfold await
  split
  · exact .done (announced (.inr rfl))
  · exact .done (announced (.inl rfl))

theorem elementRound_grows (elements : List Word)
    (built : Built true start (gathered .word elements) state) :
    Grows true start (Round.elim (gathered .word) fun words => .of .placed (words.map .word))
      (elementRound inner elements state) := by
  unfold elementRound
  refine (Grows.quiet built (linebreaks_grows building)).bind fun _ after built => ?_
  rw [current_bind]
  generalize after.cursor.rest.head? = next
  split
  · exact .failed
  · exact .done (built.behind 1)
  · exact .gathering built (word_grows building moving)

theorem value_grows :
    Grows true state (fun value => .of .placed (value.fields.map (·.2))) (value inner state) := by
  unfold value
  rw [current_bind]
  split
  · have elements : Grows true (state.skip 1) (fun words => .of .placed (words.map .word))
        (iterate (elementRound inner) inner.rounds [] (state.skip 1)) :=
      .iterate (fun words _ built => elementRound_grows building moving words built) (.stay _) _
    rw [skip_bind]
    refine (Grows.skip 1 elements).bind fun words after built => .done ?_
    rw [Value.fields, Field.many, List.map_map]
    exact built
  · rw [cursor_bind]
    split
    · exact .done (.stay state)
    · exact (word_grows building moving).bind fun word after built => .done built

omit moving

/-- The index of an assignment is a text of its own between the name and the operator. -/
theorem assignIndex_ends {rest : List Char} {base : ReadState}
    (written : base.cursor.rest = head.indexText.getD [] ++ (head.operator ++ rest)) :
    Ends (fun _ => True) (fun index after => ∃ found, after =
      { base with seen := found ++ base.seen } ∧
        ∀ loose, Built loose base (.of .inset (index.toList.map .word))
          { base with
            cursor := base.cursor.advance ((head.indexText.getD []).length + head.operator.length)
            seen := found ++ base.seen })
      (assignIndex inner head base) := by
  have passes := Cursor.advance_passes ((head.indexText.getD []).length + head.operator.length)
    base.cursor
  unfold assignIndex
  cases shape : head.index with
  | none => exact ⟨[], rfl, fun loose => .move passes⟩
  | some index =>
      have bracket : base.cursor.position.right 1 = base.cursor.position.along ['['] :=
        (Position.along_plain (show '\n' ∉ ['['] by decide) _).symm
      have front : base.cursor.rest.take ((head.indexText.getD []).length + head.operator.length) =
          ['['] ++ index ++ ']' :: head.operator := by
        rw [written, ← List.append_assoc, ← List.length_append, List.take_left,
          AssignHead.indexText, shape]
        simp
      simp only [here_bind, map_eq_bind]
      refine Ends.bind (inlineWord_ends building (rfl : Seat.inset.own = true)
        passes ?_ ?_ (fun _ excerpt => ?_) base) ?_
      · rw [bracket]
        exact Position.not_along_before _ _
      · rw [passes.position_eq, front, bracket, Position.along_append, Position.along_append]
        exact Position.not_along_before _ _
      · rw [← List.take_append_drop _ base.cursor.rest, front, List.append_assoc,
          List.append_assoc] at excerpt
        rw [bracket]
        exact excerpt.behind.front
      · rintro word after ⟨found, rfl, built⟩
        exact ⟨found, rfl, built⟩

theorem assignHead_grows (found : AssignHead.of? state.cursor.rest = some head) :
    Grows loose state (fun index => .of .placed [.word (.anchor state.cursor.position)] ++
      .of .inset (index.toList.map .word)) (assignHead inner head state) := by
  obtain ⟨rest, written⟩ := (AssignHead.starts_of_of? found).written
  rw [AssignHead.text, List.append_assoc, List.append_assoc] at written
  have name : Built loose state (.of .placed [.word (.anchor state.cursor.position)])
      (state.skip head.name.length) := by
    refine .anchor (Cursor.advance_passes _ _) ?_
    rw [written, List.take_left]
    exact ne_nil_of_isName (AssignHead.starts_of_of? found).named
  have behind : (state.skip head.name.length).cursor.rest = head.indexText.getD [] ++
      (head.operator ++ rest) := by
    rw [ReadState.skip_cursor, Cursor.advance_rest, written, List.drop_left]
  unfold assignHead
  rw [skip_bind]
  refine Ends.bind (assignIndex_ends building behind) ?_
  rintro index after ⟨found, rfl, built⟩
  exact name.seq (built loose)

include moving

theorem assign_grows (found : AssignHead.of? state.cursor.rest = some head) :
    Grows true state (fun it => .of .placed [.assign it]) (assign inner head state) := by
  unfold assign
  rw [here_bind]
  refine (assignHead_grows building found).bind fun index after built => ?_
  refine (Grows.after built (value_grows building moving)).bind fun value after built => .done ?_
  obtain ⟨rest, written⟩ := (AssignHead.starts_of_of? found).written
  rw [AssignHead.text, List.append_assoc, List.append_assoc,
    ← String.toList_ofList (l := head.name)] at written
  refine @Built.named _ _ _ [] _ _ ?_ (Word.plain_anchor _) rfl (.inl rfl)
    (.setting ?_ rfl written rfl rfl)
  · rw [below_assign, ← List.append_assoc]
    exact built
  · rw [String.toList_ofList]
    exact isNameChar_of_isName (AssignHead.starts_of_of? found).named

/-! ## Simple commands -/

theorem declarationRound_grows (draft : DeclarationDraft)
    (built : Built true start draft.roots state) :
    Grows true start (Round.elim DeclarationDraft.roots DeclarationDraft.roots)
      (declarationRound inner draft state) := by
  unfold declarationRound
  simp only [skipBlanks_bind, redirectAt_bind]
  cases found : RedirectHead.starting? state.skipBlanks.cursor.rest with
  | some head =>
      exact (Grows.after built.behindBlanks (redirect_grows building moving found)).bind
        fun it after built =>
        .done (.redirecting built)
  | none =>
      simp only [current_bind]
      split
      · exact .done built.behindBlanks
      rw [rest_bind]
      cases assigned : AssignHead.of? state.skipBlanks.cursor.rest with
      | some head =>
          refine (Grows.after built.behindBlanks (assign_grows building moving assigned)).bind
            fun it after built =>
            .done ?_
          rw [Round.elim_again, DeclarationDraft.roots, gathered_cons, ← List.append_assoc]
          exact built.inserting
      | none =>
          refine Ends.bind (Ends.and (Grows.after built.behindBlanks (word_grows building moving))
            (word_spells building.special _)) ?_
          rintro word after ⟨built, spells⟩
          exact built.declare fun literal found => (spells literal found).1

theorem declaration_grows {pos : Position} {redirects : List Redirect} {keyword : Word}
    {declarator : Declarator} (built : Built true start (redirected redirects) state) :
    Grows true start (fun stmt => .of .placed [.stmt stmt])
      (declaration inner pos redirects keyword declarator state) := by
  unfold declaration
  refine (Grows.iterate (fun draft _ built => declarationRound_grows building moving draft built)
    (show Built true start (DeclarationDraft.roots { opts := [], assigns := [], redirects })
      state from built)
    _).bind fun draft after built =>
      .done (built.statement (congrArg (· ++ _) ?_) rfl (.plain rfl rfl))
  exact Node.append_eq_below rfl (Roots.ofFields_many ..) (Roots.ofFields_many ..)

theorem evaluationRound_grows (draft : EvaluationDraft)
    (built : Built true start draft.roots state) :
    Grows true start (Round.elim EvaluationDraft.roots EvaluationDraft.roots)
      (evaluationRound inner draft state) := by
  unfold evaluationRound
  simp only [skipBlanks_bind, redirectAt_bind]
  cases found : RedirectHead.starting? state.skipBlanks.cursor.rest with
  | some head =>
      exact (Grows.after built.behindBlanks (redirect_grows building moving found)).bind
        fun it after built =>
        .done (.redirecting built)
  | none =>
      simp only [current_bind]
      split
      · exact .done built.behindBlanks
      refine (Grows.after built.behindBlanks (word_grows building moving)).bind
        fun it after built => .done ?_
      rw [Round.elim_again, EvaluationDraft.roots, gathered_cons]
      exact built.inserting

theorem evaluation_grows {pos : Position} {redirects : List Redirect} {keyword : Word}
    (built : Built true start (redirected redirects) state) :
    Grows true start (fun stmt => .of .placed [.stmt stmt])
      (evaluation inner pos redirects keyword state) := by
  unfold evaluation
  refine (Grows.iterate (fun draft _ built => evaluationRound_grows building moving draft built)
    (show Built true start (EvaluationDraft.roots { exprs := [], redirects }) state from built)
    _).bind fun draft after built =>
      .done (built.statement (congrArg (· ++ _) ?_) rfl (.plain rfl rfl))
  exact Node.of_eq_below rfl rfl

omit moving

/-- The body of a function stands behind its name. -/
theorem functionAfterName_grows {roots : Roots} {word : Word}
    (built : Built true start (roots ++ .of .placed [.word word]) state) (plain : word.plain = true)
    {name : String} (straight : '\n' ∉ name.toList) :
    Grows true start (fun function => roots ++ .of .placed [.command function])
      (functionAfterName inner word.pos name state) := by
  unfold functionAfterName
  refine (Grows.quiet built (emptyParentheses_grows)).bind fun _ after built => ?_
  refine (Grows.quiet built (linebreaks_grows building)).bind fun _ after built => ?_
  refine (Grows.after built (building.command after)).bind fun body after built =>
    .done (.named ?_ plain rfl (.inr rfl) (.named straight rfl rfl rfl))
  rw [← List.append_assoc]
  exact built

theorem callFunction_grows (pos : Position) (draft : CallDraft)
    (built : Built true start draft.roots state) (straight : ∀ it ∈ draft.args, it.Straight) :
    Grows true start (fun stmt => .of .placed [.stmt stmt])
      (callFunction inner pos draft state) := by
  unfold callFunction
  split
  next name redirects =>
    cases literal : name.literal? with
    | none => exact .failed
    | some text =>
        have named : Built true start (redirected redirects ++ .of .placed [.word name]) state :=
          @Built.exchange _ _ _ [] _ _ built (.inr (Roots.filter_of _ _ _))
        exact (functionAfterName_grows building named (Word.plain_of_literal? literal)
          (straight name List.mem_cons_self text literal)).bind fun function after built =>
            .done (.ofDraftBehind built)
  next => exact .failed

omit building

theorem finishCall_grows (pos : Position) (draft : CallDraft)
    (built : Built loose start draft.roots state) :
    Grows loose start (fun stmt => .of .placed [.stmt stmt]) (finishCall pos draft state) := by
  unfold finishCall
  split
  next empty =>
    split
    · exact .failed
    · obtain ⟨args, assigns⟩ := Bool.and_eq_true_iff.mp empty
      rw [CallDraft.roots, List.isEmpty_iff.mp args, List.isEmpty_iff.mp assigns] at built
      exact .done (.ofDraft built)
  next =>
    refine .done (built.statement (congrArg (· ++ _) ?_) rfl (.plain rfl rfl))
    exact Node.append_eq_below rfl (Roots.ofFields_many ..) (Roots.ofFields_many ..)

include building moving

theorem callWord_grows (pos : Position) (draft : CallDraft)
    (built : Built true start draft.roots state) :
    Grows true start (Round.elim CallDraft.roots fun stmt => .of .placed [.stmt stmt])
      (callWord inner pos draft state) := by
  unfold callWord
  refine (Grows.after built (word_grows building moving)).bind fun word after built => ?_
  -- a keyword is the first word and has nothing but redirections before it
  have keyword (first : (draft.args.isEmpty && draft.assigns.isEmpty) = true) {text : String}
      (literal : word.literal? = some text) :
      Built true start (redirected draft.redirects) after := by
    obtain ⟨args, assigns⟩ := Bool.and_eq_true_iff.mp first
    have dropped := built.drop (Word.plain_of_literal? literal)
    rw [CallDraft.roots, List.isEmpty_iff.mp args, List.isEmpty_iff.mp assigns] at dropped
    exact dropped
  have further : Built true start (CallDraft.roots { draft with args := word :: draft.args })
      after := by
    rw [CallDraft.roots, gathered_cons, ← List.append_assoc]
    exact built.inserting
  by_cases first : (draft.args.isEmpty && draft.assigns.isEmpty) = true
  · simp only [first, if_true]
    cases literal : word.literal? with
    | none => exact .done further
    | some text =>
        simp only [Option.bind_some]
        cases Declarator.of? text with
        | some declarator =>
            exact (declaration_grows building moving (keyword first literal)).bind
              fun stmt after built => .done built
        | none =>
            simp only
            split
            · exact (evaluation_grows building moving (keyword first literal)).bind
                fun stmt after built => .done built
            · exact .done further
  · simp only [first]
    exact .done further

theorem callRound_grows (pos : Position) (draft : CallDraft)
    (built : Built true start draft.roots state) (straight : ∀ it ∈ draft.args, it.Straight) :
    Grows true start (Round.elim CallDraft.roots fun stmt => .of .placed [.stmt stmt])
      (callRound inner pos draft state) := by
  unfold callRound
  simp only [skipBlanks_bind, redirectAt_bind]
  cases found : RedirectHead.starting? state.skipBlanks.cursor.rest with
  | some head =>
      exact (Grows.after built.behindBlanks (redirect_grows building moving found)).bind
        fun it after built =>
        .done (.redirecting built)
  | none =>
      have ended : Grows true start (Round.elim CallDraft.roots fun stmt =>
        .of .placed [.stmt stmt])
          ((do return .done (← finishCall pos draft) : Reading (Round CallDraft Stmt))
            state.skipBlanks) :=
        (finishCall_grows pos draft built.behindBlanks).bind fun stmt after built => .done built
      simp only [current_bind]
      cases state.skipBlanks.cursor.rest.head? with
      | none => exact ended
      | some c =>
          simp only
          split
          · exact ended
          split
          · exact (callFunction_grows building pos draft built.behindBlanks straight).bind
              fun stmt after built =>
              .done built
          split
          next bare =>
            rw [rest_bind]
            cases assigned : AssignHead.of? state.skipBlanks.cursor.rest with
            | some head =>
                refine (Grows.after built.behindBlanks (assign_grows building moving assigned)).bind
                  fun it after built => .done ?_
                rw [CallDraft.roots, List.isEmpty_iff.mp bare, gathered_nil,
                  List.append_nil] at built
                rw [Round.elim_again, CallDraft.roots, List.isEmpty_iff.mp bare,
                  gathered_nil, List.append_nil, gathered_cons]
                exact built.inserting
            | none => exact callWord_grows building moving pos draft built.behindBlanks
          next => exact callWord_grows building moving pos draft built.behindBlanks

theorem call_grows (pos : Position) :
    Grows true state (fun stmt => .of .placed [.stmt stmt]) (call inner pos state) := by
  refine Ends.iterate (fun draft after => Built true state draft.roots after ∧
    draft.Opens state.skipBlanks.cursor.rest after) (fun _ => trivial)
      (fun draft after kept => ?_) _ _ _
    ⟨.stay state, List.forall_mem_nil _, fun _ _ => .inl ⟨rfl, rfl⟩⟩
  refine Ends.imp (Ends.and (callRound_grows building moving pos draft kept.1 kept.2.straight)
    (callRound_opens building.special pos kept.2)) ?_
  rintro (further | stmt) last holds
  · exact holds
  · exact holds.1

/-! ## Compound commands -/

/-- The roots of a command that has been read. -/
abbrev commandRoots (command : Command) : Roots :=
  .of .placed [.command command]

omit moving

theorem block_grows : Grows true state commandRoots (block inner state) := by
  unfold block
  rw [here_bind, skip_bind]
  refine (Lists.after (.skip 1 state) (building.statements true _ _)).bind
    fun body after built admits => ?_
  exact (Grows.quiet built (expectWord_grows _)).bind fun _ after built =>
    .done (built.wrap (Node.of_eq_below rfl rfl) rfl (.listing rfl admits))

theorem subshell_grows : Grows true state commandRoots (subshell inner state) := by
  unfold subshell
  rw [here_bind, skip_bind]
  refine (Lists.after (.skip 1 state) (building.statements true _ _)).bind
    fun body after built admits => ?_
  rw [current_bind]
  split
  · refine .done (.behind ?_ 1)
    exact built.wrap (Node.of_eq_below rfl rfl) rfl (.listing rfl admits)
  · exact .failed

theorem alternative_lists : Lists true state [] (alternative inner state) := by
  have blanks : Built true state [] state.skipBlanks := .skipBlanks state
  unfold alternative
  simp only [skipBlanks_bind, here_bind, wordAt_bind]
  generalize ["elif", "else", "fi"].find? state.skipBlanks.cursor.atWord = found
  split
  · refine Ends.bind (Ends.and (Grows.after blanks (building.furtherConditional _))
      (building.compound _)) ?_
    rintro command after ⟨built, compound⟩
    refine ⟨.ofDraft built, List.forall_mem_singleton.mpr fun _ _ word leads => ?_⟩
    exact absurd leads (Stmt.not_leads_of_isCompound rfl compound word)
  · rw [skip_bind]
    refine Ends.bind (Lists.after (blanks.behind 4) (building.statements true _ _)) ?_
    rintro items after ⟨built, admits⟩
    exact Ends.bind (Grows.quiet built (expectWord_grows _)) fun _ after built => ⟨built, admits⟩
  · exact ⟨blanks.behind 2, List.forall_mem_nil _⟩
  · trivial

theorem conditional_grows :
    Grows true state commandRoots (conditional inner keyword state) := by
  unfold conditional
  rw [here_bind, skip_bind]
  refine (Lists.after (.skip _ state) (building.statements true _ _)).bind
    fun condition after built first => ?_
  refine (Grows.quiet built (expectWord_grows _)).bind fun _ after built => ?_
  refine (Lists.after built (building.statements true _ after)).bind
    fun consequence after built second => ?_
  refine (Lists.after built (alternative_lists building)).bind fun alternative after built third =>
    .done (built.wrap (below_conditional ..).symm rfl (.listing rfl ?_))
  exact List.forall_mem_append.mpr ⟨List.forall_mem_append.mpr ⟨first, second⟩, third⟩

theorem loopBody_lists : Lists true state [] (loopBody inner state) := by
  unfold loopBody
  refine Ends.bind (linebreaks_grows building) fun _ after built => ?_
  refine Ends.bind (Grows.quiet built (expectWord_grows _)) fun _ after built => ?_
  refine Ends.bind (Lists.after built (building.statements true _ after)) ?_
  rintro body after ⟨built, admits⟩
  exact Ends.bind (Grows.quiet built (expectWord_grows _)) fun _ after built => ⟨built, admits⟩

theorem loop_grows :
    Grows true state commandRoots (loop inner keyword state) := by
  unfold loop
  rw [here_bind, skip_bind]
  refine (Lists.after (.skip _ state) (building.statements true _ _)).bind
    fun condition after built first => ?_
  exact (Lists.after built (loopBody_lists building)).bind fun body after built second =>
    .done (built.wrap (Node.append_eq_below rfl (Roots.ofFields_many ..) (Roots.ofFields_many ..))
      rfl
      (.listing rfl (List.forall_mem_append.mpr ⟨first, second⟩)))

omit building

theorem rangeEnd_grows : Grows loose state (fun _ => []) (rangeEnd state) :=
  .skipBlanks (skipIf_grows _)

theorem rangeName_ends :
    Ends (fun _ => True) (fun name after => Built true state [] after ∧
      (∀ c ∈ name.toList, isNameChar c = true) ∧
      ∃ rest, state.cursor.rest = name.toList ++ rest) (rangeName keyword state) := by
  unfold rangeName
  simp only [rest_bind, skip_bind, cursor_bind]
  split
  · trivial
  next filled =>
    have run : nameRun state.cursor.rest ≠ [] := by
      rintro empty
      simp [empty] at filled
    refine ⟨.skip _ state, ?_⟩
    rw [String.toList_ofList]
    exact ⟨isNameChar_of_isName (isName_nameRun run), _, nameRun_append_drop _⟩

include building moving

theorem rangeRound_grows (items : List Word)
    (built : Built loose start (gathered .word items) state) :
    Grows loose start (Round.elim (gathered .word) fun words => .of .placed (words.map .word))
      (rangeRound inner items state) := by
  unfold rangeRound
  rw [skipBlanks_bind, current_bind]
  split
  · exact .done built.behindBlanks
  · exact .gathering built.behindBlanks (word_grows building moving)

theorem rangeWords_grows :
    Grows loose state (fun words => .of .placed ((words.getD []).map .word))
      (rangeWords inner state) := by
  unfold rangeWords
  rw [cursor_bind]
  split
  · have words : Grows loose (state.skip 2) (fun words => .of .placed (words.map .word))
        (iterate (rangeRound inner) inner.rounds [] (state.skip 2)) :=
      .iterate (fun items _ built => rangeRound_grows building moving items built) (.stay _) _
    exact .skip 2 (words.map fun _ _ built => built)
  · exact .done (.stay state)

theorem wordRange_grows :
    Grows true state (fun range => .of .placed [.range range]) (wordRange inner keyword state) := by
  unfold wordRange
  rw [here_bind]
  refine Ends.bind (rangeName_ends keyword) ?_
  rintro name after ⟨built, named, rest, written⟩
  refine (Grows.quiet built (linebreaks_grows building)).bind fun _ after built => ?_
  refine (Grows.after built (rangeWords_grows building moving)).bind fun items after built => ?_
  exact (Grows.quiet built (rangeEnd_grows)).bind fun _ after built =>
    .done (built.wrap (Node.of_eq_below rfl rfl) rfl (.setting named rfl written rfl rfl))

/-- An arithmetic expression is a word. -/
theorem arithmeticWord_grows :
    Grows loose state (fun parts => .of .placed [.word { pos := state.cursor.position, parts }])
      (arithmeticParts inner "))" state) := by
  have parts : Grows loose state partRoots (arithmeticParts inner "))" state) :=
    arithmeticParts_grows building _
  refine Ends.imp (parts.and (arithmeticParts_moves moving state (by decide))) ?_
  rintro parts after ⟨built, text, passes, firm⟩
  exact .word (below_word _ ▸ built) rfl (passes.before firm.1)

theorem arithmeticRange_grows (starts : state.cursor.startsWith "((" = true) :
    Grows true state (fun range => .of .placed [.range range]) (arithmeticRange inner state) := by
  have here : (state.skip 2).cursor.position = state.cursor.position.right 2 := by
    have taken : state.cursor.rest.take 2 = ['(', '('] := Cursor.take_of_startsWith starts
    rw [ReadState.skip_cursor, Cursor.advance_position, taken]
    exact Position.along_plain (by decide) _
  unfold arithmeticRange
  rw [here_bind, skip_bind, ← here]
  refine (Grows.skip 2 (arithmeticWord_grows building moving)).bind fun parts after built => ?_
  exact (Grows.quiet built (rangeEnd_grows)).bind fun _ after built =>
    .done (built.wrap rfl rfl (.plain rfl rfl))

theorem range_grows :
    Grows true state (fun range => .of .placed [.range range]) (range inner keyword state) := by
  unfold range
  rw [cursor_bind]
  split
  next starts => exact arithmeticRange_grows building moving (Bool.and_eq_true_iff.mp starts).2
  next => exact wordRange_grows building moving keyword

theorem iteration_grows :
    Grows true state commandRoots (iteration inner keyword state) := by
  unfold iteration
  rw [here_bind, skip_bind, skipBlanks_bind]
  refine (Grows.skip _ (.skipBlanks (range_grows building moving keyword))).bind
    fun range after built => ?_
  exact (Lists.after built (loopBody_lists building)).bind fun body after built admits =>
    .done (built.wrap (Node.append_eq_below rfl (Roots.ofFields_one ..) (Roots.ofFields_many ..))
      rfl
      (.listing rfl admits))

theorem patternRound_grows (patterns : List Word)
    (built : Built loose start (gathered .word patterns) state) :
    Grows loose start (Round.elim (gathered .word) fun words => .of .placed (words.map .word))
      (patternRound inner patterns state) := by
  unfold patternRound
  rw [skipBlanks_bind]
  refine (Grows.after built.behindBlanks (word_grows building moving)).bind
    fun word after built => ?_
  rw [← gathered_cons] at built
  rw [skipBlanks_bind, current_bind]
  split
  · exact .done (built.behindBlanks.behind 1)
  · exact .done built.behindBlanks

omit building moving in
theorem caseEnd_grows : Grows loose state (fun _ => []) (caseEnd state) := by
  unfold caseEnd
  rw [rest_bind]
  cases CaseEnd.of? state.cursor.rest with
  | none => exact .done (.stay state)
  | some ending => exact .done (.skip _ state)

theorem caseItem_grows :
    Grows true state (fun item => .of .placed [.caseItem item]) (caseItem inner state) := by
  unfold caseItem
  rw [here_bind]
  refine (skipIf_grows _).bind fun _ after built => ?_
  have patterns : Grows true after (fun words => .of .placed (words.map .word))
      (iterate (patternRound inner) inner.rounds [] after) :=
    .iterate (fun words _ built => patternRound_grows building moving words built) (.stay _) _
  refine (Grows.after built patterns).bind fun patterns after built => ?_
  rw [current_bind]
  split
  · rw [skip_bind]
    refine (Lists.after (built.behind 1) (building.statements true _ _)).bind
      fun body after built admits => ?_
    exact (Grows.quiet built (caseEnd_grows)).bind fun ending after built =>
      .done (built.wrap (Node.append_eq_below rfl (Roots.ofFields_many ..) (Roots.ofFields_many ..))
        rfl
        (.listing rfl admits))
  · exact .failed

theorem caseRound_grows (items : List CaseItem)
    (built : Built true start (gathered .caseItem items) state) :
    Grows true start (Round.elim (gathered .caseItem) fun items =>
      .of .placed (items.map .caseItem))
      (caseRound inner items state) := by
  unfold caseRound
  refine (Grows.quiet built (linebreaks_grows building)).bind fun _ after built => ?_
  rw [cursor_bind]
  split
  · exact .done (built.behind 4)
  · rw [cursor_bind]
    split
    · exact .failed
    · exact .gathering built (caseItem_grows building moving)

theorem case_grows : Grows true state commandRoots (case inner state) := by
  unfold case
  rw [here_bind, skip_bind, skipBlanks_bind]
  refine (Grows.skip 4 (.skipBlanks (word_grows building moving))).bind
    fun subject after built => ?_
  refine (Grows.quiet built (linebreaks_grows building)).bind fun _ after built => ?_
  refine (Grows.quiet built (expectWord_grows _)).bind fun _ after built => ?_
  have items : Grows true after (fun items => .of .placed (items.map .caseItem))
      (iterate (caseRound inner) inner.rounds [] after) :=
    .iterate (fun items _ built => caseRound_grows building moving items built) (.stay _) _
  exact (Grows.after built items).bind fun items after built => .done
    (built.wrap (Node.append_eq_below rfl (Roots.ofFields_one ..) (Roots.ofFields_many ..))
      rfl (.plain rfl rfl))

omit building moving in
theorem optionalParentheses_grows :
    Grows loose state (fun _ => []) (optionalParentheses state) := by
  unfold optionalParentheses
  rw [current_bind]
  split
  · exact emptyParentheses_grows
  · exact .done (.stay state)

theorem keywordFunction_grows (filled : state.cursor.rest ≠ []) :
    Grows true state commandRoots (keywordFunction inner state) := by
  have keyword : Built true state (.of .placed [.word (.anchor state.cursor.position)])
      (state.skip 8) :=
    .anchor (Cursor.advance_passes 8 _) (by simpa using filled)
  unfold keywordFunction
  rw [here_bind, skip_bind, skipBlanks_bind]
  refine Ends.bind (Ends.and (Grows.after keyword.behindBlanks (word_grows building moving))
    (word_spells building.special _)) ?_
  rintro word after ⟨built, spells⟩
  cases literal : word.literal? with
  | none => trivial
  | some name =>
      simp only [skipBlanks_bind]
      have built := (built.drop (Word.plain_of_literal? literal)).behindBlanks
      refine (Grows.quiet built (optionalParentheses_grows)).bind fun _ after built => ?_
      refine (Grows.quiet built (linebreaks_grows building)).bind fun _ after built => ?_
      refine (Grows.after built (building.command after)).bind fun body after built => .done ?_
      refine @Built.named _ _ _ [] _ _ ?_ (Word.plain_anchor _) rfl (.inr rfl)
        (.named (spells name literal).1 rfl rfl rfl)
      exact built

theorem testRound_grows (words : List Word)
    (built : Built true start (gathered .word words) state) :
    Grows true start (Round.elim (gathered .word) fun words => .of .placed (words.map .word))
      (testRound inner words state) := by
  unfold testRound
  refine (Grows.quiet built (linebreaks_grows building)).bind fun _ after built => ?_
  rw [cursor_bind]
  split
  · exact .done (built.behind 2)
  · rw [cursor_bind]
    split
    · exact .failed
    · rw [rest_bind]
      cases found : testOperator? after.cursor.rest with
      | some operator =>
          have passes := Cursor.advance_passes operator.length after.cursor
          refine .done ?_
          rw [Round.elim_again, gathered_cons]
          exact built.seq (.word ((Built.skip _ after).leaf rfl rfl (.plain rfl rfl)) rfl
            (passes.before (testOperator_firm found).1))
      | none => exact .gathering built (wordUpTo_grows building moving (by decide))

theorem test_grows : Grows true state commandRoots (test inner state) := by
  unfold test
  rw [here_bind, skip_bind]
  have words : Grows true (state.skip 2) (fun words => .of .placed (words.map .word))
      (iterate (testRound inner) inner.rounds [] (state.skip 2)) :=
    .iterate (fun words _ built => testRound_grows building moving words built) (.stay _) _
  exact (Grows.skip 2 words).bind fun words after built =>
    .done (built.wrap (Node.of_eq_below rfl rfl) rfl (.plain rfl rfl))

theorem arithmetic_grows : Grows true state commandRoots (arithmetic inner state) := by
  unfold arithmetic
  simp only [here_bind, skip_bind]
  exact (Grows.skip 2 (arithmeticWord_grows building moving)).bind fun parts after built =>
    .done (built.wrap rfl rfl (.plain rfl rfl))

theorem redirectRound_grows {roots : Roots} (redirects : List Redirect)
    (built : Built loose start (roots ++ redirected redirects) state) :
    Grows loose start (Round.elim (fun redirects => roots ++ redirected redirects)
      fun redirects => roots ++ redirected redirects) (redirectRound inner redirects state) := by
  unfold redirectRound
  simp only [skipBlanks_bind, redirectAt_bind]
  cases found : RedirectHead.starting? state.skipBlanks.cursor.rest with
  | some head =>
      exact (Grows.after built.behindBlanks (redirect_grows building moving found)).bind
        fun it after built =>
        .done (.redirecting built)
  | none => exact .done built.behindBlanks

theorem compound?_grows :
    Grows true state (fun command => .of .placed (command.toList.map .command))
      (compound? inner state) := by
  have present {reading : Reading Command} (grows : Grows true state commandRoots (reading state)) :
      Grows true state (fun command => .of .placed (command.toList.map .command))
        ((some <$> reading) state) :=
    grows.map fun _ _ built => built
  unfold compound?
  simp only [cursor_bind]
  split
  · exact present (arithmetic_grows building moving)
  split
  · exact present (subshell_grows building)
  generalize found : compoundWords.find? state.cursor.atWord = word
  split
  · exact present (block_grows building)
  · exact present (conditional_grows building _)
  · exact present (loop_grows building _)
  · exact present (loop_grows building _)
  · exact present (iteration_grows building moving _)
  · exact present (iteration_grows building moving _)
  · exact present (case_grows building moving)
  · refine present (keywordFunction_grows building moving ?_)
    obtain ⟨rest, whole⟩ :=
      Cursor.rest_of_startsWith (Cursor.startsWith_of_atWord (List.find?_some found))
    rw [whole]
    exact List.cons_ne_nil _ _
  · exact present (test_grows building moving)
  · exact .done (.stay state)

theorem command_grows :
    Grows true state (fun stmt => .of .placed [.stmt stmt]) (command inner state) := by
  unfold command
  rw [skipBlanks_bind, here_bind]
  refine .skipBlanks ((compound?_grows building moving).bind fun found after built => ?_)
  cases found with
  | some command =>
      have redirected : Grows true state.skipBlanks
          (fun redirects => commandRoots command ++ redirected redirects)
          (iterate (redirectRound inner) inner.rounds [] after) := by
        refine .iterate (fun redirects _ built => redirectRound_grows building moving
          redirects built) ?_ _
        exact (List.append_nil _).symm ▸ built
      exact redirected.bind fun redirects after built => .done (.ofDraft built)
  | none => exact Grows.after built (call_grows building moving _)

/-! ## Statements -/

/-- The roots of a statement that has been read. -/
abbrev stmtRoots (stmt : Stmt) : Roots :=
  .of .placed [.stmt stmt]

omit moving

theorem join_grows {left : Stmt} {connective : Connective} {right : Reading Stmt}
    (built : Built true start (stmtRoots left) state)
    (grows : ∀ state, Grows true state stmtRoots (right state)) :
    Grows true start (Round.elim stmtRoots stmtRoots) (join inner left connective right state) := by
  unfold join
  rw [skip_bind]
  refine (Grows.quiet (built.behind _) (linebreaks_grows building)).bind fun _ after built => ?_
  refine (Grows.after built (grows after)).bind fun stmt after built => .done ?_
  exact .ofDraft (built.wrap rfl rfl (.plain rfl rfl))

include moving

theorem pipelineRound_grows (left : Stmt) (built : Built true start (stmtRoots left) state) :
    Grows true start (Round.elim stmtRoots stmtRoots) (pipelineRound inner left state) := by
  unfold pipelineRound
  simp only [skipBlanks_bind, rest_bind]
  cases Connective.pipe? state.skipBlanks.cursor.rest with
  | some connective =>
      exact join_grows building built.behindBlanks fun _ => command_grows building moving
  | none => exact .done built.behindBlanks

theorem pipes_grows : Grows true state stmtRoots (pipes inner state) := by
  unfold pipes
  exact (command_grows building moving).bind fun left after built =>
    .iterate (fun left _ built => pipelineRound_grows building moving left built) built _

theorem pipeline_grows : Grows true state stmtRoots (pipeline inner state) := by
  unfold pipeline
  rw [skipBlanks_bind, here_bind, rest_bind]
  refine .skipBlanks ?_
  split
  · rw [skip_bind]
    exact (Grows.skip 1 (pipes_grows building moving)).bind fun stmt after built =>
      .done (@Built.restate _ _ _ [] _ _ built rfl rfl)
  · exact pipes_grows building moving

theorem logicRound_grows (left : Stmt) (built : Built true start (stmtRoots left) state) :
    Grows true start (Round.elim stmtRoots stmtRoots) (logicRound inner left state) := by
  unfold logicRound
  simp only [skipBlanks_bind, rest_bind]
  cases Connective.logical? state.skipBlanks.cursor.rest with
  | some connective =>
      exact join_grows building built.behindBlanks fun _ => pipeline_grows building moving
  | none => exact .done built.behindBlanks

theorem logic_grows : Grows true state stmtRoots (logic inner state) := by
  unfold logic
  exact (pipeline_grows building moving).bind fun left after built =>
    .iterate (fun left _ built => logicRound_grows building moving left built) built _

omit building moving

theorem statementEnd_grows : Grows loose state (fun _ => []) (statementEnd state) := by
  unfold statementEnd
  simp only [skipBlanks_bind, rest_bind]
  refine .skipBlanks ?_
  split
  · exact .done (.stay _)
  simp only [current_bind]
  generalize state.skipBlanks.cursor.rest.head? = next
  split
  · exact .done (.stay _)
  · exact .done (.stay _)
  · exact .done (.stay _)
  · exact .done (.stay _)
  · exact .done (.skip 1 _)
  · exact .done (.skip 1 _)
  · rw [wordAt_bind]
    split
    · exact .failed
    · exact .done (.stay _)

/-- Comments that are taken up stand behind the statements before them. -/
theorem gathered_comments (comments : List Comment) (items : List Item) :
    gathered Item.node ((comments.map Item.comment).reverse ++ items) =
      gathered Item.node items ++ .of .placed (comments.map .comment) := by
  simp only [gathered, List.reverse_append, List.reverse_reverse, List.map_append,
    Roots.of_append, List.map_map]
  rfl

/-- A list of statements as far as it has been read, the last one first. -/
structure Listing (start : ReadState) (items : List Item) (state : ReadState) : Prop where
  built : Built true start (gathered Item.node items) state
  admits : ∀ item ∈ items, item.Admits start.cursor

theorem takeComments_lists (listing : Listing start items state) :
    Ends (fun _ => True) (fun items after => after.comments = [] ∧ after.cursor = state.cursor ∧
      Listing start items after) (takeComments items state) := by
  refine ⟨rfl, rfl, ?_, List.forall_mem_append.mpr ⟨?_, listing.admits⟩⟩
  · rw [gathered_comments]
    exact listing.built.seq (.take state)
  · intro item member
    obtain ⟨comment, -, rfl⟩ := List.mem_map.mp (List.mem_reverse.mp member)
    exact fun _ _ => trivial

include building moving

/-- A statement in front of which no reserved word stands is an element of a list. -/
theorem statement_lists (listing : Listing start items state)
    (tight : state.skipBlanks.cursor = state.cursor)
    (unreserved : listTerminators.find? state.cursor.atWord = none) :
    Ends (fun _ => True) (fun items after => Listing start items after)
      (statement inner items state) := by
  unfold statement
  refine Ends.bind (Ends.and (Grows.after listing.built (logic_grows building moving))
    (logic_starts building.special state)) ?_
  rintro stmt after ⟨built, starts⟩
  rw [tight] at starts
  refine Ends.bind
    (takeComments_lists ⟨(.stay after : Built true after (gathered Item.node []) after), nofun⟩) ?_
  rintro comments middle ⟨-, -, taken⟩
  refine Ends.bind (Grows.quiet taken.built (statementEnd_grows)) fun background last further => ?_
  have restated : Built true start (gathered Item.node (.stmt { stmt with background } :: items))
      after := by
    rw [gathered_cons]
    exact .restate built rfl rfl
  have admitted : Item.Admits start.cursor (.stmt { stmt with background }) :=
    fun source excerpt word leads =>
    starts.admitted (listing.built.excerpt excerpt) unreserved word (leads.restate rfl rfl rfl)
  refine ⟨?_, List.forall_mem_append.mpr ⟨built.admits taken.admits, List.forall_mem_cons.mpr
    ⟨admitted, listing.admits⟩⟩⟩
  have split : gathered Item.node (comments ++ .stmt { stmt with background } :: items) =
      gathered Item.node (.stmt { stmt with background } :: items) ++
        gathered Item.node comments := by
    rw [gathered, List.reverse_append, List.map_append, Roots.of_append]
    rfl
  rw [split]
  exact restated.seq further

/-- A list of statements has taken up all comments when it ends. -/
theorem statementRound_lists (stops : List String) (listing : Listing start items state) :
    Ends (fun _ => True) (Round.elim (fun items after => Listing start items after)
      fun items after => after.comments = [] ∧ Listing start items.reverse after)
      (statementRound inner stops items state) := by
  unfold statementRound
  rw [skipBlanks_bind]
  refine Ends.bind (takeComments_lists ⟨listing.built.behindBlanks, listing.admits⟩) ?_
  rintro items after ⟨clear, same, listing⟩
  have ended : after.comments = [] ∧ Listing start items.reverse.reverse after :=
    ⟨clear, items.reverse_reverse.symm ▸ listing⟩
  rw [rest_bind]
  split
  · exact ended
  rw [current_bind]
  generalize shape : after.cursor.rest.head? = next
  split
  · exact ended
  · exact Ends.bind (newline_grows building) fun _ last further =>
      ⟨listing.built.silent further, listing.admits⟩
  · obtain ⟨text, whole⟩ := List.head?_eq_some_iff.mp shape
    obtain ⟨it, front, next, run, passes, filled, here⟩ := comment_eq whole
    rw [bind_ok run]
    refine ⟨?_, List.forall_mem_cons.mpr ⟨fun _ _ => trivial, listing.admits⟩⟩
    rw [gathered_cons]
    exact listing.built.seq (.comment passes filled here clear)
  · split
    · exact ended
    · trivial
  · rw [wordAt_bind]
    cases unreserved : listTerminators.find? after.cursor.atWord with
    | some word =>
        simp only
        split
        · exact ended
        · trivial
    | none =>
        refine Ends.bind (statement_lists building moving listing ?_ unreserved)
          fun items last listing => listing
        rw [ReadState.skipBlanks_cursor, same, ← ReadState.skipBlanks_cursor,
          ReadState.skipBlanks_skipBlanks]

theorem statements_list (stops : List String) :
    Lists loose state [] (statements inner stops state) := by
  have loop : Ends (fun _ => True) (fun items after => after.comments = [] ∧
    Listing state items.reverse after)
      (statements inner stops state) :=
    Ends.iterate (fun items after => Listing state items after) (fun _ => trivial)
      (fun items _ listing => statementRound_lists building moving stops listing)
      _ _ _ ⟨.stay state, nofun⟩
  refine Ends.imp loop ?_
  rintro items after ⟨clear, built, admits⟩
  rw [gathered, List.reverse_reverse] at built
  exact ⟨.list built clear, fun item member => admits item (List.mem_reverse.mpr member)⟩

end Levels

end Reading

namespace Inner

theorem around_building {inner : Inner} (building : inner.Building) (moving : inner.Moving) :
    inner.around.Building where
  statements _ stops _ := Reading.statements_list building moving stops
  command _ := Reading.command_grows building moving
  furtherConditional _ := Reading.conditional_grows building _
  expansion _ quoted _ := Reading.expansion_grows building moving quoted
  compound := Reading.conditional_compound _
  special := Reading.expansion_special

theorem tooDeep_building (rounds : Nat) : (tooDeep rounds).Building where
  statements _ _ _ := trivial
  command _ := .failed
  furtherConditional _ := .failed
  expansion _ _ _ := .failed
  compound _ := trivial
  special _ _ := trivial

/-- At every level, trees are put together from what is read. -/
theorem level_building (rounds depth : Nat) : (level rounds depth).Building := by
  induction depth with
  | zero => exact tooDeep_building rounds
  | succ depth ih => exact around_building ih (level_moving rounds depth)

end Inner

namespace Script

variable {name : String} {text : List Char} {limit : NestingLimit} {script : Script}

theorem parseWithin_drawn {rounds depth : Nat}
    (read : parseWithin rounds depth name text = .ok script) :
    (Node.script script).Drawn text := by
  rw [parseWithin_eq_conclude] at read
  obtain ⟨items, state, run, -, rfl⟩ := conclude_ok read
  have lists := (Inner.level_building rounds depth).statements false [] (.ofText text .start)
  rw [run] at lists
  obtain ⟨built, admits⟩ := lists
  obtain ⟨drawn, stored⟩ := built.drawn .whole nofun
  have admitted : ∀ item ∈ placeItems state.bodies items, item.Admitted text := by
    rw [placeItems_eq_map]
    exact List.forall_mem_map.mpr fun item member => (admits item member text .whole).place _
  refine .of_fields ⟨nofun, nofun, admitted, nofun⟩ (Field.forall_many.mpr ?_)
  rw [placeItems_eq_map]
  refine List.forall_mem_map.mpr fun item member => ?_
  rw [Item.node_place]
  exact (drawn (.placed, item.node) (List.mem_map_of_mem (List.mem_map_of_mem member))).place stored

/-- A script is drawn from its text. -/
theorem parse_drawn (read : parse name text limit = .ok script) : (Node.script script).Drawn text :=
  parseWithin_drawn read

theorem sourced_of_mem_preorder (read : parse name text limit = .ok script) {node : Node}
    (member : node ∈ (Node.script script).preorder) : node.Sourced text :=
  Node.of_mem_preorder (parse_drawn read) member

end Script

end RecipeLint
