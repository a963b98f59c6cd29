import RecipeLint.Proofs.Yields.Words

/-!
# What readings of commands yield

A redirection is recorded when its target has been read, since its here-document is read later.  Its
position differs from those of all others: the ones before it stand in front of it, and the ones
inside its target behind its operator. -/

namespace RecipeLint

open Reading

variable {redirects : List Redirect} {text : List Char} {pending : Pending} {pos : Position}
    {draft : CallDraft} {given : Stage → Prop} {kind : List Char → Prop} {connective : Connective}

/-! ## Redirections and assignments -/

namespace RedirectHead

theorem toList_fd (head : RedirectHead) : (head.fd.getD "").toList = head.descriptor.getD [] := by
  obtain ⟨descriptor, op⟩ := head
  match descriptor with
  | none | some [] => rfl
  | some (digit :: digits) => simp [fd]

end RedirectHead

/-- A further redirection is recorded, and its here-document awaited. -/
theorem Sound.record {ground : Ground} {state : ReadState}
    (sound : Sound ground redirects state) {redirect : Redirect}
    (earlier : redirect.pos.Before state.cursor.position)
    (new : ∀ it ∈ redirects, it.pos ≠ redirect.pos) {awaited : List Awaited}
    (announced : ∀ it ∈ awaited, it ∈ state.awaited ∨ redirect.op.takesBody = true ∧
      it = .ofRedirect redirect) :
    Sound ground (redirect :: redirects) { state with awaited } where
  lies := sound.lies
  comments it member := by
    have wider : (state.stage redirects).pending.Le (state.stage (redirect :: redirects)).pending :=
      ⟨fun _ => id, List.subset_cons_self _ _⟩
    exact (sound.comments it member).imp wider
  awaited it member := by
    rcases announced it member with old | ⟨takes, rfl⟩
    · obtain ⟨other, inside, rest⟩ := sound.awaited it old
      exact ⟨other, List.mem_cons_of_mem _ inside, rest⟩
    · exact ⟨redirect, List.mem_cons_self, takes, rfl⟩
  bodies entry member := by
    obtain ⟨other, inside, rest⟩ := sound.bodies entry member
    exact ⟨other, List.mem_cons_of_mem _ inside, rest⟩
  earlier it member := by
    rcases List.mem_cons.mp member with rfl | old
    · exact earlier
    · exact sound.earlier it old
  single it member other inside same := by
    rcases List.mem_cons.mp member with rfl | old <;> rcases List.mem_cons.mp inside with rfl | old'
    · rfl
    · exact absurd same.symm (new other old')
    · exact absurd same (new it old)
    · exact sound.single it old other old' same

theorem await_ends {redirect : Redirect} {state : ReadState} : ∃ awaited,
    await redirect state = .ok ((), { state with awaited }) ∧ ∀ it ∈ awaited,
      it ∈ state.awaited ∨ redirect.op.takesBody = true ∧ it = .ofRedirect redirect := by
  unfold await
  split
  next takes =>
    refine ⟨_, rfl, fun it member => ?_⟩
    rcases List.mem_append.mp member with old | new
    · exact .inl old
    · exact .inr ⟨takes, List.mem_singleton.mp new⟩
  next => exact ⟨_, rfl, fun _ => .inl⟩

section Levels

variable {ground : Ground} {inner : Inner} (yielding : inner.Yielding ground)

variable (keyword : String)

include yielding

theorem redirect_yields {head : RedirectHead} (found : RedirectHead.starting? text = some head) :
    YieldsFreely ground (· = text) (redirect inner head) (fun _ _ => True)
      fun stage it => (Node.redirect it).Drafted ground stage.inside := by
  intro state redirects sound start
  obtain ⟨rest, written⟩ := RedirectHead.text_of_starting? found
  have operator := Cursor.advance_passes head.text.length state.cursor
  rw [show state.cursor.rest.take head.text.length =
    head.text by rw [start, written, List.take_left]] at operator
  obtain ⟨sound₁, leads₁⟩ := sound.move operator
  obtain ⟨sound₂, leads₂⟩ :=
    sound₁.move (Cursor.advance_passes (blankRun (state.cursor.advance _).rest) _)
  unfold redirect
  rw [here_bind, skip_bind, skipBlanks_bind, current_bind]
  split
  · exact sound₂.lies.holds
  refine Ends.bind (word_yields yielding _ _ sound₂ trivial) ?_
  rintro target after ⟨others, leads₃, sound₃, -, drafted⟩
  have behind := leads₂.trans leads₃
  have front : state.cursor.position.Before (state.cursor.position.along head.text) :=
    Position.before_along head.text_ne_nil _
  have earlier : state.cursor.position.Before after.cursor.position := by
    obtain ⟨passed, passes⟩ := behind.passes
    have moved : after.cursor.position = (state.cursor.position.along head.text).along passed := by
      rw [← operator.position_eq]
      exact passes.position_eq
    rw [moved]
    exact front.along passed
  -- what was recorded before stands in front, what the target has added stands behind the operator
  have new : ∀ it ∈ others, it.pos ≠ state.cursor.position := by
    rintro it member same
    rcases behind.later it member with old | later
    · exact Position.Before.irrefl _ (same ▸ sound.earlier it old)
    · refine later ?_
      rw [same]
      change Position.Before _ (state.cursor.advance head.text.length).position
      rw [operator.position_eq]
      exact front
  let redirect : Redirect :=
    { pos := state.cursor.position, op := head.op, fd := head.fd, target, body := none }
  obtain ⟨awaited, run, announced⟩ := @await_ends redirect after
  rw [bind_ok run]
  refine ⟨redirect :: others, ⟨(leads₁.trans behind).passes, ?_, ?_⟩,
    sound₃.record earlier new announced, trivial,
    fun later leads _ => ?_⟩
  · exact List.Subset.trans (leads₁.trans behind).kept (List.subset_cons_self _ _)
  · intro it member
    rcases List.mem_cons.mp member with rfl | old
    · exact .inr (Position.Before.irrefl _)
    · exact (leads₁.trans behind).later it old
  · have held := drafted _ (.refl _) trivial
    have wider : (after.stage others).inside.Le later.inside :=
      ⟨fun _ => id, fun it member => leads.kept (List.mem_cons_of_mem _ member)⟩
    refine .redirect sound.lies.holds (fun source known => ?_) rfl (leads.kept List.mem_cons_self)
      (held.1.imp wider) held.2
    have lies := sound.lies
    rw [start, written] at lies
    have occurs := lies.occurs source known
    rw [RedirectHead.text, ← head.toList_fd] at occurs
    exact occurs

/-- Words that have been read. -/
abbrev Words (ground : Ground) (pending : Pending) (words : List Word) : Prop :=
  ∀ word ∈ words, word.Drafted ground pending

/-- Redirections that have been read. -/
abbrev Redirects (ground : Ground) (pending : Pending) (redirects : List Redirect) : Prop :=
  ∀ it ∈ redirects, (Node.redirect it).Drafted ground pending

/-- Assignments that have been read. -/
abbrev Assigns (ground : Ground) (pending : Pending) (assigns : List Assign) : Prop :=
  ∀ it ∈ assigns, (Node.assign it).Drafted ground pending

omit yielding in
theorem Words.reverse {stage : Stage} {words : List Word}
    (drafted : Words ground stage.inside words) :
    Words ground stage.pending words.reverse := by
  intro word member
  have read := drafted word (List.mem_reverse.mp member)
  exact ⟨read.1.imp stage.inside_le_pending, read.2⟩

theorem elementRound_yields : YieldsRounds ground (fun stage => Words ground stage.inside)
    (elementRound inner)
    fun stage => Words ground stage.inside := by
  intro elements
  refine .bind (linebreaks_yields yielding).anywhere fun _ => .current fun text _ => ?_
  split
  · exact .fail _
  · refine .skip 1 (.returns fun stage known word member => ?_)
    exact known.1 word (List.mem_reverse.mp member)
  · refine .bind (word_yields yielding).anywhere fun word => .returns fun stage known => ?_
    exact List.forall_mem_cons.mpr ⟨known.2, known.1.1⟩

theorem value_yields : YieldsFreely ground (fun _ => True) (value inner)
    (fun value _ => value ≠ .naked)
    fun stage value => ∀ field ∈ value.fields, Field.Drafted ground stage.inside false field := by
  refine .current fun text _ => .ite (fun _ => .skip 1 ?_) fun _ => .cursor fun _ _ =>
    .ite (fun _ => ?_) fun _ => ?_
  · exact .bind (.loop (elementRound_yields yielding) fun _ _ => by nofun) fun words =>
      .pure (fun _ _ => nofun)
      fun stage known => Field.Drafted.words known.2
  · exact .pure (fun _ _ => nofun) fun _ _ => nofun
  · exact .bind (word_yields yielding).anywhere fun word =>
      .pure (fun _ _ => nofun) fun stage known =>
      Field.forall_one.mpr (.word known.2.1 known.2.2)

omit yielding in
/-- An assignment of a value is regular. -/
theorem Assign.regular_of_value {assign : Assign} (valued : assign.value ≠ .naked) :
    assign.Regular := by
  obtain ⟨pos, name, index, append, value⟩ := assign
  refine ⟨fun naked => absurd naked valued, ?_⟩
  have indexed {slot : Slot} (other : slot ≠ .index) :
      ∀ field ∈ Field.optional .index .word index, field.1 ≠ slot :=
    Field.forall_optional.mpr fun _ _ => other.symm
  cases value with
  | naked => exact absurd rfl valued
  | empty => exact .inl (List.forall_mem_append.mpr ⟨indexed nofun, nofun⟩)
  | scalar word =>
      exact .inr (List.forall_mem_append.mpr ⟨indexed nofun, Field.forall_one.mpr nofun⟩)
  | array words =>
      exact .inl
        (List.forall_mem_append.mpr ⟨indexed nofun, Field.forall_many.mpr fun _ _ => nofun⟩)

theorem assignIndex_yields {head : AssignHead} :
    YieldsFreely ground (· = head.indexText.getD [] ++ text) (assignIndex inner head)
      (fun index _ => ∀ word ∈ index, word.Complete ground) fun _ _ => True := by
  obtain ⟨name, index, append⟩ := head
  cases index with
  | none => exact .pure (fun _ _ => nofun) fun _ _ => trivial
  | some index =>
      refine .hereAt fun pos lies => ?_
      have window : ground.Lies (pos.along ['[']) index := by
        have inside : ground.Lies (pos.along ['[']) (index ++ ']' :: text) := by
          refine Ground.Lies.behind ?_
          simpa [AssignHead.indexText] using lies
        refine inside.window ?_
        rintro c ⟨⟩ named
        exact absurd named (by decide)
      exact (inlineWord_yields yielding window).map (fun word _ complete => by
        rintro _ ⟨⟩
        exact complete.2) fun _ _ => id

theorem assign_yields {head : AssignHead} (found : AssignHead.of? text = some head) :
    YieldsFreely ground (· = text) (assign inner head) (fun _ _ => True)
      fun stage it => (Node.assign it).Drafted ground stage.inside := by
  obtain ⟨rest, rfl⟩ := (AssignHead.starts_of_of? found).written
  have indexed : YieldsFreely ground (· = head.text ++ rest) (assignHead inner head)
      (fun index _ => ∀ word ∈ index, word.Complete ground) fun _ _ => True := by
    refine .skip _ ?_
    rw [show (head.text ++ rest).drop head.name.length = head.indexText.getD [] ++
      (head.operator ++ rest) by
      rw [AssignHead.text, List.append_assoc, List.append_assoc, List.drop_left]]
    exact .bind (assignIndex_yields yielding) fun index => .pin fun _ complete => .skip _
      (.pure (fun _ _ => complete) fun _ _ => trivial)
  refine .hereAt fun pos lies => .bind indexed.any fun index => .pin fun _ complete => ?_
  refine .bind (value_yields yielding).anywhere
    fun value => .pin fun _ valued => .returns fun stage known => ?_
  refine .assign lies.holds (Assign.regular_of_value valued) (fun source mem => ?_) complete known.2
  have spelled : ∃ index, (index = [] ∨ ∃ inside, index = '[' :: inside ++ [']']) ∧
    Occurs source pos
      ((String.ofList head.name).toList ++ index ++
        (if head.append then ['+', '='] else ['='])) := by
    refine ⟨head.indexText.getD [], ?_, ?_⟩
    · cases shape : head.index with
      | none => exact .inl (by simp [AssignHead.indexText, shape])
      | some inside => exact .inr ⟨inside, by simp [AssignHead.indexText, shape]⟩
    · rw [String.toList_ofList]
      exact lies.occurs source mem
  cases value with
  | naked => exact absurd rfl valued
  | empty | scalar | array => exact spelled

/-! ## Simple commands -/

omit yielding in
/-- A statement of a command and redirections. -/
theorem ofDraft_drafted {command : Option Command}
    (placed : ground.Holds pos) (filled : command ≠ none ∨ redirects ≠ [])
    (commanded : ∀ it ∈ command, (Node.command it).Drafted ground pending)
    (redirected : Redirects ground pending redirects) :
    (Node.stmt (.ofDraft pos command redirects)).Drafted ground pending := by
  refine .stmt placed (filled.imp_right fun some => ?_) commanded fun it member => ?_
  · simpa [Stmt.ofDraft] using some
  · exact redirected it (List.mem_reverse.mp member)

/-- A simple command that has been read so far. -/
structure CallDraft.Drafted (ground : Ground) (pending : Pending) (draft : CallDraft) : Prop where
  assigns : Assigns ground pending draft.assigns
  args : Words ground pending draft.args
  redirects : Redirects ground pending draft.redirects

/-- A declaration that has been read so far. -/
structure DeclarationDraft.Drafted (ground : Ground) (pending : Pending)
    (draft : DeclarationDraft) : Prop where
  opts : Words ground pending draft.opts
  assigns : Assigns ground pending draft.assigns
  redirects : Redirects ground pending draft.redirects

/-- An evaluation that has been read so far. -/
structure EvaluationDraft.Drafted (ground : Ground) (pending : Pending) (draft : EvaluationDraft) :
    Prop where
  exprs : Words ground pending draft.exprs
  redirects : Redirects ground pending draft.redirects

omit yielding in
theorem DeclarationDraft.Drafted.add {draft : DeclarationDraft} {word : Word}
    (drafted : draft.Drafted ground pending) (read : (Node.word word).Drafted ground pending ∧
      word.parts ≠ []) :
    (draft.add word).Drafted ground pending := by
  have option : DeclarationDraft.Drafted ground pending { draft with opts := word :: draft.opts } :=
    ⟨List.forall_mem_cons.mpr ⟨read, drafted.opts⟩, drafted.assigns, drafted.redirects⟩
  unfold DeclarationDraft.add
  split
  · split
    · refine ⟨drafted.opts, List.forall_mem_cons.mpr ⟨?_, drafted.assigns⟩, drafted.redirects⟩
      exact .assign (read.1.placed nofun) ⟨fun _ => ⟨rfl, rfl⟩, .inl nofun⟩ (fun _ _ => trivial)
        nofun nofun
    · exact option
  · exact option

/-- One round of reading redirections or something else. -/
theorem declarationRound_yields :
    YieldsRounds ground (fun stage => DeclarationDraft.Drafted ground stage.inside)
      (declarationRound inner)
      fun stage => DeclarationDraft.Drafted ground stage.inside := by
  intro draft
  refine .skipBlanks (.redirectAt fun text _ => ?_)
  cases found : RedirectHead.starting? text with
  | some head =>
      refine .bind (redirect_yields yielding found).any fun it => .returns fun stage known => ?_
      exact ⟨known.1.opts, known.1.assigns, List.forall_mem_cons.mpr ⟨known.2, known.1.redirects⟩⟩
  | none =>
      refine .current fun _ same => .ite (fun _ => .returns fun _ => id) fun _ => .restAt ?_
      split
      next head found =>
        refine .bind (assign_yields yielding found).any fun it => .returns fun stage known => ?_
        exact ⟨known.1.opts, List.forall_mem_cons.mpr ⟨known.2, known.1.assigns⟩, known.1.redirects⟩
      next =>
        exact .bind (word_yields yielding).anywhere fun word => .returns fun stage known =>
          known.1.add known.2

theorem evaluationRound_yields :
    YieldsRounds ground (fun stage => EvaluationDraft.Drafted ground stage.inside)
      (evaluationRound inner)
      fun stage => EvaluationDraft.Drafted ground stage.inside := by
  intro draft
  refine .skipBlanks (.redirectAt fun text _ => ?_)
  cases found : RedirectHead.starting? text with
  | some head =>
      refine .bind (redirect_yields yielding found).any fun it => .returns fun stage known => ?_
      exact ⟨known.1.exprs, List.forall_mem_cons.mpr ⟨known.2, known.1.redirects⟩⟩
  | none =>
      refine .current fun _ _ => .ite (fun _ => .returns fun _ => id) fun _ => ?_
      refine .bind (word_yields yielding).anywhere fun word => .returns fun stage known => ?_
      exact ⟨List.forall_mem_cons.mpr ⟨known.2, known.1.exprs⟩, known.1.redirects⟩

/-- A statement that consists of one command. -/
def Stmt.Single (stmt : Stmt) : Prop :=
  stmt.background = false ∧ stmt.connective? = none

/-- A reading of a statement. -/
abbrev YieldsStmt (ground : Ground) (given : Stage → Prop) (kind : List Char → Prop)
    (fits : Stmt → Prop) (reading : Reading Stmt) : Prop :=
  Yields ground given kind reading (fun stmt _ => fits stmt)
    fun stage stmt => (Node.stmt stmt).Drafted ground stage.pending

omit yielding in
/-- A complete simple command, of words and redirections that have been read. -/
theorem ofDraft_yields {command : Command} (placed : ground.Holds pos)
    (single : command.connective? = none)
    (commanded : ∀ stage, given stage → (Node.command command).Drafted ground stage.pending)
    (redirected : ∀ stage, given stage → Redirects ground stage.inside redirects) :
    YieldsStmt ground given kind Stmt.Single (pure (.ofDraft pos (some command) redirects)) := by
  refine .pure (fun _ _ => ⟨rfl, single⟩) fun stage known =>
    ofDraft_drafted placed (.inl nofun) ?_ fun it member => ?_
  · rintro _ ⟨⟩
    exact commanded stage known
  · exact (redirected stage known it member).imp stage.inside_le_pending

omit yielding in
/-- The assignments of a command. -/
theorem Field.Drafted.assigns {stage : Stage} {slot : Slot} {assigns : List Assign}
    (drafted : Assigns ground stage.inside assigns) :
    ∀ field ∈ Field.many slot .assign assigns.reverse, Field.Drafted ground stage.pending false
      field :=
  Field.forall_many.mpr fun it member =>
    .plain ((drafted it (List.mem_reverse.mp member)).imp stage.inside_le_pending) nofun

theorem declaration_yields {keyword : Word} {declarator : Declarator} (placed : ground.Holds pos)
    (known : ∀ stage, given stage → (Node.word keyword).Drafted ground stage.inside ∧
      Redirects ground stage.inside redirects) :
    YieldsStmt ground given kind Stmt.Single
      (declaration inner pos redirects keyword declarator) := by
  refine .bind (.loop (declarationRound_yields yielding)
    fun stage holds => by exact ⟨nofun, nofun, (known stage holds).2⟩)
    fun draft => ofDraft_yields placed rfl (fun stage held => ?_) fun _ held => held.2.redirects
  exact .command ((known stage held.1).1.placed nofun) trivial (List.forall_mem_append.mpr
    ⟨Field.Drafted.words held.2.opts.reverse, Field.Drafted.assigns held.2.assigns⟩)

theorem evaluation_yields {keyword : Word} (placed : ground.Holds pos)
    (known : ∀ stage, given stage → (Node.word keyword).Drafted ground stage.inside ∧
      Redirects ground stage.inside redirects) :
    YieldsStmt ground given kind Stmt.Single (evaluation inner pos redirects keyword) := by
  refine .bind (.loop (evaluationRound_yields yielding)
    fun stage holds => by exact ⟨nofun, (known stage holds).2⟩)
    fun draft => ofDraft_yields placed rfl (fun stage held => ?_) fun _ held => held.2.redirects
  exact .command ((known stage held.1).1.placed nofun) trivial
    (Field.Drafted.words held.2.exprs.reverse)

/-- A reading of a command that does not join others. -/
abbrev YieldsCommand (ground : Ground) (given : Stage → Prop) (kind : List Char → Prop)
    (reading : Reading Command) : Prop :=
  Yields ground given kind reading (fun command _ => command.connective? = none)
    fun stage command => (Node.command command).Drafted ground stage.pending

omit yielding in
theorem emptyParentheses_yields : YieldsAll ground emptyParentheses fun _ _ => True :=
  .skipAny 1 (.skipBlanks (.current fun _ _ => .ite
    (fun _ => .skip 1 (.idle)) fun _ => .fail _))

/-- The body of a function, behind its head. -/
theorem functionBody_yields {name : String} {keyword : Bool} (placed : ∀ stage, given stage →
    ground.Holds pos) :
    YieldsCommand ground given kind (do return .function pos name (← inner.command) keyword) := by
  refine .bind (yielding.command.anywhere)
    fun body => .pin fun _ front => .pure (fun _ _ => rfl) fun stage known => ?_
  exact .command (placed stage known.1) front (Field.forall_one.mpr (.plain known.2 nofun))

theorem functionAfterName_yields {name : String} (placed : ∀ stage, given stage →
    ground.Holds pos) :
    YieldsCommand ground given kind (functionAfterName inner pos name) :=
  .bind emptyParentheses_yields.anywhere fun _ =>
    .bind (linebreaks_yields yielding).anywhere fun _ =>
    functionBody_yields yielding fun stage known => placed stage known.1.1

omit yielding in
theorem finishCall_yields (placed : ground.Holds pos) :
    YieldsStmt ground (fun stage => draft.Drafted ground stage.inside) kind Stmt.Single
      (finishCall pos draft) := by
  refine .ite (fun none => .ite (fun _ => .fail _) fun some => ?_) fun some =>
    ofDraft_yields placed rfl (fun stage known => ?_) fun _ known => known.redirects
  · refine .pure (fun _ _ => ⟨rfl, rfl⟩) fun stage known =>
      ofDraft_drafted placed (.inr (by simpa using some)) nofun ?_
    exact fun it member => (known.redirects it member).imp stage.inside_le_pending
  · refine .command placed ?_ (List.forall_mem_append.mpr
      ⟨Field.Drafted.assigns known.assigns, Field.Drafted.words known.args.reverse⟩)
    have either : ¬(draft.args = [] ∧ draft.assigns = []) := by simpa using some
    by_cases assigns : draft.assigns = []
    · exact .inr (by simpa using fun args => either ⟨args, assigns⟩)
    · exact .inl (by simpa using assigns)

theorem callFunction_yields (placed : ground.Holds pos) :
    YieldsStmt ground (fun stage => draft.Drafted ground stage.inside) kind Stmt.Single
      (callFunction inner pos draft) := by
  unfold callFunction
  split
  next name redirects =>
    split
    next text =>
      refine .bind (functionAfterName_yields yielding fun stage known => ?_) fun function =>
        .pin fun _ single => ?_
      · exact (known.args name (by simp)).1.placed nofun
      · exact ofDraft_yields placed single (fun _ known => known.2) fun _ known => known.1.redirects
    next => exact .fail _
  next => exact .fail _

/-- A round of reading a simple command. -/
abbrev YieldsTurn (ground : Ground) (given : Stage → Prop) (kind : List Char → Prop)
    (reading : Reading (Round CallDraft Stmt)) : Prop :=
  Yields ground given kind reading (fun turn _ => turn.elim (fun _ => True) Stmt.Single)
    fun stage turn =>
    turn.elim (CallDraft.Drafted ground stage.inside) fun stmt =>
      (Node.stmt stmt).Drafted ground stage.pending

omit yielding in
theorem done_yields {reading : Reading Stmt}
    (yields : YieldsStmt ground given kind Stmt.Single reading) :
    YieldsTurn ground given kind (do return .done (← reading)) :=
  yields.bind fun _ => .pure (fun _ single => single) fun _ known => known.2

theorem callWord_yields (placed : ground.Holds pos) :
    YieldsTurn ground (fun stage => draft.Drafted ground stage.inside)
      kind (callWord inner pos draft) := by
  refine .bind (word_yields yielding).anywhere fun word => ?_
  simp only
  split
  next =>
    exact done_yields (declaration_yields yielding placed fun stage known =>
      ⟨known.2.1, known.1.redirects⟩)
  next =>
    refine .ite (fun _ => done_yields (evaluation_yields yielding placed fun stage known =>
      ⟨known.2.1, known.1.redirects⟩)) fun _ => .pure (fun _ _ => trivial) fun stage known => ?_
    exact ⟨known.1.assigns, List.forall_mem_cons.mpr ⟨known.2, known.1.args⟩, known.1.redirects⟩

theorem callRound_yields (placed : ground.Holds pos) (draft : CallDraft) :
    YieldsTurn ground (fun stage => draft.Drafted ground stage.inside) (fun _ => True)
      (callRound inner pos draft) := by
  refine .skipBlanks (.redirectAt fun text _ => ?_)
  cases found : RedirectHead.starting? text with
  | some head =>
      refine .bind (redirect_yields yielding found).any fun it =>
        .pure (fun _ _ => trivial) fun stage known => ?_
      exact ⟨known.1.assigns, known.1.args, List.forall_mem_cons.mpr ⟨known.2, known.1.redirects⟩⟩
  | none =>
      refine .current fun text same => ?_
      subst same
      split
      · exact done_yields (finishCall_yields placed)
      · refine .ite (fun _ => done_yields (finishCall_yields placed)) fun _ =>
          .ite (fun _ => done_yields (callFunction_yields yielding placed)) fun _ =>
          .ite (fun _ => .restAt ?_) fun _ => callWord_yields yielding placed
        split
        next head assigned =>
          refine .bind (assign_yields yielding assigned).any fun it =>
            .pure (fun _ _ => trivial) fun stage known => ?_
          exact ⟨List.forall_mem_cons.mpr ⟨known.2, known.1.assigns⟩, known.1.args,
            known.1.redirects⟩
        next => exact callWord_yields yielding placed

theorem call_yields (placed : ground.Holds pos) :
    YieldsStmt ground (fun _ => True) kind Stmt.Single (call inner pos) :=
  .iterate (callRound_yields yielding placed) (fun _ _ => by exact ⟨nofun, nofun, nofun⟩)
  fun _ _ => trivial

/-! ## Compound commands -/

omit yielding in
theorem expectWord_yields (word : String) : YieldsAll ground (expectWord word) fun _ _ => True :=
  .skipBlanks (.cursor fun _ _ => .ite (fun _ => .skip _ (.idle))
    fun _ => .fail _)

/-- Statements that have been read. -/
abbrev Items (ground : Ground) (pending : Pending) (items : List Item) : Prop :=
  ∀ item ∈ items, item.node.Drafted ground pending

theorem block_yields : YieldsCommand ground (fun _ => True) kind (block inner) := by
  refine .here fun pos _ _ lies => .skip 1 (.bind (yielding.statements _).anywhere fun items =>
    .bind (expectWord_yields _).anywhere fun _ => .pure (fun _ _ => rfl) fun stage known => ?_)
  exact .command lies.holds trivial (Field.Drafted.items known.1.2)

theorem subshell_yields : YieldsCommand ground (fun _ => True) kind (subshell inner) := by
  refine .here fun pos _ _ lies =>
    .skip 1 (.bind (yielding.statements _).anywhere fun items => .current fun _ _ =>
    .ite (fun _ => .skip 1 (.pure (fun _ _ => rfl) fun stage known => ?_)) fun _ => .fail _)
  exact .command lies.holds trivial (Field.Drafted.items known.2)

theorem alternative_yields : YieldsAll ground (alternative inner) fun stage items =>
    Items ground stage.pending items := by
  refine .skipBlanks (.here fun pos _ _ lies => .wordAt fun found => ?_)
  split
  · refine .bind yielding.furtherConditional.anywhere fun command => .returns fun stage known => ?_
    refine List.forall_mem_singleton.mpr (ofDraft_drafted lies.holds (.inl nofun) ?_ nofun)
    rintro _ ⟨⟩
    exact known.2
  · exact .skip 4 (.bind (yielding.statements _).anywhere fun _ =>
      .bind (expectWord_yields _).anywhere fun _ =>
      .returns fun _ known => known.1.2)
  · exact .skip 2 (.returns fun _ _ => nofun)
  · exact .fail _

theorem conditional_yields : YieldsCommand ground (fun _ => True) (fun _ => True)
    (conditional inner keyword) := by
  refine .here fun pos _ _ lies => .skip _ (.bind (yielding.statements _).anywhere fun condition =>
    .bind (expectWord_yields _).anywhere fun _ =>
      .bind (yielding.statements _).anywhere fun consequence =>
      .bind (alternative_yields yielding).anywhere fun alternative =>
        .pure (fun _ _ => rfl) fun stage known => ?_)
  obtain ⟨⟨⟨⟨-, condition⟩, -⟩, consequence⟩, alternative⟩ := known
  exact .command lies.holds trivial (List.forall_mem_append.mpr ⟨List.forall_mem_append.mpr
    ⟨Field.Drafted.items condition, Field.Drafted.items consequence⟩,
    Field.Drafted.items alternative⟩)

theorem loopBody_yields : YieldsAll ground (loopBody inner) fun stage items =>
    Items ground stage.pending items :=
  .bind (linebreaks_yields yielding).anywhere fun _ => .bind (expectWord_yields _).anywhere fun _ =>
    .bind (yielding.statements _).anywhere fun _ => .bind (expectWord_yields _).anywhere fun _ =>
      .returns fun _ known => known.1.2

theorem loop_yields : YieldsCommand ground (fun _ => True) (fun _ => True)
    (loop inner keyword) := by
  refine .here fun pos _ _ lies => .skip _ (.bind (yielding.statements _).anywhere fun condition =>
    .bind (loopBody_yields yielding).anywhere fun body =>
      .pure (fun _ _ => rfl) fun stage known => ?_)
  exact .command lies.holds trivial (List.forall_mem_append.mpr
    ⟨Field.Drafted.items known.1.2, Field.Drafted.items known.2⟩)

theorem rangeRound_yields : YieldsRounds ground (fun stage => Words ground stage.inside)
    (rangeRound inner)
    fun stage => Words ground stage.pending := by
  intro items
  refine .skipBlanks (.current fun text _ => .ite (fun _ => .returns fun _ known => known.reverse)
    fun _ => .bind (word_yields yielding).anywhere fun word => .returns fun stage known => ?_)
  exact List.forall_mem_cons.mpr ⟨known.2, known.1⟩

omit yielding in
theorem rangeEnd_yields : YieldsAll ground rangeEnd fun _ _ => True :=
  .skipBlanks (skipIf_yields _)

omit yielding in
theorem rangeName_yields :
    YieldsFreely ground (· = text) (rangeName keyword)
      (fun name _ => ∃ rest, text = name.toList ++ rest) fun _ _ => True := by
  refine .restAt (.skip _ (.cursor fun _ _ => .ite (fun _ => .fail _) fun _ =>
    .pure (fun _ _ => ?_) fun _ _ => trivial))
  rw [String.toList_ofList]
  exact ⟨_, nameRun_append_drop text⟩

theorem rangeWords_yields : YieldsAll ground (rangeWords inner)
    fun stage words => Words ground stage.pending (words.getD []) := by
  exact .cursor fun _ _ =>
    .ite (fun _ => .skip 2 (.map (.loop (rangeRound_yields yielding) fun _ _ => by nofun)
    (fun _ _ => id) fun _ _ => id)) fun _ =>
    .returns fun _ _ => nofun

theorem wordRange_yields : YieldsAll ground (wordRange inner keyword)
    fun stage range => (Node.range range).Drafted ground stage.pending := by
  refine .here fun pos text _ lies => .bind (rangeName_yields keyword) fun name =>
    .pin fun _ ⟨rest, written⟩ => ?_
  refine .bind (linebreaks_yields yielding).anywhere fun _ =>
    .bind (rangeWords_yields yielding).anywhere fun words =>
    .bind rangeEnd_yields.anywhere fun _ => .returns fun stage known => ?_
  rw [written] at lies
  exact .range lies.holds lies.occurs (Field.Drafted.words known.1.2)

theorem arithmeticRange_yields : YieldsFreely ground (· = '(' :: '(' :: text)
    (arithmeticRange inner) (fun _ _ => True) fun stage range =>
      (Node.range range).Drafted ground stage.pending := by
  refine .hereAt fun pos lies => .skip 2 (.bind
    (arithmeticParts_yields yielding (by decide) (by rintro _ ⟨⟩; decide)).anywhere fun parts =>
      .bind rangeEnd_yields.anywhere fun _ => .returns fun stage known => ?_)
  have inside : ground.Lies (pos.along ['(', '(']) text := Ground.Lies.behind lies
  rw [Position.along_plain (by decide)] at inside
  have word : (Node.word ⟨pos.right 2, parts⟩).Drafted ground stage.inside :=
    .word inside.holds known.1.2
  exact .range lies.holds (fun _ _ => trivial)
    (Field.forall_one.mpr (.expr (word.imp stage.inside_le_pending)))

theorem range_yields : YieldsAll ground (range inner keyword)
    fun stage range => (Node.range range).Drafted ground stage.pending := by
  refine .cursor fun cursor _ => .ite (fun opens => ?_) fun _ =>
    (wordRange_yields yielding keyword).anywhere
  obtain ⟨rest, written⟩ := Cursor.rest_of_startsWith (Bool.and_eq_true_iff.mp opens).2
  rw [written]
  exact arithmeticRange_yields yielding

theorem iteration_yields : YieldsCommand ground (fun _ => True) (fun _ => True)
    (iteration inner keyword) := by
  refine .here fun pos _ _ lies =>
    .skip _ (.skipBlanks (.bind (range_yields yielding keyword).anywhere fun range =>
    .bind (loopBody_yields yielding).anywhere fun body =>
      .pure (fun _ _ => rfl) fun stage known => ?_))
  exact .command lies.holds trivial (List.forall_mem_append.mpr
    ⟨Field.forall_one.mpr (.plain known.1.2 nofun), Field.Drafted.items known.2⟩)

theorem patternRound_yields : YieldsRounds ground (fun stage => Words ground stage.inside)
    (patternRound inner)
    fun stage => Words ground stage.pending := by
  intro patterns
  refine .skipBlanks (.bind (word_yields yielding).anywhere fun word =>
    .skipBlanks (.current fun _ _ =>
    .ite (fun _ => .skip 1 (.returns fun stage known => ?_)) fun _ =>
      .returns fun stage known => Words.reverse ?_))
  · exact List.forall_mem_cons.mpr ⟨known.2, known.1⟩
  · exact List.forall_mem_cons.mpr ⟨known.2, known.1⟩

omit yielding in
theorem caseEnd_yields : YieldsAll ground caseEnd fun _ _ => True := by
  refine .rest fun text _ => ?_
  cases CaseEnd.of? text with
  | some ending => exact .skip _ (.idle)
  | none => exact .idle

theorem caseItem_yields : YieldsAll ground (caseItem inner)
    fun stage item => (Node.caseItem item).Drafted ground stage.pending := by
  refine .here fun pos _ _ lies => .bind (skipIf_yields _).anywhere fun _ => .bind
    (.loop (patternRound_yields yielding) fun _ _ => by nofun) fun patterns => .current fun _ _ =>
      .ite (fun _ => .skip 1 (.bind (yielding.statements _).anywhere fun body =>
        .bind caseEnd_yields.anywhere fun _ => .returns fun stage known => ?_)) fun _ => .fail _
  exact .caseItem lies.holds known.1.1.2 known.1.2

theorem caseRound_yields :
    YieldsRounds ground (fun stage items => ∀ it ∈ items, (Node.caseItem it).Drafted
      ground stage.pending)
      (caseRound inner) fun stage items => ∀ it ∈ items, (Node.caseItem it).Drafted ground
      stage.pending := by
  intro items
  refine .bind (linebreaks_yields yielding).anywhere fun _ => .cursor fun _ _ =>
    .ite (fun _ => .skip 4
    (.returns fun stage known it member => ?_)) fun _ => .cursor fun _ _ => .ite (fun _ => .fail _)
      fun _ => .bind (caseItem_yields yielding).anywhere fun item => .returns fun stage known => ?_
  · exact known.1 it (List.mem_reverse.mp member)
  · exact List.forall_mem_cons.mpr ⟨known.2, known.1.1⟩

theorem case_yields : YieldsCommand ground (fun _ => True) (fun _ => True)
    (Reading.case inner) := by
  refine .here fun pos _ _ lies =>
    .skip 4 (.skipBlanks (.bind (word_yields yielding).anywhere fun subject =>
    .bind (linebreaks_yields yielding).anywhere fun _ =>
      .bind (expectWord_yields _).anywhere fun _ =>
      .bind (.loop (caseRound_yields yielding) fun _ _ => by nofun) fun items =>
        .pure (fun _ _ => rfl) fun stage known => ?_))
  obtain ⟨⟨⟨⟨-, subject⟩, -⟩, -⟩, items⟩ := known
  refine .command lies.holds trivial (List.forall_mem_append.mpr ⟨Field.forall_one.mpr ?_,
    Field.forall_many.mpr fun it member => .plain (items it member) nofun⟩)
  exact .word (subject.1.imp stage.inside_le_pending) subject.2

theorem keywordFunction_yields : YieldsCommand ground (fun _ => True) (fun _ => True)
    (keywordFunction inner) := by
  refine .here fun pos _ _ lies =>
    .skip 8 (.skipBlanks (.bind (word_yields yielding).anywhere fun word => ?_))
  cases word.literal? with
  | none => exact .fail _
  | some name =>
      have parentheses : YieldsAll ground optionalParentheses fun _ _ => True :=
        .current fun _ _ => .ite (fun _ => emptyParentheses_yields.anywhere) fun _ =>
          .idle
      exact .skipBlanks (.bind parentheses.anywhere fun _ =>
        .bind (linebreaks_yields yielding).anywhere fun _ =>
        functionBody_yields yielding fun _ _ => lies.holds)

omit yielding in
/-- An operator of a test is a word of its own. -/
theorem operator_drafted {operator : List Char}
    (found : testOperator? text = some operator) (lies : ground.Lies pos text) :
    (Node.word ⟨pos, [.literal pos (String.ofList operator)]⟩).Drafted ground pending := by
  obtain ⟨rest, rfl⟩ := front_of_find? id found
  have filled : operator ≠ [] := by
    have listed := List.mem_of_find?_eq_some found
    rintro rfl
    exact absurd listed (by decide)
  refine .word lies.holds ⟨List.isChain_singleton _, ?_, fun _ _ =>
    ⟨fun c continued => ?_, trivial⟩, ?_⟩
  · simpa [Filled, Part.literal?] using filled
  · exact absurd continued.2 (by simp [Part.plain?])
  · refine List.forall_mem_singleton.mpr (.part lies.holds (fun source known => ?_)
      trivial rfl (List.forall_mem_nil _))
    refine ⟨operator, lies.occurs source known, ?_⟩
    rw [String.toList_ofList]
    exact .refl operator

theorem testRound_yields :
    YieldsRounds ground (fun stage => Words ground stage.inside) (testRound inner)
    fun stage => Words ground stage.pending := by
  intro words
  refine .bind (linebreaks_yields yielding).anywhere fun _ => .cursor fun _ _ =>
    .ite (fun _ => .skip 2
    (.returns fun _ known => known.1.reverse)) fun _ => .cursor fun _ _ => .ite (fun _ => .fail _)
      fun _ => .rest fun text _ => ?_
  cases found : testOperator? text with
  | some operator =>
      refine .hereAt fun pos lies => .skip _ (.returns fun stage known => ?_)
      exact List.forall_mem_cons.mpr ⟨⟨operator_drafted found lies, List.cons_ne_nil _ _⟩, known.1⟩
  | none =>
      refine .bind (wordUpTo_yields yielding (by decide)).anywhere fun word => .returns
        fun stage known => ?_
      exact List.forall_mem_cons.mpr ⟨known.2, known.1.1⟩

theorem test_yields : YieldsCommand ground (fun _ => True) (fun _ => True) (test inner) := by
  refine .here fun pos _ _ lies =>
    .skip 2 (.bind (.loop (testRound_yields yielding) fun _ _ => by nofun) fun words =>
    .pure (fun _ _ => rfl) fun stage known => ?_)
  exact .command lies.holds trivial (Field.Drafted.words known.2)

theorem arithmetic_yields : YieldsCommand ground (fun _ => True) (fun _ => True)
    (arithmetic inner) := by
  refine .here fun pos _ _ lies => .skip 2 (.here fun start _ _ inside => .bind
    (arithmeticParts_yields yielding (by decide) (by rintro _ ⟨⟩; decide)).anywhere fun parts =>
      .pure (fun _ _ => rfl)
      fun stage known => ?_)
  have word : (Node.word ⟨start, parts⟩).Drafted ground stage.inside := .word inside.holds known.2
  exact .command lies.holds trivial
    (Field.forall_one.mpr (.expr (word.imp stage.inside_le_pending)))

theorem compound?_yields : YieldsFreely ground (fun _ => True) (compound? inner)
    (fun command _ => ∀ it ∈ command, it.connective? = none)
    fun stage command => ∀ it ∈ command, (Node.command it).Drafted ground stage.pending := by
  refine .cursor fun cursor _ => ?_
  have present {reading : Reading Command}
    (yields : YieldsCommand ground (fun _ => True) (fun _ => True) reading) :
      YieldsFreely ground (· = cursor.rest) (some <$> reading)
        (fun command _ => ∀ it ∈ command, it.connective? = none)
        fun stage command => ∀ it ∈ command, (Node.command it).Drafted ground stage.pending := by
    refine (yields.anywhere).map
      (fun command _ single => ?_) fun stage command drafted => ?_
    · rintro _ ⟨⟩
      exact single
    · rintro _ ⟨⟩
      exact drafted
  refine .ite (fun _ => present (arithmetic_yields yielding)) fun _ =>
    .ite (fun _ => present (subshell_yields yielding)) fun _ => ?_
  split
  · exact present (block_yields yielding)
  · exact present (conditional_yields yielding _)
  · exact present (loop_yields yielding _)
  · exact present (loop_yields yielding _)
  · exact present (iteration_yields yielding _)
  · exact present (iteration_yields yielding _)
  · exact present (case_yields yielding)
  · exact present (keywordFunction_yields yielding)
  · exact present (test_yields yielding)
  · exact .pure (fun _ _ => nofun) fun _ _ => nofun

theorem redirectRound_yields : YieldsRounds ground (fun stage => Redirects ground stage.inside)
    (redirectRound inner)
    fun stage => Redirects ground stage.inside := by
  intro redirects
  refine .skipBlanks (.redirectAt fun text _ => ?_)
  cases found : RedirectHead.starting? text with
  | some head =>
      refine .bind (redirect_yields yielding found).any fun it => .returns fun stage known => ?_
      exact List.forall_mem_cons.mpr ⟨known.2, known.1⟩
  | none => exact .returns fun _ => id

theorem command_yields : YieldsStmt ground (fun _ => True) (fun _ => True) Stmt.Single
    (command inner) := by
  refine .skipBlanks (.here fun pos _ _ lies => .bind ((compound?_yields yielding).anywhere)
    fun command => ?_)
  cases command with
  | none => exact (call_yields yielding lies.holds).any
  | some command =>
      refine .pin fun _ single => .bind (.loop (redirectRound_yields yielding) fun _ _ => by nofun)
        fun redirects => ?_
      exact ofDraft_yields lies.holds (single command rfl) (fun _ known => known.1.2 command rfl)
        fun _ known => known.2

/-! ## Statements -/

/-- A statement that no logical operator joins. -/
def Stmt.Piped (stmt : Stmt) : Prop :=
  stmt.background = false ∧ ∀ it ∈ stmt.connective?, it.isLogical = false

/-- A round of joining statements to those in front of them. -/
abbrev YieldsJoined (ground : Ground) (fits : Stmt → Prop) (left : Stmt)
    (reading : Reading (Round Stmt Stmt)) :
    Prop :=
  Yields ground (fun stage => (Node.stmt left).Drafted ground stage.pending)
    (fun _ => fits left) reading
    (fun turn _ => turn.elim fits fits) fun stage turn =>
      turn.elim (fun stmt => (Node.stmt stmt).Drafted ground stage.pending)
        fun stmt => (Node.stmt stmt).Drafted ground stage.pending

theorem join_yields {left : Stmt} {right : Reading Stmt} {fits single : Stmt → Prop}
    (yields : YieldsStmt ground (fun _ => True) (fun _ => True) single right)
    (regular : ∀ stmt, fits left → single stmt →
      (Command.binary left.pos connective left stmt).Regular)
    (keeps : ∀ stmt : Stmt, stmt.background = false → stmt.connective? = some connective →
      fits stmt) :
    YieldsJoined ground fits left (join inner left connective right) := by
  refine .pin fun _ fitting => .skip _ (.bind (linebreaks_yields yielding).anywhere fun _ =>
    .bind yields.anywhere fun stmt => .pin fun _ holds =>
      .pure (fun _ _ => keeps _ rfl rfl) fun stage known => ?_)
  have placed := known.1.1.placed nofun
  refine ofDraft_drafted placed (.inl nofun) ?_ nofun
  rintro _ ⟨⟩
  exact .command placed (regular stmt fitting holds) (List.forall_mem_append.mpr
    ⟨Field.forall_one.mpr (.plain known.1.1 nofun), Field.forall_one.mpr (.plain known.2 nofun)⟩)

omit yielding in
theorem isLogical_of_pipe? (found : Connective.pipe? text = some connective) :
    connective.isLogical = false:= by
  unfold Connective.pipe? at found
  split at found
  · cases found
  · have pipes : ∀ it ∈ [Connective.pipeAll, .pipe], it.isLogical = false := by decide
    exact pipes connective (List.mem_of_find?_eq_some found)

omit yielding in
theorem isLogical_of_logical? (found : Connective.logical? text = some connective) :
    connective.isLogical = true:= by
  have logical : ∀ it ∈ [Connective.both, .either], it.isLogical = true := by decide
  exact logical connective (List.mem_of_find?_eq_some found)

theorem pipelineRound_yields (left : Stmt) :
    YieldsJoined ground Stmt.Piped left (pipelineRound inner left) := by
  refine .pin fun _ fitting => .skipBlanks (.rest fun text _ => ?_)
  split
  next connective found =>
    have pipe := isLogical_of_pipe? found
    refine (join_yields yielding (command_yields yielding) (fun stmt piped single => ?_)
      fun stmt front joined =>
      ⟨front, ?_⟩).imp (fun _ => id) (fun _ _ => fitting) (fun _ _ => id) fun _ _ _ => id
    · refine ⟨piped.1, single.1, ?_⟩
      rw [pipe]
      exact ⟨single.2, piped.2⟩
    · rw [joined]
      rintro _ ⟨⟩
      exact pipe
  next => exact .pure (fun _ _ => fitting) fun _ => id

theorem pipes_yields : YieldsStmt ground (fun _ => True) (fun _ => True) Stmt.Piped
    (pipes inner) := by
  refine (command_yields yielding).bind fun left => ?_
  refine .iterate (pipelineRound_yields yielding) (fun _ known => known.2) fun _ single => ?_
  refine ⟨single.1, ?_⟩
  rw [single.2]
  exact nofun

theorem pipeline_yields : YieldsStmt ground (fun _ => True) (fun _ => True) Stmt.Piped
    (pipeline inner) := by
  refine .skipBlanks (.here fun pos _ _ lies => .rest fun _ _ => .ite (fun _ => .skip 1 ?_) fun _ =>
    (pipes_yields yielding).anywhere)
  refine .bind ((pipes_yields yielding).anywhere)
    fun stmt => .pure (fun _ piped => piped) fun stage known => ?_
  exact known.2.restated lies.holds true stmt.background

theorem logicRound_yields (left : Stmt) :
    YieldsJoined ground (·.background = false) left (logicRound inner left) := by
  refine .pin fun _ fitting => .skipBlanks (.rest fun text _ => ?_)
  split
  next connective found =>
    have logical := isLogical_of_logical? found
    refine (join_yields yielding (pipeline_yields yielding) (fun stmt front piped => ?_)
      fun _ front _ => front).imp
      (fun _ => id) (fun _ _ => fitting) (fun _ _ => id) fun _ _ _ => id
    refine ⟨front, piped.1, ?_⟩
    rw [logical]
    exact piped.2
  next => exact .pure (fun _ _ => fitting) fun _ => id

theorem logic_yields : YieldsAll ground (logic inner) fun stage stmt =>
    (Node.stmt stmt).Drafted ground stage.pending := by
  refine (pipeline_yields yielding).bind fun left => ?_
  exact (Yields.iterate (logicRound_yields yielding) (fun _ known => known.2) fun _ piped =>
    piped.1).stopless

omit yielding in
theorem takeComments_yields (items : List Item) :
    Yields ground (fun stage => Items ground stage.pending items) kind (takeComments items)
      (fun _ => kind)
      fun stage items => Items ground stage.pending items := by
  intro state redirects sound start
  unfold takeComments
  rw [get_bind, modify_bind]
  refine ⟨redirects, .refl _, ⟨sound.lies, nofun, sound.awaited, sound.bodies, sound.earlier,
    sound.single⟩, start,
    fun later leads known => List.forall_mem_append.mpr ⟨fun item member => ?_, known⟩⟩
  obtain ⟨it, inside, rfl⟩ := List.mem_map.mp (List.mem_reverse.mp member)
  exact .comment ((sound.comments it inside).imp leads.pending)

omit yielding in
theorem statementEnd_yields : YieldsAll ground statementEnd fun _ _ => True := by
  refine .skipBlanks (.rest fun text _ => .ite (fun _ => .idle) fun _ =>
    .current fun text _ => ?_)
  split
  any_goals exact .idle
  any_goals exact .skip 1 (.idle)
  exact .wordAt fun _ => .ite (fun _ => .fail _) fun _ => .idle

theorem statement_yields (items : List Item) :
    Yields ground (fun stage => Items ground stage.pending items) (fun _ => True)
      (statement inner items)
      (fun _ _ => True) fun stage items => Items ground stage.pending items := by
  refine .bind (logic_yields yielding).anywhere fun stmt =>
    .bind ((takeComments_yields []).imp (fun _ _ => nofun)
    (fun _ => id) (fun _ _ => id) fun _ _ _ => id) fun comments =>
      .bind statementEnd_yields.anywhere fun background =>
      .returns fun stage known => ?_
  obtain ⟨⟨⟨items, stmt⟩, comments⟩, -⟩ := known
  exact List.forall_mem_append.mpr ⟨comments, List.forall_mem_cons.mpr
    ⟨stmt.restated (stmt.placed nofun) _ background, items⟩⟩

theorem statementRound_yields (stops : List String) :
    YieldsRounds ground (fun stage => Items ground stage.pending) (statementRound inner stops)
      fun stage => Items ground stage.pending := by
  intro items
  refine .skipBlanks (.bind (takeComments_yields items) fun taken => .rest fun text _ => ?_)
  have finish : Yields ground
      (fun stage => Items ground stage.pending items ∧ Items ground stage.pending taken) (· = text)
      (pure (Round.done taken.reverse)) (fun _ _ => True)
      fun stage turn => turn.elim (Items ground stage.pending) (Items ground stage.pending) :=
    .returns fun _ known item member => known.2 item (List.mem_reverse.mp member)
  refine .ite (fun _ => finish) fun _ => .current fun other same => ?_
  subst same
  split
  · exact finish
  · exact .bind (newline_yields yielding).anywhere fun _ => .returns fun _ known => known.1.2
  · next mark =>
      obtain ⟨rest, rfl⟩ := List.head?_eq_some_iff.mp mark
      refine .bind comment_yields.any fun it => .returns fun stage known => ?_
      exact List.forall_mem_cons.mpr ⟨.comment known.2, known.1.2⟩
  · exact .ite (fun _ => finish) fun _ => .fail _
  · refine .wordAt fun found => ?_
    cases found with
    | some word => exact .ite (fun _ => finish) fun _ => .fail _
    | none =>
        exact .bind ((statement_yields yielding taken).imp (fun _ known => known.2)
          (fun _ _ => trivial)
          (fun _ _ => id) fun _ _ _ => id) fun _ => .returns fun _ known => known.2

theorem statements_yields (stops : List String) : YieldsAll ground (statements inner stops)
    fun stage items => Items ground stage.pending items :=
  .loop (statementRound_yields yielding stops) fun _ _ => by nofun

/-! ## Levels -/

theorem Inner.Yielding.around : inner.around.Yielding ground where
  quiet := yielding.quiet
  statements := statements_yields yielding
  command := (command_yields yielding).imp (fun _ => id) (fun _ => id) (fun _ _ single => single.1)
    fun _ _ _ => id
  furtherConditional := (conditional_yields yielding "elif").stopless
  expansion := expansion_yields yielding

end Levels

theorem Inner.yielding_level {ground : Ground} (quiet : ∀ source ∈ ground, '\x60' ∉ source)
    (rounds depth : Nat) :
    (Inner.level rounds depth).Yielding ground := by
  induction depth with
  | zero => exact ⟨quiet, fun _ => .fail _, .fail _, .fail _, fun _ _ => .fail _⟩
  | succ depth ih => exact ih.around

end RecipeLint
