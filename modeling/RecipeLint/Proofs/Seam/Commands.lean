import RecipeLint.Proofs.Seam.Words

/-!
# Commands across a seam

Simple and compound commands in two readings side by side.
-/

namespace RecipeLint

variable {draft₁ draft₂ : CallDraft} {pos pos' : Position} {redirects₁ redirects₂ : List Redirect}
namespace Seam

open Reading

variable {seam : Seam} {inner inner' : Inner} {p : Phase} {state state' : ReadState}

/-! ## Reserved words -/

/-- Words in which no mark stands. -/
def Plain (word : String) : Prop :=
  '$' ∉ word.toList ∧ '\n' ∉ word.toList

instance (word : String) : Decidable (Plain word) :=
  inferInstanceAs (Decidable ('$' ∉ word.toList ∧ '\n' ∉ word.toList))

theorem Paired.atWord {word : String} (plain : Plain word) (paired : seam.Paired p state state') :
    state'.cursor.atWord word = state.cursor.atWord word :=
  paired.sees (@atWord_sighted word plain)

theorem Paired.wordAt {words : List String} (plain : ∀ word ∈ words, Plain word)
    (paired : seam.Paired p state state') :
    words.find? state'.cursor.atWord = words.find? state.cursor.atWord := by
  induction words with
  | nil => rfl
  | cons word words ih =>
      rw [List.find?_cons, List.find?_cons, paired.atWord (plain word (by simp)),
        ih fun other member => plain other (by simp [member])]

/-- The position behind an opening bracket. -/
theorem after_bracket (pos : Position) : pos.after '[' = pos.right 1 := rfl

theorem Alike.declarationDraft {draft₁ draft₂ : DeclarationDraft} :
    seam.Alike p draft₁ draft₂ ↔ seam.Alike p draft₁.opts draft₂.opts ∧
      seam.Alike p draft₁.assigns draft₂.assigns ∧
        seam.Alike p draft₁.redirects draft₂.redirects := by
  constructor
  · intro alike
    exact ⟨fun change admitted => congrArg (·.opts) (alike change admitted),
      fun change admitted => congrArg (·.assigns) (alike change admitted),
      fun change admitted => congrArg (·.redirects) (alike change admitted)⟩
  · rintro ⟨opts, assigns, redirects⟩ change admitted
    obtain ⟨opts₁, assigns₁, redirects₁⟩ := draft₁
    rw [DeclarationDraft.recast_mk, opts change admitted, assigns change admitted,
      redirects change admitted]

theorem Alike.evaluationDraft {draft₁ draft₂ : EvaluationDraft} :
    seam.Alike p draft₁ draft₂ ↔ seam.Alike p draft₁.exprs draft₂.exprs ∧
      seam.Alike p draft₁.redirects draft₂.redirects := by
  constructor
  · intro alike
    exact ⟨fun change admitted => congrArg (·.exprs) (alike change admitted),
      fun change admitted => congrArg (·.redirects) (alike change admitted)⟩
  · rintro ⟨exprs, redirects⟩ change admitted
    obtain ⟨exprs₁, redirects₁⟩ := draft₁
    rw [EvaluationDraft.recast_mk, exprs change admitted, redirects change admitted]

theorem Alike.callDraft :
    seam.Alike p draft₁ draft₂ ↔ seam.Alike p draft₁.assigns draft₂.assigns ∧
      seam.Alike p draft₁.args draft₂.args ∧
        seam.Alike p draft₁.redirects draft₂.redirects := by
  constructor
  · intro alike
    exact ⟨fun change admitted => congrArg (·.assigns) (alike change admitted),
      fun change admitted => congrArg (·.args) (alike change admitted),
      fun change admitted => congrArg (·.redirects) (alike change admitted)⟩
  · rintro ⟨assigns, args, redirects⟩ change admitted
    obtain ⟨assigns₁, args₁, redirects₁⟩ := draft₁
    rw [CallDraft.recast_mk, assigns change admitted, args change admitted,
      redirects change admitted]

/-- The position behind a text that stands at both cursors. -/
theorem Paired.along {text : List Char} (plain : seam.mark ∉ text)
    (starts : text.isPrefixOf state.cursor.rest = true) (paired : seam.Paired p state state') :
    seam.Alike p (state.cursor.position.along text) (state'.cursor.position.along text) := by
  obtain ⟨front, first, second, apart⟩ := paired.cursors
  obtain ⟨rest, shape⟩ := List.isPrefixOf_iff_prefix.mp starts
  have within (early : p = .before) : text.length ≤ front.length := by
    obtain ⟨⟨rest, rfl⟩, -⟩ := seam.joint_mark (apart.ahead early)
    rw [apart.rest₁] at starts
    exact length_le_of_isPrefixOf plain starts
  have taken : state.cursor.rest.take text.length = text := by rw [← shape, List.take_left]
  have taken' : state'.cursor.rest.take text.length = text := by
    by_cases early : p = .before
    · rw [apart.rest₁, List.take_append_of_le_length (within early)] at taken
      rw [apart.rest₂, List.take_append_of_le_length (within early), taken]
    · rw [paired.rest_eq early, taken]
  intro change admitted
  have reached := ((apart.advance within).along change admitted).place
  rwa [Cursor.advance_position, Cursor.advance_position, taken, taken'] at reached

theorem along_parentheses (pos : Position) : pos.along ['(', '('] = pos.right 2 := by
  simp [Position.after, Position.right, Int.add_assoc]

theorem Paired.atEnd (paired : seam.Paired p state state') :
    state'.cursor.atEnd = state.cursor.atEnd :=
  paired.sees isEmpty_sighted

section

variable (level : seam.Level inner inner') (resumes : seam.Resumes inner inner')
  (paired : seam.Paired p state state')

variable {head : AssignHead} (keyword : String)

include level resumes paired

omit level resumes in
theorem expectWord_follows {word : String} (plain : Plain word) :
    seam.Follows p (expectWord word state) (expectWord word state') := by
  unfold expectWord
  refine .skipBlanks paired fun _ paired => ?_
  simp only [cursor_bind]
  rw [paired.atWord plain]
  exact .ite (fun _ => .ended paired _ .unit) fun _ => .fail paired

/-! ## Simple commands -/

theorem redirect_follows {head : RedirectHead}
    (found : RedirectHead.starting? state.cursor.rest = some head) :
    seam.Follows p (redirect inner head state) (redirect inner' head state') := by
  have here := paired.here
  have announced {target : Word} {after : ReadState} (takes : head.op.takesBody = true)
      (run : word inner (state.skip head.text.length).skipBlanks = .ok (target, after)) :=
    resumes.announced state.cursor.position paired found takes run
  unfold redirect
  simp only [here_bind]
  refine .skip paired _ fun leads paired => .skipBlanks paired fun further paired => ?_
  refine .current paired fun _ _ => .ite (fun _ => .fail paired) fun _ => ?_
  refine (word_follows level paired).bindRun
    fun {q target₁ target₂ after after'} run last target paired => ?_
  have start := ((here.leads leads).leads further).leads last
  have alike : seam.Alike q
      (Redirect.mk state.cursor.position head.op head.fd target₁ none)
      ⟨state'.cursor.position, head.op, head.fd, target₂, none⟩ :=
    fun change admitted => by simp [start change admitted, target change admitted]
  unfold await
  refine Follows.bind (α := Unit) (.ite (fun takes => ?_) fun _ => .ok .unit paired)
    fun later _ paired => .ok (alike.leads later) paired
  refine .ok .unit { paired with awaited := ?_, awaits := ?_ }
  · refine paired.awaited.append (.cons (fun change admitted => ?_) .nil)
    rw [Awaited.recast_ofRedirect, alike change admitted]
  · intro awaited member
    rcases List.mem_append.mp member with earlier | new
    · exact paired.awaits awaited earlier
    · rw [List.mem_singleton.mp new]
      exact announced takes run

theorem elementRound_follows {elements₁ elements₂ : List Word}
    (elements : seam.Alike p elements₁ elements₂) :
    seam.Follows p (elementRound inner elements₁ state)
      (elementRound inner' elements₂ state') := by
  unfold elementRound
  refine (linebreaks_follow level resumes paired).bind
    fun {q _ _ after after'} leads _ paired => ?_
  refine .current paired fun c shape => ?_
  split
  · exact .fail paired
  · exact .ended paired 1 (.done (elements.leads leads).reverse)
  · exact (word_follows level paired).returning fun further word =>
      .again (word.cons ((elements.leads leads).leads further))

omit resumes in
theorem assignIndex_follows {front first second index rest₁ rest₂ : List Char}
    (apart : seam.Apart p front first second state.cursor state'.cursor)
    (within : p = .before → index.length + 1 ≤ front.length)
    (shape : state.cursor.rest = '[' :: (index ++ rest₁))
    (shape' : state'.cursor.rest = '[' :: (index ++ rest₂)) (indexed : head.index = some index) :
    seam.Follows p (assignIndex inner head state) (assignIndex inner' head state') := by
  have stepped : seam.Apart p (front.drop 1) first second (state.cursor.advance 1)
      (state'.cursor.advance 1) := apart.advance fun early => by have := within early; omega
  have entered : seam.Paired p.within
      (.ofText ((state.cursor.advance 1).rest.take index.length)
        (state.cursor.advance 1).position)
      (.ofText ((state.cursor.advance 1).rest.take index.length)
        (state'.cursor.advance 1).position) :=
    stepped.window fun early => by
      have := within early
      simp only [List.length_drop]
      omega
  have start : seam.Alike p (state.cursor.advance 1).position (state'.cursor.advance 1).position :=
    fun change admitted => (stepped.along change admitted).place
  simp only [Cursor.advance_position, Cursor.advance_rest, shape, shape', List.take_succ_cons,
    List.take_zero, List.drop_succ_cons, List.drop_zero, List.take_left, Position.along_cons,
    Position.along_nil, after_bracket] at entered start
  unfold assignIndex
  rw [indexed]
  simp only [here_bind]
  exact (inlineWord_follows level paired start entered).map fun _ word => word.present

omit resumes in
theorem assignHead_follows {front first second : List Char}
    (apart : seam.Apart p front first second state.cursor state'.cursor)
    (found : AssignHead.of? state.cursor.rest = some head)
    (found' : AssignHead.of? state'.cursor.rest = some head)
    (within : p = .before → head.text.length ≤ front.length) :
    seam.Follows p (assignHead inner head state) (assignHead inner' head state') := by
  have length := head.length_text
  have named : seam.Apart p (front.drop head.name.length) first second
      (state.skip head.name.length).cursor (state'.skip head.name.length).cursor :=
    apart.advance fun early => by have := within early; omega
  have paired : seam.Paired p (state.skip head.name.length) (state'.skip head.name.length) :=
    paired.withCursors (.stay p) ⟨_, _, _, named⟩
  unfold assignHead
  simp only [skip_bind]
  refine Follows.bind ?_ fun _ index paired => .ended paired _ index
  cases indexed : head.index with
  | none =>
      simp only [assignIndex, indexed]
      exact .ok .absent paired
  | some index =>
      obtain ⟨rest₁, shape₁⟩ := (AssignHead.starts_of_of? found).written
      obtain ⟨rest₂, shape₂⟩ := (AssignHead.starts_of_of? found').written
      have shape (rest : List Char) : (head.text ++ rest).drop head.name.length =
          '[' :: (index ++ (']' :: head.operator ++ rest)) := by
        simp [AssignHead.text, AssignHead.indexText, indexed]
      refine assignIndex_follows level paired named (fun early => ?_)
        (by rw [ReadState.skip_cursor, Cursor.advance_rest, shape₁, shape])
        (by rw [ReadState.skip_cursor, Cursor.advance_rest, shape₂, shape]) indexed
      have inside := within early
      rw [length, AssignHead.indexText, indexed] at inside
      simp only [Option.map_some, Option.getD_some, List.length_append, List.length_cons,
        List.length_drop] at inside ⊢
      omega

theorem assignHead_cases : seam.HeadsAgree p inner inner' state state' := by
  obtain ⟨front, first, second, apart⟩ := paired.cursors
  have seen : (AssignHead.of? state.cursor.rest = AssignHead.of? state'.cursor.rest ∧
      ∀ head, AssignHead.of? state.cursor.rest = some head → p = .before →
        head.text.length ≤ front.length) ∨
      p = .before ∧ seam.mark = '$' ∧ ∃ name inside, AssignHead.Open front name inside := by
    by_cases early : p = .before
    · obtain ⟨⟨rest, rfl⟩, rest', rfl⟩ := seam.joint_mark (apart.ahead early)
      rw [apart.rest₁, apart.rest₂]
      rcases AssignHead.of?_append_mark (apart.marks early) rest rest' with ⟨same, fits⟩ | crossing
      · exact .inl ⟨same, fun head found _ => fits head found⟩
      · exact .inr ⟨early, crossing⟩
    · exact .inl ⟨by rw [paired.rest_eq early], fun _ _ before => absurd before early⟩
  rcases seen with ⟨same, within⟩ | ⟨rfl, dollar, name, inside, opened⟩
  · cases found : AssignHead.of? state.cursor.rest with
    | none => exact .inl ⟨found, same ▸ found⟩
    | some head =>
        exact .inr ⟨head, head, found, same ▸ found, rfl, rfl,
          assignHead_follows level paired apart found (same ▸ found) (within head found)⟩
  · exact resumes.assignHead dollar paired apart opened

theorem value_follows : seam.Follows p (value inner state) (value inner' state') := by
  have ends : state'.cursor.wordEndsAt 0 = state.cursor.wordEndsAt 0 := by
    have head := paired.sees head?_sighted
    simp only [Cursor.wordEndsAt, Cursor.peek, ← List.head?_eq_getElem?, head]
  unfold value
  refine .current paired fun _ _ => .ite (fun _ => .skip paired 1 fun _ paired => ?_) fun _ => ?_
  · refine Follows.returning (level.iterate
      (fun moving elements state => (elementRound_moves moving state elements).filled)
      (fun _ elements paired => elementRound_follows level resumes paired elements) .nil paired)
      fun _ elements change admitted => by simp [elements change admitted]
  · simp only [cursor_bind, ends]
    refine .ite (fun _ => .ok (fun _ _ => rfl) paired) fun _ => ?_
    exact (word_follows level paired).returning fun _ word change admitted => by
      simp [word change admitted]

theorem assign_follows {head' : AssignHead} (name : head'.name = head.name)
    (append : head'.append = head.append)
    (heads : seam.Follows p (assignHead inner head state) (assignHead inner' head' state')) :
    seam.Follows p (assign inner head state) (assign inner' head' state') := by
  have here := paired.here
  unfold assign
  simp only [here_bind, name, append]
  refine heads.bind fun leads index paired => ?_
  exact (value_follows level resumes paired).returning fun further value change admitted => by
    simp [(here.leads leads).leads further change admitted, index.leads further change admitted,
      value change admitted]

theorem declarationRound_follows {draft₁ draft₂ : DeclarationDraft}
    (draft : seam.Alike p draft₁ draft₂) :
    seam.Follows p (declarationRound inner draft₁ state)
      (declarationRound inner' draft₂ state') := by
  unfold declarationRound
  refine .skipBlanks paired fun {q after'} leads paired => ?_
  have draft := draft.leads leads
  obtain ⟨opts, assigns, redirects⟩ := Alike.declarationDraft.mp draft
  simp only [redirectAt_bind]
  rw [paired.sees starting?_sighted]
  cases found : RedirectHead.starting? state.skipBlanks.cursor.rest with
  | some head =>
      exact (redirect_follows level resumes paired found).returning fun further redirect =>
        .again (Alike.declarationDraft.mpr
          ⟨opts.leads further, assigns.leads further, redirect.cons (redirects.leads further)⟩)
  | none =>
      refine .current paired fun _ _ => .ite (fun _ => .ok draft.done paired) fun _ => ?_
      simp only [rest_bind]
      rcases assignHead_cases level resumes paired with ⟨none₁, none₂⟩ |
        ⟨head₁, head₂, some₁, some₂, name, append, heads⟩
      · rw [none₁, none₂]
        exact (word_follows level paired).returning fun further word => .again
          fun change admitted => by
            rw [DeclarationDraft.recast_add, draft.leads further change admitted,
              word change admitted]
      · rw [some₁, some₂]
        exact (assign_follows level resumes paired name append heads).returning
          fun further assign => .again (Alike.declarationDraft.mpr
            ⟨opts.leads further, assign.cons (assigns.leads further), redirects.leads further⟩)

theorem declaration_follows {keyword₁ keyword₂ : Word} (start : seam.Alike p pos pos')
    (redirects : seam.Alike p redirects₁ redirects₂) (keyword : seam.Alike p keyword₁ keyword₂)
    (declarator : Declarator) :
    seam.Follows p (declaration inner pos redirects₁ keyword₁ declarator state)
      (declaration inner' pos' redirects₂ keyword₂ declarator state') := by
  unfold declaration
  refine Follows.returning (level.iterate
    (fun moving draft state => (declarationRound_moves moving state draft).filled)
    (fun _ draft paired => declarationRound_follows level resumes paired draft)
    (Alike.declarationDraft.mpr ⟨.nil, .nil, redirects⟩) paired)
      fun leads draft change admitted => ?_
  obtain ⟨opts, assigns, redirects⟩ := Alike.declarationDraft.mp draft
  simp [start.leads leads change admitted, ← keyword.leads leads change admitted,
    opts change admitted, assigns change admitted, redirects change admitted]

theorem evaluationRound_follows {draft₁ draft₂ : EvaluationDraft}
    (draft : seam.Alike p draft₁ draft₂) :
    seam.Follows p (evaluationRound inner draft₁ state)
      (evaluationRound inner' draft₂ state') := by
  unfold evaluationRound
  refine .skipBlanks paired fun {q after'} leads paired => ?_
  have draft := draft.leads leads
  obtain ⟨exprs, redirects⟩ := Alike.evaluationDraft.mp draft
  simp only [redirectAt_bind]
  rw [paired.sees starting?_sighted]
  cases found : RedirectHead.starting? state.skipBlanks.cursor.rest with
  | some head =>
      exact (redirect_follows level resumes paired found).returning fun further redirect =>
        .again (Alike.evaluationDraft.mpr
          ⟨exprs.leads further, redirect.cons (redirects.leads further)⟩)
  | none =>
      refine .current paired fun _ _ => .ite (fun _ => .ok draft.done paired) fun _ => ?_
      exact (word_follows level paired).returning fun further word =>
        .again (Alike.evaluationDraft.mpr
          ⟨word.cons (exprs.leads further), redirects.leads further⟩)

theorem evaluation_follows {keyword₁ keyword₂ : Word} (start : seam.Alike p pos pos')
    (redirects : seam.Alike p redirects₁ redirects₂) (keyword : seam.Alike p keyword₁ keyword₂) :
    seam.Follows p (evaluation inner pos redirects₁ keyword₁ state)
      (evaluation inner' pos' redirects₂ keyword₂ state') := by
  unfold evaluation
  refine Follows.returning (level.iterate
    (fun moving draft state => (evaluationRound_moves moving state draft).filled)
    (fun _ draft paired => evaluationRound_follows level resumes paired draft)
    (Alike.evaluationDraft.mpr ⟨.nil, redirects⟩) paired) fun leads draft change admitted => ?_
  obtain ⟨exprs, redirects⟩ := Alike.evaluationDraft.mp draft
  simp [start.leads leads change admitted, ← keyword.leads leads change admitted,
    exprs change admitted, redirects change admitted]

omit level resumes in
theorem emptyParentheses_follows :
    seam.Follows p (emptyParentheses state) (emptyParentheses state') := by
  unfold emptyParentheses
  refine .skip paired 1 fun _ paired => .skipBlanks paired fun _ paired => ?_
  exact .current paired fun _ _ => .ite (fun _ => .ended paired 1 .unit) fun _ => .fail paired

theorem functionAfterName_follows (start : seam.Alike p pos pos') (name : String) :
    seam.Follows p (functionAfterName inner pos name state)
      (functionAfterName inner' pos' name state') := by
  unfold functionAfterName
  refine (emptyParentheses_follows paired).bind fun leads _ paired => ?_
  refine (linebreaks_follow level resumes paired).bind fun further _ paired => ?_
  exact (level.command paired).returning fun last body change admitted => by
    simp [((start.leads leads).leads further).leads last change admitted, body change admitted]

omit level resumes in
theorem finishCall_follows (start : seam.Alike p pos pos') (draft : seam.Alike p draft₁ draft₂) :
    seam.Follows p (finishCall pos draft₁ state) (finishCall pos' draft₂ state') := by
  obtain ⟨assigns, args, redirects⟩ := Alike.callDraft.mp draft
  have no_args := args.same List.isEmpty isEmpty_recast
  have no_assigns := assigns.same List.isEmpty isEmpty_recast
  have no_redirects := redirects.same List.isEmpty isEmpty_recast
  unfold finishCall
  rw [no_args, no_assigns, no_redirects]
  refine .ite (fun _ => .ite (fun _ => .fail paired) fun _ => ?_) fun _ => ?_
  · exact .ok (fun change admitted => by
      simp [start change admitted, redirects change admitted]) paired
  · exact .ok (fun change admitted => by
      simp [start change admitted, assigns change admitted, args change admitted,
        redirects change admitted]) paired

theorem callWord_follows (start : seam.Alike p pos pos') (draft : seam.Alike p draft₁ draft₂) :
    seam.Follows p (callWord inner pos draft₁ state) (callWord inner' pos' draft₂ state') := by
  obtain ⟨assigns, args, redirects⟩ := Alike.callDraft.mp draft
  have no_args := args.same List.isEmpty isEmpty_recast
  have no_assigns := assigns.same List.isEmpty isEmpty_recast
  unfold callWord
  refine (word_follows level paired).bind fun {q word₁ word₂ after after'} leads word paired => ?_
  have literal : word₂.literal? = word₁.literal? :=
    word.same Word.literal? fun change word => word.literal?_recast change
  simp only [no_args, no_assigns, literal]
  generalize (if (draft₁.args.isEmpty && draft₁.assigns.isEmpty) = true then word₁.literal?
    else none) = keyword
  cases keyword.bind Declarator.of? with
  | some declarator =>
      exact (declaration_follows level resumes paired (start.leads leads) (redirects.leads leads)
        word declarator).returning fun _ statement => statement.done
  | none =>
      refine .ite (fun _ => ?_) fun _ => ?_
      · exact (evaluation_follows level resumes paired (start.leads leads) (redirects.leads leads)
          word).returning fun _ statement => statement.done
      · exact .ok (.again (Alike.callDraft.mpr
          ⟨assigns.leads leads, word.cons (args.leads leads), redirects.leads leads⟩)) paired

theorem callFunction_follows (start : seam.Alike p pos pos') (draft : seam.Alike p draft₁ draft₂) :
    seam.Follows p (callFunction inner pos draft₁ state)
      (callFunction inner' pos' draft₂ state') := by
  obtain ⟨assigns₁, args₁, redirects₁⟩ := draft₁
  obtain ⟨assigns₂, args₂, redirects₂⟩ := draft₂
  obtain ⟨assigns, args, redirects⟩ := Alike.callDraft.mp draft
  match assigns₁, args₁, assigns, args with
  | _ :: _, _, assigns, _ =>
      obtain ⟨_, _, rfl, -⟩ := assigns.of_cons
      exact .fail paired
  | [], [], assigns, args =>
      obtain rfl := assigns.of_nil
      obtain rfl := args.of_nil
      exact .fail paired
  | [], _ :: _ :: _, assigns, args =>
      obtain rfl := assigns.of_nil
      obtain ⟨_, _, rfl, -, args⟩ := args.of_cons
      obtain ⟨_, _, rfl, -⟩ := args.of_cons
      exact .fail paired
  | [], [name₁], assigns, args =>
      obtain rfl := assigns.of_nil
      obtain ⟨name₂, _, rfl, name, rest⟩ := args.of_cons
      obtain rfl := rest.of_nil
      have literal : name₂.literal? = name₁.literal? :=
        name.same Word.literal? fun change word => word.literal?_recast change
      have named : seam.Alike p name₁.pos name₂.pos := fun change admitted => by
        rw [← name change admitted, Word.pos_recast]
      simp only [callFunction, literal]
      cases name₁.literal? with
      | none => exact .fail paired
      | some text =>
          refine (functionAfterName_follows level resumes paired named text).returning
            fun leads function change admitted => ?_
          rw [Stmt.recast_ofDraft, start.leads leads change admitted, recast_some,
            function change admitted, redirects.leads leads change admitted]

theorem callRound_follows (start : seam.Alike p pos pos') (draft : seam.Alike p draft₁ draft₂) :
    seam.Follows p (callRound inner pos draft₁ state)
      (callRound inner' pos' draft₂ state') := by
  unfold callRound
  refine .skipBlanks paired fun {q after'} leads paired => ?_
  have start := start.leads leads
  have draft := draft.leads leads
  obtain ⟨assigns, args, redirects⟩ := Alike.callDraft.mp draft
  have no_args := args.same List.isEmpty isEmpty_recast
  simp only [redirectAt_bind]
  rw [paired.sees starting?_sighted]
  cases found : RedirectHead.starting? state.skipBlanks.cursor.rest with
  | some head =>
      exact (redirect_follows level resumes paired found).returning fun further redirect =>
        .again (Alike.callDraft.mpr
          ⟨assigns.leads further, args.leads further, redirect.cons (redirects.leads further)⟩)
  | none =>
      refine .current paired fun c _ => ?_
      cases c with
      | none => exact (finishCall_follows paired start draft).returning fun _ call => call.done
      | some c =>
          simp only [no_args]
          refine .ite (fun _ => ?_) fun _ => .ite (fun _ => ?_) fun _ =>
            .ite (fun _ => ?_) fun _ => ?_
          · exact (finishCall_follows paired start draft).returning fun _ call => call.done
          · exact (callFunction_follows level resumes paired start draft).returning
              fun _ call => call.done
          · simp only [rest_bind]
            rcases assignHead_cases level resumes paired with ⟨none₁, none₂⟩ |
              ⟨head₁, head₂, some₁, some₂, name, append, heads⟩
            · rw [none₁, none₂]
              exact callWord_follows level resumes paired start draft
            · rw [some₁, some₂]
              exact (assign_follows level resumes paired name append heads).returning
                fun further assign => .again (Alike.callDraft.mpr
                  ⟨assign.cons (assigns.leads further), args.leads further,
                    redirects.leads further⟩)
          · exact callWord_follows level resumes paired start draft

theorem call_follows (start : seam.Alike p pos pos') :
    seam.Follows p (call inner pos state) (call inner' pos' state') := by
  unfold call
  rw [level.rounds, level.rounds']
  exact .iterate (fun draft state => (callRound_moves level.moving state _ draft).filled)
    (fun draft state => (callRound_moves level.moving' state _ draft).filled)
    (fun leads draft paired => callRound_follows level resumes paired (start.leads leads) draft)
    (Alike.callDraft.mpr ⟨.nil, .nil, .nil⟩) paired

/-! ## Compound commands -/

omit resumes in
theorem block_follows : seam.Follows p (block inner state) (block inner' state') := by
  have here := paired.here
  unfold block
  simp only [here_bind]
  refine .skip paired 1 fun leads paired => ?_
  refine (level.statements _ paired).bind fun further body paired => ?_
  exact (expectWord_follows paired (by decide)).returning fun last _ change admitted => by
    simp [((here.leads leads).leads further).leads last change admitted,
      body.leads last change admitted]

omit resumes in
theorem subshell_follows : seam.Follows p (subshell inner state) (subshell inner' state') := by
  have here := paired.here
  unfold subshell
  simp only [here_bind]
  refine .skip paired 1 fun leads paired => ?_
  refine (level.statements _ paired).bind fun further body paired => ?_
  refine .current paired fun _ _ => .ite (fun _ => .ended paired 1 fun change admitted => ?_)
    fun _ => .fail paired
  simp [(here.leads leads).leads further change admitted, body change admitted]

omit resumes in
theorem alternative_follows :
    seam.Follows p (alternative inner state) (alternative inner' state') := by
  unfold alternative
  refine .skipBlanks paired fun _ paired => ?_
  have here := paired.here
  simp only [here_bind, wordAt_bind]
  rw [paired.wordAt (by decide)]
  generalize ["elif", "else", "fi"].find? state.skipBlanks.cursor.atWord = word
  split
  · exact (level.furtherConditional paired).returning fun leads command => .cons
      (fun change admitted => by simp [here.leads leads change admitted, command change admitted])
      .nil
  · refine .skip paired 4 fun _ paired => ?_
    refine (level.statements _ paired).bind fun _ items paired => ?_
    exact (expectWord_follows paired (by decide)).returning fun leads _ => items.leads leads
  · exact .ended paired 2 .nil
  · exact .fail paired

omit resumes in
theorem conditional_follows :
    seam.Follows p (conditional inner keyword state) (conditional inner' keyword state') := by
  have here := paired.here
  unfold conditional
  simp only [here_bind]
  refine .skip paired _ fun leads paired => ?_
  refine (level.statements _ paired).bind fun second condition paired => ?_
  refine (expectWord_follows paired (by decide)).bind fun third _ paired => ?_
  refine (level.statements _ paired).bind fun fourth consequence paired => ?_
  exact (alternative_follows level paired).returning fun last alternative change admitted => by
    simp [here.leads (leads.trans second |>.trans third |>.trans fourth |>.trans last)
      change admitted, condition.leads (third.trans fourth |>.trans last) change admitted,
      consequence.leads last change admitted, alternative change admitted]

theorem loopBody_follows : seam.Follows p (loopBody inner state) (loopBody inner' state') := by
  unfold loopBody
  refine (linebreaks_follow level resumes paired).bind fun _ _ paired => ?_
  refine (expectWord_follows paired (by decide)).bind fun _ _ paired => ?_
  refine (level.statements _ paired).bind fun _ body paired => ?_
  exact (expectWord_follows paired (by decide)).returning fun leads _ => body.leads leads

theorem loop_follows :
    seam.Follows p (loop inner keyword state) (loop inner' keyword state') := by
  have here := paired.here
  unfold loop
  simp only [here_bind]
  refine .skip paired _ fun leads paired => ?_
  refine (level.statements _ paired).bind fun second condition paired => ?_
  exact (loopBody_follows level resumes paired).returning fun last body change admitted => by
    simp [here.leads (leads.trans second |>.trans last) change admitted,
      condition.leads last change admitted, body change admitted]

omit resumes in
theorem rangeRound_follows {items₁ items₂ : List Word} (items : seam.Alike p items₁ items₂) :
    seam.Follows p (rangeRound inner items₁ state) (rangeRound inner' items₂ state') := by
  unfold rangeRound
  refine .skipBlanks paired fun leads paired => ?_
  refine .current paired fun _ _ => .ite (fun _ => .ok (.done (items.leads leads).reverse) paired)
    fun _ => ?_
  exact (word_follows level paired).returning fun further word =>
    .again (word.cons ((items.leads leads).leads further))

omit level resumes in
theorem rangeEnd_follows : seam.Follows p (rangeEnd state) (rangeEnd state') := by
  unfold rangeEnd
  exact .skipBlanks paired fun _ paired => skipIf_follows paired _

omit level resumes in
theorem rangeName_follows :
    seam.Follows p (rangeName keyword state) (rangeName keyword state') := by
  unfold rangeName
  simp only [rest_bind]
  rw [paired.sees nameRun_sighted]
  refine .skip paired _ fun {q after'} leads paired => ?_
  have ends : after'.cursor.wordEndsAt 0 =
      (state.skip (nameRun state.cursor.rest).length).cursor.wordEndsAt 0 := by
    have head := paired.sees head?_sighted
    simp only [Cursor.wordEndsAt, Cursor.peek, ← List.head?_eq_getElem?, head]
  simp only [cursor_bind, ends]
  exact .ite (fun _ => .fail paired) fun _ => .ok (fun _ _ => rfl) paired

omit resumes in
theorem rangeWords_follows :
    seam.Follows p (rangeWords inner state) (rangeWords inner' state') := by
  unfold rangeWords
  simp only [cursor_bind]
  rw [paired.atWord (by decide)]
  refine .ite (fun _ => .skip paired 2 fun _ paired => ?_) fun _ => .ok .absent paired
  exact Follows.map
    (level.iterate (fun moving items state => (rangeRound_moves moving state items).filled)
    (fun _ items paired => rangeRound_follows level paired items) .nil paired)
    fun _ items => items.present

theorem wordRange_follows :
    seam.Follows p (wordRange inner keyword state) (wordRange inner' keyword state') := by
  have here := paired.here
  unfold wordRange
  simp only [here_bind]
  refine (rangeName_follows paired keyword).bind fun leads name paired => ?_
  obtain rfl := name.same id fun _ _ => rfl
  refine (linebreaks_follow level resumes paired).bind fun second _ paired => ?_
  refine (rangeWords_follows level paired).bind fun third items paired => ?_
  refine (rangeEnd_follows paired).returning fun last _ change admitted => ?_
  obtain ⟨rfl, rfl⟩ | ⟨items₁, items₂, rfl, rfl, listed⟩ := items.option
  · simp [here.leads (leads.trans second |>.trans third |>.trans last) change admitted]
  · simp [here.leads (leads.trans second |>.trans third |>.trans last) change admitted,
      listed.leads last change admitted]

omit resumes in
theorem arithmeticRange_follows (starts : state.cursor.startsWith "((" = true) :
    seam.Follows p (arithmeticRange inner state) (arithmeticRange inner' state') := by
  have here := paired.here
  have plain : seam.mark ∉ ['(', '('] := by
    rcases seam.marked with marked | marked <;> simp [marked]
  have right := paired.along plain starts
  rw [along_parentheses, along_parentheses] at right
  unfold arithmeticRange
  simp only [here_bind]
  refine .skip paired 2 fun leads paired => ?_
  refine (arithmeticParts_follows level paired (by decide)).bind fun second parts paired => ?_
  exact (rangeEnd_follows paired).returning fun last _ change admitted => by
    simp [here.leads (leads.trans second |>.trans last) change admitted,
      right.leads (leads.trans second |>.trans last) change admitted,
      parts.leads last change admitted]

theorem range_follows :
    seam.Follows p (range inner keyword state) (range inner' keyword state') := by
  have starts : state'.cursor.startsWith "((" = state.cursor.startsWith "((" :=
    paired.sees (@isPrefixOf_sighted "((".toList (by decide))
  unfold range
  simp only [cursor_bind, starts]
  refine .ite (fun arithmetic => arithmeticRange_follows level paired ?_)
    fun _ => wordRange_follows level resumes paired keyword
  rw [Bool.and_eq_true] at arithmetic
  exact arithmetic.2

theorem iteration_follows :
    seam.Follows p (iteration inner keyword state) (iteration inner' keyword state') := by
  have here := paired.here
  unfold iteration
  simp only [here_bind]
  refine .skip paired _ fun leads paired => .skipBlanks paired fun second paired => ?_
  refine (range_follows level resumes paired keyword).bind fun third range paired => ?_
  exact (loopBody_follows level resumes paired).returning fun last body change admitted => by
    simp [here.leads (leads.trans second |>.trans third |>.trans last) change admitted,
      range.leads last change admitted, body change admitted]

omit resumes in
theorem patternRound_follows {patterns₁ patterns₂ : List Word}
    (patterns : seam.Alike p patterns₁ patterns₂) :
    seam.Follows p (patternRound inner patterns₁ state)
      (patternRound inner' patterns₂ state') := by
  unfold patternRound
  refine .skipBlanks paired fun leads paired => ?_
  refine (word_follows level paired).bind fun second word paired => ?_
  refine .skipBlanks paired fun last paired => ?_
  have patterns := (word.cons (patterns.leads (leads.trans second))).leads last
  exact .current paired fun _ _ => .ite (fun _ => .ended paired 1 patterns.again) fun _ =>
    .ok (.done patterns.reverse) paired

omit level resumes in
theorem caseEnd_follows : seam.Follows p (caseEnd state) (caseEnd state') := by
  unfold caseEnd
  simp only [rest_bind]
  rw [paired.sees caseEnd?_sighted]
  cases CaseEnd.of? state.cursor.rest with
  | none => exact .ok (fun _ _ => rfl) paired
  | some ending => exact .ended paired _ fun _ _ => rfl

omit resumes in
theorem caseItem_follows : seam.Follows p (caseItem inner state) (caseItem inner' state') := by
  have here := paired.here
  unfold caseItem
  simp only [here_bind]
  refine (skipIf_follows paired _).bind fun leads _ paired => ?_
  refine Follows.bind (level.iterate
    (fun moving patterns state => (patternRound_moves moving state patterns).filled)
    (fun _ patterns paired => patternRound_follows level paired patterns) .nil paired)
    fun second patterns paired => ?_
  refine .current paired fun _ _ => .ite (fun _ => .skip paired 1 fun third paired => ?_) fun _ =>
    .fail paired
  refine (level.statements _ paired).bind fun fourth body paired => ?_
  refine (caseEnd_follows paired).returning fun last ending change admitted => ?_
  obtain rfl := ending.same id fun _ _ => rfl
  simp [here.leads (leads.trans second |>.trans third |>.trans fourth |>.trans last)
    change admitted, patterns.leads (third.trans fourth |>.trans last) change admitted,
    body.leads last change admitted]

theorem caseRound_follows {items₁ items₂ : List CaseItem} (items : seam.Alike p items₁ items₂) :
    seam.Follows p (caseRound inner items₁ state) (caseRound inner' items₂ state') := by
  unfold caseRound
  refine (linebreaks_follow level resumes paired).bind fun leads _ paired => ?_
  have items := items.leads leads
  simp only [cursor_bind]
  rw [paired.atWord (by decide)]
  refine .ite (fun _ => .ended paired 4 (.done items.reverse)) fun _ => ?_
  simp only [cursor_bind, paired.atEnd]
  refine .ite (fun _ => .fail paired) fun _ => ?_
  exact (caseItem_follows level paired).returning fun further item =>
    .again (item.cons (items.leads further))

theorem case_follows : seam.Follows p (case inner state) (case inner' state') := by
  have here := paired.here
  unfold case
  simp only [here_bind]
  refine .skip paired 4 fun leads paired => .skipBlanks paired fun second paired => ?_
  refine (word_follows level paired).bind fun third subject paired => ?_
  refine (linebreaks_follow level resumes paired).bind fun fourth _ paired => ?_
  refine (expectWord_follows paired (by decide)).bind fun fifth _ paired => ?_
  refine Follows.returning (level.iterate
    (fun moving items state => caseRound_moves moving state items)
    (fun _ items paired => caseRound_follows level resumes paired items) .nil paired)
    fun last items change admitted => ?_
  have reached := leads.trans second |>.trans third |>.trans fourth |>.trans fifth |>.trans last
  simp [here.leads reached change admitted,
    subject.leads (fourth.trans fifth |>.trans last) change admitted, items change admitted]

omit level resumes in
theorem optionalParentheses_follows :
    seam.Follows p (optionalParentheses state) (optionalParentheses state') := by
  unfold optionalParentheses
  exact .current paired fun _ _ => .ite (fun _ => emptyParentheses_follows paired) fun _ =>
    .ok .unit paired

theorem keywordFunction_follows :
    seam.Follows p (keywordFunction inner state) (keywordFunction inner' state') := by
  have here := paired.here
  unfold keywordFunction
  simp only [here_bind]
  refine .skip paired 8 fun leads paired => .skipBlanks paired fun second paired => ?_
  refine (word_follows level paired).bind
    fun {q word₁ word₂ after after'} third word paired => ?_
  have literal : word₂.literal? = word₁.literal? :=
    word.same Word.literal? fun change word => word.literal?_recast change
  rw [literal]
  cases word₁.literal? with
  | none => exact .fail paired
  | some name =>
      refine .skipBlanks paired fun fourth paired => ?_
      refine (optionalParentheses_follows paired).bind fun fifth _ paired => ?_
      refine (linebreaks_follow level resumes paired).bind fun sixth _ paired => ?_
      refine (level.command paired).returning fun last body change admitted => ?_
      have reached := leads.trans second |>.trans third |>.trans fourth |>.trans
        fifth |>.trans sixth
        |>.trans last
      simp [here.leads reached change admitted, body change admitted]

theorem testRound_follows {words₁ words₂ : List Word} (words : seam.Alike p words₁ words₂) :
    seam.Follows p (testRound inner words₁ state) (testRound inner' words₂ state') := by
  unfold testRound
  refine (linebreaks_follow level resumes paired).bind
    fun {q _ _ after after'} leads _ paired => ?_
  have here := paired.here
  have words := words.leads leads
  simp only [cursor_bind]
  rw [paired.atWord (by decide)]
  refine .ite (fun _ => .ended paired 2 (.done words.reverse)) fun _ => ?_
  simp only [cursor_bind, paired.atEnd]
  refine .ite (fun _ => .fail paired) fun _ => ?_
  simp only [rest_bind]
  rw [paired.sees testOperator?_sighted]
  cases testOperator? after.cursor.rest with
  | some operator =>
      simp only [here_bind]
      exact .ended paired _ (.again (.cons
        (fun change admitted => by simp [here change admitted]) words))
  | none =>
      exact (wordUpTo_follows level paired (by decide)).returning fun further word =>
        .again (word.cons (words.leads further))

theorem test_follows : seam.Follows p (test inner state) (test inner' state') := by
  have here := paired.here
  unfold test
  simp only [here_bind]
  refine .skip paired 2 fun leads paired => ?_
  exact Follows.returning (level.iterate
    (fun moving words state => testRound_moves moving state words)
    (fun _ words paired => testRound_follows level resumes paired words) .nil paired)
    fun last words change admitted => by
      simp [here.leads (leads.trans last) change admitted, words change admitted]

omit resumes in
theorem arithmetic_follows :
    seam.Follows p (arithmetic inner state) (arithmetic inner' state') := by
  have here := paired.here
  unfold arithmetic
  simp only [here_bind]
  refine .skip paired 2 fun leads paired => ?_
  have start := paired.here
  simp only [here_bind]
  refine (arithmeticParts_follows level paired (by decide)).returning
    fun last parts change admitted => ?_
  rw [Command.recast_arithmetic, Word.recast_mk, here.leads (leads.trans last) change admitted,
    start.leads last change admitted, parts change admitted]

theorem redirectRound_follows (redirects : seam.Alike p redirects₁ redirects₂) :
    seam.Follows p (redirectRound inner redirects₁ state)
      (redirectRound inner' redirects₂ state') := by
  unfold redirectRound
  refine .skipBlanks paired fun leads paired => ?_
  have redirects := redirects.leads leads
  simp only [redirectAt_bind]
  rw [paired.sees starting?_sighted]
  cases found : RedirectHead.starting? state.skipBlanks.cursor.rest with
  | some head =>
      exact (redirect_follows level resumes paired found).returning fun further redirect =>
        .again (redirect.cons (redirects.leads further))
  | none => exact .ok redirects.done paired

theorem compound_follows : seam.Follows p (compound? inner state) (compound? inner' state') := by
  have starts : state'.cursor.startsWith "((" = state.cursor.startsWith "((" :=
    paired.sees (@isPrefixOf_sighted "((".toList (by decide))
  have head : state'.cursor.current = state.cursor.current := paired.sees head?_sighted
  unfold compound?
  simp only [cursor_bind, starts, head]
  rw [paired.wordAt (by decide)]
  refine .ite (fun _ => (arithmetic_follows level paired).map fun _ command => command.present)
    fun _ => .ite (fun _ => (subshell_follows level paired).map fun _ command => command.present)
      fun _ => ?_
  generalize compoundWords.find? state.cursor.atWord = word
  split
  · exact (block_follows level paired).map fun _ command => command.present
  · exact (conditional_follows level paired _).map fun _ command => command.present
  · exact (loop_follows level resumes paired _).map fun _ command => command.present
  · exact (loop_follows level resumes paired _).map fun _ command => command.present
  · exact (iteration_follows level resumes paired _).map fun _ command => command.present
  · exact (iteration_follows level resumes paired _).map fun _ command => command.present
  · exact (case_follows level resumes paired).map fun _ command => command.present
  · exact (keywordFunction_follows level resumes paired).map fun _ command => command.present
  · exact (test_follows level resumes paired).map fun _ command => command.present
  · exact .ok .absent paired

theorem command_follows : seam.Follows p (command inner state) (command inner' state') := by
  unfold command
  refine .skipBlanks paired fun _ paired => ?_
  have here := paired.here
  simp only [here_bind]
  refine (compound_follows level resumes paired).bind fun leads command paired => ?_
  obtain ⟨rfl, rfl⟩ | ⟨command₁, command₂, rfl, rfl, command⟩ := command.option
  · exact call_follows level resumes paired (here.leads leads)
  · exact Follows.returning (level.iterate
      (fun moving redirects state => (redirectRound_moves moving state redirects).filled)
      (fun _ redirects paired => redirectRound_follows level resumes paired redirects) .nil paired)
      fun last redirects change admitted => by
        simp [here.leads (leads.trans last) change admitted, command.leads last change admitted,
          redirects change admitted]

end

end Seam
end RecipeLint
