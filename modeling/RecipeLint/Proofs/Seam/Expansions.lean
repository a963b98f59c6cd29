import RecipeLint.Proofs.Seam.Quotes

/-!
# Expansions across a seam

What a dollar sign introduces, in two readings side by side.  Where the first reading meets the mark
inside a construct, `Resumes` says how both go on.
-/

namespace RecipeLint
namespace Seam

open Reading

variable {seam : Seam} {inner inner' : Inner} {p : Phase} {state state' : ReadState}

theorem placeParts_alike {bodies₁ bodies₂ : Bodies} {parts₁ parts₂ : List Part}
    (bodies : seam.Alike p bodies₁ bodies₂) (parts : seam.Alike p parts₁ parts₂) :
    seam.Alike p (placeParts bodies₁ parts₁) (placeParts bodies₂ parts₂) := by
  intro change admitted
  rw [← bodies change admitted, ← parts change admitted]
  have placed := recastParts_place (lookup_recastBodies change bodies₁) parts₁
  simp only [recastParts_eq_map] at placed
  exact placed

section

variable (level : seam.Level inner inner') (paired : seam.Paired p state state')

include level paired

theorem arithmeticRound_follows {closing : String} (unmarked : Unmarked closing.toList)
    {opening₁ opening₂ : Position} (opening : seam.Alike p opening₁ opening₂)
    {nested₁ nested₂ : Nested Int} (nested : seam.Alike p nested₁ nested₂) :
    seam.Follows p (arithmeticRound inner opening₁ closing nested₁ state)
      (arithmeticRound inner' opening₂ closing nested₂ state') := by
  have here := paired.here
  have depth : nested₂.depth = nested₁.depth := nested.same (·.depth) fun _ _ => rfl
  have pieces : seam.Alike p nested₁.pieces nested₂.pieces :=
    fun change admitted => congrArg Nested.pieces (nested change admitted)
  unfold arithmeticRound
  simp only [here_bind, rest_bind]
  rcases paired.rest_cases with ⟨shape, shape'⟩ | ⟨c, text, text', shape, shape', next⟩
  · rw [shape, shape']
    exact .error opening
  have starts : state'.cursor.startsWith closing = state.cursor.startsWith closing :=
    paired.sees (isPrefixOf_sighted unmarked)
  have escape : (c = '\\' && text'.head? = some '\n') = (c = '\\' && text.head? = some '\n') := by
    by_cases backslash : c = '\\'
    · rw [(next (by simp [backslash]) (by simp [backslash])).1]
    · simp [backslash]
  rw [shape, shape']
  simp only [cursor_bind, depth, starts, escape]
  refine .ite (fun _ => ?_) fun _ => .ite (fun _ => ?_) fun _ => .ite (fun dollar => ?_) fun _ =>
    .ite (fun quote => ?_) fun _ => .ite (fun _ => ?_) fun _ => .ite (fun _ => ?_) fun _ =>
      .ite (fun _ => ?_) fun _ => .ended paired 1 ((pieces.push here [c]).nested _).again
  · exact .ok pieces.finish.done paired
  · exact .ended paired 2 nested.again
  · exact expansion_or_literal_follows level paired (by simp [shape, dollar])
      (fun leads parts => (pieces.add leads parts).nested _) ((pieces.push here _).nested _)
  · exact (backquoted_follows level paired (by simp [shape, quote])).returning
      fun leads parts => ((pieces.add leads parts).nested _).again
  · exact (doubleQuoted_follows level paired false here).returning
      fun leads parts => ((pieces.add leads parts).nested _).again
  · exact .ended paired 1 ((pieces.push here [c]).nested _).again
  · exact .ended paired 1 ((pieces.push here [c]).nested _).again

theorem arithmeticParts_follows {closing : String} (unmarked : Unmarked closing.toList) :
    seam.Follows p (arithmeticParts inner closing state)
      (arithmeticParts inner' closing state') := by
  have opening := paired.here
  unfold arithmeticParts
  simp only [here_bind, level.rounds, level.rounds']
  refine Follows.bind (.iterate
    (fun nested state => arithmeticRound_moves level.moving state _ closing nested)
    (fun nested state => arithmeticRound_moves level.moving' state _ closing nested)
    (fun leads nested paired =>
      arithmeticRound_follows level paired unmarked (opening.leads leads) nested)
    (fun change admitted => by simp [opening change admitted]) paired) fun _ parts paired => ?_
  exact .ended paired _ parts

theorem operandRound_follows (stops : List Char) {nested₁ nested₂ : Nested Nat}
    (nested : seam.Alike p nested₁ nested₂) :
    seam.Follows p (operandRound inner stops nested₁ state)
      (operandRound inner' stops nested₂ state') := by
  have here := paired.here
  have depth : nested₂.depth = nested₁.depth := nested.same (·.depth) fun _ _ => rfl
  have pieces : seam.Alike p nested₁.pieces nested₂.pieces :=
    fun change admitted => congrArg Nested.pieces (nested change admitted)
  unfold operandRound
  simp only [here_bind, rest_bind]
  rcases paired.rest_cases with ⟨shape, shape'⟩ | ⟨c, text, text', shape, shape', next⟩
  · rw [shape, shape']
    exact .fail paired
  rw [shape, shape']
  simp only [depth]
  refine .ite (fun _ => ?_) fun _ => .ite (fun escape => ?_) fun _ => .ite (fun _ => ?_) fun _ =>
    .ite (fun _ => ?_) fun _ => .ite (fun quote => ?_) fun _ => .ite (fun dollar => ?_) fun _ =>
      .ite (fun _ => ?_) fun _ => .ite (fun _ => ?_) fun _ =>
        .ended paired 1 ((pieces.push here [c]).nested _).again
  · exact .ok pieces.finish.done paired
  · obtain ⟨head, first⟩ := next (by simp [escape]) (by simp [escape])
    rw [head, first]
    refine .skip paired 2 fun leads paired => ?_
    exact .ite (fun _ => .ok (nested.leads leads).again paired)
      fun _ => .ok (((pieces.push here _).nested _).again.leads leads) paired
  · exact (singleQuoted_follows paired false here).returning
      fun leads parts => ((pieces.add leads parts).nested _).again
  · exact (doubleQuoted_follows level paired false here).returning
      fun leads parts => ((pieces.add leads parts).nested _).again
  · exact (backquoted_follows level paired (by simp [shape, quote])).returning
      fun leads parts => ((pieces.add leads parts).nested _).again
  · exact expansion_or_literal_follows level paired (by simp [shape, dollar])
      (fun leads parts => (pieces.add leads parts).nested _) ((pieces.push here _).nested _)
  · exact .ended paired 1 ((pieces.push here [c]).nested _).again
  · exact .ended paired 1 ((pieces.push here [c]).nested _).again

theorem operand_follows (stops : List Char) :
    seam.Follows p (operand inner stops state) (operand inner' stops state') := by
  have here := paired.here
  unfold operand
  simp only [here_bind]
  refine Follows.bind (level.iterate
    (fun moving nested state => operandRound_moves moving state stops nested)
    (fun _ nested paired => operandRound_follows level paired stops nested)
    (fun change admitted => by simp [here change admitted]) paired)
    fun {q parts₁ parts₂ _ _} leads parts paired => ?_
  have empty : parts₂.isEmpty = parts₁.isEmpty := parts.same List.isEmpty isEmpty_recast
  refine .ok ?_ paired
  rw [empty]
  split
  · exact .absent
  · exact fun change admitted => by
      simp [here.leads leads change admitted, parts change admitted]

theorem inlineWord_follows {text : List Char} {pos pos' : Position} (start : seam.Alike p pos pos')
    (entered : seam.Paired p.within (.ofText text pos) (.ofText text pos')) :
    seam.Follows p (inlineWord inner text pos state) (inlineWord inner' text pos' state') := by
  refine (Follows.within paired (quotedParts_follows level entered none)).bind
    fun leads read paired => ?_
  obtain ⟨parts, bodies⟩ := read.of_pair
  refine .ok (fun change admitted => ?_) paired
  rw [Word.recast_mk, start.leads leads change admitted,
    placeParts_alike bodies parts change admitted]

omit level in
theorem question_follows : seam.Follows p (question state) (question state') := by
  unfold question
  simp only [rest_bind]
  rw [paired.sees question?_sighted]
  cases Question.of? state.cursor.rest with
  | none => exact .ok (fun _ _ => rfl) paired
  | some question => exact .ended paired 1 fun _ _ => rfl

omit level in
theorem parameterName_follows : seam.Follows p (parameterName state) (parameterName state') := by
  unfold parameterName
  simp only [rest_bind]
  rw [paired.sees parameterRun_sighted]
  exact .ite (fun _ => .fail paired) fun _ => .ended paired _ fun _ _ => rfl

theorem expand_follows {pos pos' : Position} (start : seam.Alike p pos pos') (op : List Char) :
    seam.Follows p (expand inner pos op state) (expand inner' pos' op state') := by
  unfold expand
  refine .skip paired _ fun leads paired => ?_
  exact (operand_follows level paired _).returning fun further operand change admitted => by
    simp [(start.leads leads).leads further change admitted, operand change admitted]

theorem furtherOperand_follows (separator : Char) :
    seam.Follows p (furtherOperand inner separator state)
      (furtherOperand inner' separator state') := by
  unfold furtherOperand
  exact .current paired fun _ _ =>
    .ite (fun _ => .skip paired 1 fun _ paired => operand_follows level paired _)
    fun _ => .ok .absent paired

theorem slice_follows {pos pos' : Position} (start : seam.Alike p pos pos') :
    seam.Follows p (slice inner pos state) (slice inner' pos' state') := by
  unfold slice
  refine .skip paired 1 fun leads paired => ?_
  refine (operand_follows level paired _).bind fun further offset paired => ?_
  exact (furtherOperand_follows level paired ':').returning fun last length change admitted => by
    simp [((start.leads leads).leads further).leads last change admitted,
      offset.leads last change admitted, length change admitted]

theorem replace_follows {pos pos' : Position} (start : seam.Alike p pos pos') :
    seam.Follows p (replace inner pos state) (replace inner' pos' state') := by
  unfold replace
  refine .skip paired 1 fun leads paired => ?_
  refine .current paired fun _ _ => ?_
  refine (skipIf_follows paired _).bind fun further _ paired => ?_
  refine (operand_follows level paired _).bind fun third pattern paired => ?_
  exact (furtherOperand_follows level paired '/').returning
    fun last replacement change admitted => by
    simp [(((start.leads leads).leads further).leads third).leads last change admitted,
      pattern.leads last change admitted, replacement change admitted]

theorem operation_follows : seam.Follows p (operation inner state) (operation inner' state') := by
  have here := paired.here
  unfold operation
  simp only [here_bind, rest_bind]
  rw [paired.sees operandOperator?_sighted]
  cases operandOperator? state.cursor.rest with
  | some op => exact expand_follows level paired here op
  | none =>
      simp only [rest_bind]
      rcases paired.rest_cases with ⟨shape, shape'⟩ | ⟨c, text, text', shape, shape', next⟩
      · rw [shape, shape']
        exact .ok .absent paired
      have named : (c = '@' && text'.head?.any isNameStart) =
          (c = '@' && text.head?.any isNameStart) := by
        by_cases sign : c = '@'
        · rw [(next (by simp [sign]) (by simp [sign])).1]
        · simp [sign]
      rw [shape, shape']
      simp only [named]
      refine .ite (fun _ => .ok .absent paired) fun _ =>
        .ite (fun _ => slice_follows level paired here)
        fun _ => .ite (fun _ => replace_follows level paired here) fun _ => .ite (fun sign => ?_)
          fun _ => .fail paired
      have at_sign : c = '@' := by
        rw [Bool.and_eq_true] at sign
        exact of_decide_eq_true sign.1
      rw [(next (by simp [at_sign]) (by simp [at_sign])).2]
      exact .ended paired 2 fun change admitted => by simp [here change admitted]

omit level in
theorem namesMark_follows (question : Question) :
    seam.Follows p (namesMark question state) (namesMark question state') := by
  unfold namesMark
  simp only [rest_bind]
  rw [paired.sees asksForNames_sighted]
  exact .ite (fun _ => .ended paired 1 .unit) fun _ => .ok .unit paired

end

/-- The heads of assignments are found together, and then they are read together. -/
def HeadsAgree (seam : Seam) (p : Phase) (inner inner' : Inner) (state state' : ReadState) : Prop :=
  (AssignHead.of? state.cursor.rest = none ∧ AssignHead.of? state'.cursor.rest = none) ∨
    ∃ head head', AssignHead.of? state.cursor.rest = some head ∧
      AssignHead.of? state'.cursor.rest = some head' ∧ head'.name = head.name ∧
      head'.append = head.append ∧
        seam.Follows p (Reading.assignHead inner head state)
          (Reading.assignHead inner' head' state')

/-- How two readings go on where the first one meets the mark inside a construct. -/
structure Resumes (seam : Seam) (inner inner' : Inner) : Prop where
  expansion : ∀ {state state' first second} quoted, seam.mark = '$' →
    seam.Paired .before state state' →
    seam.Apart .before [] first second state.cursor state'.cursor →
      seam.Follows .before (Reading.expansion inner quoted state)
        (Reading.expansion inner' quoted state')
  index : ∀ {state state' front first second length}, seam.Paired .before state state' →
    seam.Apart .before front first second state.cursor state'.cursor →
    bracketEnd? '[' ']' 0 1 state.cursor.rest = some length → front.length ≤ length →
      ∃ length₂, bracketEnd? '[' ']' 0 1 state'.cursor.rest = some length₂ ∧
        seam.Follows .before
          (inlineWord inner (state.cursor.rest.take length) state.cursor.position
            (state.skip (length + 1)))
          (inlineWord inner' (state'.cursor.rest.take length₂) state'.cursor.position
            (state'.skip (length₂ + 1)))
  assignHead : ∀ {state state' front first second name inside}, seam.mark = '$' →
    seam.Paired .before state state' →
    seam.Apart .before front first second state.cursor state'.cursor →
    AssignHead.Open front name inside → seam.HeadsAgree .before inner inner' state state'
  hereDoc : ∀ {state state' front first second awaited awaited'},
    seam.Paired .before state state' →
    seam.Apart .before front first second state.cursor state'.cursor →
    seam.Alike .before awaited awaited' → seam.awaits awaited →
    front.length < (awaited.lines state.cursor.rest).1.length +
        (awaited.lines state.cursor.rest).2.length →
      seam.Follows .before (Reading.hereDoc inner awaited state)
        (Reading.hereDoc inner' awaited' state')
  announced : ∀ {p state state' head target after} pos, seam.Paired p state state' →
    RedirectHead.starting? state.cursor.rest = some head → head.op.takesBody = true →
    Reading.word inner (state.skip head.text.length).skipBlanks = .ok (target, after) →
      seam.awaits (.ofRedirect { pos, op := head.op, fd := head.fd, target, body := none })

section

variable (level : seam.Level inner inner') (resumes : seam.Resumes inner inner')
  (paired : seam.Paired p state state')

include level resumes paired

theorem index_follows : seam.Follows p (index inner state) (index inner' state') := by
  unfold index
  refine .skip paired 1 fun {q after'} leads paired => ?_
  have start := paired.here
  simp only [here_bind, rest_bind]
  rcases paired.scan (local_bracketEnd? (show '[' ≠ ']' by decide)) with ⟨same, found_same⟩ |
    ⟨rfl, front, first, second, apart, beyond⟩
  · rw [same]
    cases found : bracketEnd? '[' ']' 0 1 (state.skip 1).cursor.rest with
    | none =>
        by_cases early : q = .before
        · subst early
          exact .unfollowed (by decide)
        · rw [paired.rest_eq early]
          exact .skip paired _ fun _ paired => .fail paired
    | some length =>
        obtain ⟨taken, later, entered⟩ := found_same found
        simp only [id_eq] at taken later entered
        simp only [taken, skip_bind]
        exact inlineWord_follows level later start entered
  · cases found : bracketEnd? '[' ']' 0 1 (state.skip 1).cursor.rest with
    | none => exact .unfollowed (by decide)
    | some length =>
        obtain ⟨length₂, found₂, follows⟩ := resumes.index paired apart found (beyond found)
        rw [found₂]
        exact follows

theorem optionalIndex_follows :
    seam.Follows p (optionalIndex inner state) (optionalIndex inner' state') := by
  unfold optionalIndex
  exact .current paired fun _ _ =>
    .ite (fun _ => (index_follows level resumes paired).map fun _ index => index.present)
    fun _ => .ok .absent paired

theorem braced_follows
    (kept : ∀ change, seam.changes p change → change.unbraced state.cursor.position = false) :
    seam.Follows p (braced inner state) (braced inner' state') := by
  have here := paired.here
  unfold braced
  simp only [here_bind]
  refine .skip paired 2 fun leads paired => ?_
  refine (question_follows paired).bind fun second question paired => ?_
  refine (parameterName_follows paired).bind fun third name paired => ?_
  refine (optionalIndex_follows level resumes paired).bind fun fourth index paired => ?_
  obtain rfl := question.leads third |>.leads fourth |>.same id fun _ _ => rfl
  refine (namesMark_follows paired _).bind fun fifth _ paired => ?_
  refine (operation_follows level paired).bind fun sixth operation paired => ?_
  have reached := leads.trans second |>.trans third |>.trans fourth |>.trans fifth |>.trans sixth
  obtain rfl := name.same id fun _ _ => rfl
  refine closed_follows paired '}' (here.leads reached) (fun change admitted => ?_)
  rw [Part.recast_braced _ (kept change (seam.changes_leads reached admitted)),
    here.leads reached change admitted, (index.leads fifth).leads sixth change admitted,
    operation change admitted]
  rfl

theorem expansion_follows (quoted : Bool) (dollar : state.cursor.rest.head? = some '$') :
    seam.Follows p (expansion inner quoted state) (expansion inner' quoted state') := by
  obtain ⟨front, first, second, apart⟩ := paired.cursors
  by_cases met : p = .before ∧ front = []
  · obtain ⟨rfl, rfl⟩ := met
    refine resumes.expansion quoted ?_ paired apart
    obtain ⟨⟨rest, rfl⟩, -⟩ := seam.joint_mark (apart.ahead rfl)
    rw [apart.rest₁] at dollar
    exact Option.some.inj dollar
  have filled : front ≠ [] := by
    rintro rfl
    by_cases early : p = .before
    · exact met ⟨early, rfl⟩
    · rw [apart.rest₁, (apart.ended early).1] at dollar
      cases dollar
  have stepped : seam.Paired p (state.skip 1) (state'.skip 1) :=
    paired.withCursors (.stay p) ⟨_, _, _, apart.advance fun _ => List.length_pos_iff.mpr filled⟩
  have kept (change : Change) (admitted : seam.changes p change) :
      change.unbraced state.cursor.position = false := by
    obtain ⟨c, front, rfl⟩ := List.exists_cons_of_ne_nil filled
    exact (apart.along change admitted).2.1
  have here := paired.here
  have behind (state : ReadState) : state.cursor.rest.drop 1 = (state.skip 1).cursor.rest := by simp
  unfold expansion
  simp only [here_bind, rest_bind]
  rw [behind, behind]
  rcases stepped.rest_cases with ⟨shape, shape'⟩ | ⟨c, text, text', shape, shape', next⟩
  · rw [shape, shape']
    exact .ok .absent paired
  have named : (c :: text').takeWhile isNameChar = (c :: text).takeWhile isNameChar := by
    rw [← shape, ← shape']
    exact stepped.sees (takeWhile_sighted (by decide) (by decide))
  rw [shape, shape']
  simp only [named]
  refine .ite (fun _ => ?_) fun _ => .ite (fun _ => ?_) fun _ => .ite (fun opened => ?_) fun _ =>
    .ite (fun _ => ?_) fun _ => .ite (fun _ => ?_) fun _ => .ite (fun _ => ?_) fun _ =>
      .ite (fun _ => ?_) fun _ => .ok .absent paired
  · exact .skip paired 1 fun leads paired =>
      (singleQuoted_follows paired true (here.leads leads)).map fun _ part => part.present
  · exact .skip paired 1 fun leads paired =>
      (doubleQuoted_follows level paired true (here.leads leads)).map fun _ part => part.present
  · rw [(next (by simp [opened]) (by simp [opened])).1]
    refine .ite (fun _ => .skip paired 3 fun leads paired => ?_) fun _ => ?_
    · exact (arithmeticParts_follows level paired (by decide)).returning
        fun further parts change admitted => by
          simp [(here.leads leads).leads further change admitted, parts change admitted]
    · exact (substituted_follows level paired _).returning fun leads items change admitted => by
        simp [here.leads leads change admitted, items change admitted]
  · refine .skip paired 2 fun leads paired => ?_
    exact (arithmeticParts_follows level paired (by decide)).returning
      fun further parts change admitted => by
        simp [(here.leads leads).leads further change admitted, parts change admitted]
  · exact (braced_follows level resumes paired kept).map fun _ part => part.present
  · exact .ended paired _ fun change admitted => by simp [here change admitted]
  · exact .ended paired 2 fun change admitted => by simp [here change admitted]

end

end Seam
end RecipeLint
