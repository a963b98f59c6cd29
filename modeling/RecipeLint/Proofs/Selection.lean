import RecipeLint.Lint.Linter
import RecipeLint.Proofs.Locals
import RecipeLint.Proofs.Occurrences

/-!
# Choosing among rules

Every kind of violation belongs to one rule, and a rule finds violations of its own kinds only.
What a rule finds depends on the recipe alone, so leaving out rules, or applying them in another
order, takes nothing else away and adds nothing.  The one rule that can fail is the one that reads
addresses. -/

namespace RecipeLint

/-- The rule that finds the violations of a kind. -/
def ViolationKind.rule : ViolationKind → Rule
  | .badCommentPrefix => .comments
  | .missingMaintainer | .tooManyMaintainers | .maintainerAfterAssign | .missingAddress
  | .noAddressSeparator | .invalidAddress | .wrongAddrCommentOrder | .repeatedAddrComment =>
      .maintainer
  | .invalidGlobalVar => .globalVariables
  | .variableUnused => .unusedVariables
  | .cmdSubstInGlobalVar => .globalSubstitutions
  | .nonLocalVariable => .localVariables
  | .trivialLongParamExp => .paramExpansions
  | .metadataBeforeFunc | .metadataAfterFunc => .metadataPlacement
  | .missingMetadata => .requiredMetadata
  | .wrongFuncOrder => .functionOrder
  | .duplicateFuncDecl => .duplicateFunctions
  | .forbiddenBashism => .bashisms

namespace Rule

/-- The violations are of kinds that belong to the rule. -/
def Owns (rule : Rule) (violations : List Violation) : Prop :=
  ∀ violation ∈ violations, violation.kind.rule = rule

namespace Owns

variable {rule : Rule} {first second : List Violation}

theorem nil : rule.Owns [] := nofun

theorem single {violation : Violation} (own : violation.kind.rule = rule) : rule.Owns [violation] :=
  List.forall_mem_singleton.mpr own

theorem cons {violation : Violation} (own : violation.kind.rule = rule) (owns : rule.Owns second) :
    rule.Owns (violation :: second) :=
  List.forall_mem_cons.mpr ⟨own, owns⟩

theorem append (front : rule.Owns first) (back : rule.Owns second) : rule.Owns (first ++ second) :=
  List.forall_mem_append.mpr ⟨front, back⟩

theorem map {α : Type} {values : List α} {report : α → Violation}
    (own : ∀ value, (report value).kind.rule = rule) : rule.Owns (values.map report) :=
  List.forall_mem_map.mpr fun value _ => own value

theorem flatMap {α : Type} {values : List α} {check : α → List Violation}
    (owns : ∀ value, rule.Owns (check value)) : rule.Owns (values.flatMap check) := by
  intro violation member
  obtain ⟨value, _, found⟩ := List.mem_flatMap.mp member
  exact owns value violation found

theorem filterMap {α : Type} {values : List α} {check : α → Option Violation}
    (own : ∀ value ∈ values, ∀ violation, check value = some violation →
      violation.kind.rule = rule) :
    rule.Owns (values.filterMap check) := by
  intro violation member
  obtain ⟨value, inside, found⟩ := List.mem_filterMap.mp member
  exact own value inside violation found

theorem collect {descent : Descent} {visit : Node → Bool × List Violation} {root : Node}
    (owns : ∀ node, rule.Owns (visit node).2) : rule.Owns (descent.collect visit root) := by
  rw [Descent.collect_eq_flatMap]
  exact flatMap owns

theorem violations {script : Script} {check : Node → List Violation}
    (owns : ∀ node, rule.Owns (check node)) : rule.Owns (script.violations check) :=
  collect owns

end Owns

end Rule

/-! ## Checks that may fail -/

section Faults

variable {ε α β : Type}

theorem exists_of_bind_ok {first : Except ε α} {next : α → Except ε β} {result : β}
    (run : (first >>= next) = .ok result) : ∃ value, first = .ok value ∧
    next value = .ok result := by
  cases first with
  | error fault => cases run
  | ok value => exact ⟨value, rfl, run⟩

theorem exists_of_mem_mapM {check : α → Except ε β} {values : List α} {results : List β}
    (run : values.mapM check = .ok results) : ∀ result ∈ results, ∃ value ∈ values,
    check value = .ok result := by
  induction values generalizing results with
  | nil =>
      cases run
      exact nofun
  | cons value values ih =>
      rw [List.mapM_cons] at run
      obtain ⟨first, checked, run⟩ := exists_of_bind_ok run
      obtain ⟨others, further, run⟩ := exists_of_bind_ok run
      cases run
      refine List.forall_mem_cons.mpr ⟨⟨value, List.mem_cons_self, checked⟩,
        fun result member => ?_⟩
      obtain ⟨other, inside, same⟩ := ih further result member
      exact ⟨other, List.mem_cons_of_mem _ inside, same⟩

theorem mapM_ok {check : α → Except ε β} {found : α → β} {values : List α}
    (checked : ∀ value ∈ values, check value = .ok (found value)) :
    values.mapM check = .ok (values.map found) := by
  induction values with
  | nil => rfl
  | cons value values ih =>
      obtain ⟨first, later⟩ := List.forall_mem_cons.mp checked
      rw [List.mapM_cons, first, ih later]
      rfl

/-- A check that can fail in one way only fails so if it fails at all. -/
theorem mapM_error {check : α → Except ε β} {fault : ε} {values : List α}
    (checked : ∀ value ∈ values, check value = .error fault ∨ ∃ result, check value = .ok result)
    (failed : ∃ value ∈ values, check value = .error fault) : values.mapM check = .error fault := by
  induction values with
  | nil => exact absurd failed (by simp)
  | cons value values ih =>
      obtain ⟨first, later⟩ := List.forall_mem_cons.mp checked
      rw [List.mapM_cons]
      rcases first with failure | ⟨result, success⟩
      · rw [failure]
        rfl
      · obtain ⟨other, member, failure⟩ := failed
        have inside : other ∈ values := by
          refine (List.mem_cons.mp member).resolve_left ?_
          rintro rfl
          rw [success] at failure
          cases failure
        rw [success, ih later ⟨other, inside, failure⟩]
        rfl

end Faults

/-! ## What each rule finds -/

theorem Comment.credit_owns {ε : Type} {read : MailboxReader ε} {label : String} {comment : Comment}
    {violation : Violation} (outcome : comment.credit read label = .ok (.inl violation)) :
    violation.kind.rule = .maintainer := by
  unfold Comment.credit at outcome
  dsimp only at outcome
  split at outcome
  · cases outcome
    rfl
  · split at outcome
    · cases outcome
      rfl
    · obtain ⟨mailbox, -, outcome⟩ := exists_of_bind_ok outcome
      cases mailbox <;> cases outcome
      rfl

theorem Credits.ofComments_owns {ε : Type} {read : MailboxReader ε} {label : String}
    {comments : List Comment}
    {credits : Credits} (examined : Credits.ofComments read label comments = .ok credits) :
    Rule.maintainer.Owns credits.violations := by
  obtain ⟨outcomes, run, same⟩ := exists_of_bind_ok examined
  cases same
  refine .filterMap fun outcome member violation left => ?_
  cases outcome with
  | inr => cases left
  | inl =>
      cases left
      obtain ⟨comment, _, credited⟩ := exists_of_mem_mapM run _ member
      exact Comment.credit_owns credited

theorem maintainerCount_owns (maintainers : List Comment) :
    Rule.maintainer.Owns (maintainerCount maintainers) := by
  unfold maintainerCount
  split
  · exact .single rfl
  · exact .nil
  · exact .single rfl

theorem maintainerPlace_owns (assigns : List Assign) (contributors : List Credit)
    (maintainer : Comment) :
    Rule.maintainer.Owns (maintainerPlace assigns contributors maintainer) := by
  refine .append ?_ (.map fun _ => rfl)
  split
  · exact .single rfl
  · exact .nil

theorem repeatedCredits_owns (seen : List String) (credits : List Credit) :
    Rule.maintainer.Owns (repeatedCredits seen credits) := by
  induction credits generalizing seen with
  | nil => exact .nil
  | cons credit credits ih =>
      unfold repeatedCredits
      dsimp only
      split
      · exact .cons rfl (ih _)
      · exact ih _

theorem braceViolations_owns (parts : List Part) :
    Rule.paramExpansions.Owns (braceViolations parts) := by
  intro violation member
  obtain ⟨_, _, _, _, _, _, _, rfl⟩ := exists_of_mem_braceViolations member
  rfl

theorem Assign.misplaced?_owns {assign : Assign} {first last : Function} {violation : Violation}
    (found : assign.misplaced? first last = some violation) : violation.kind.rule =
      .metadataPlacement := by
  unfold Assign.misplaced? at found
  split at found
  · split at found <;> cases found
    rfl
  · split at found <;> cases found
    rfl
  · cases found

theorem repeatedFunctions_owns (seen : List String) (functions : List Function) :
    Rule.duplicateFunctions.Owns (repeatedFunctions seen functions) := by
  induction functions generalizing seen with
  | nil => exact .nil
  | cons function functions ih =>
      unfold repeatedFunctions
      dsimp only
      split
      · exact .cons rfl (ih _)
      · exact ih _

theorem maintainerViolations_owns {ε : Type} {read : MailboxReader ε} {comments : List Comment}
    {assigns : List Assign} {violations : List Violation}
    (found : maintainerViolations read comments assigns = .ok violations) :
    Rule.maintainer.Owns violations := by
  obtain ⟨maintainers, named, found⟩ := exists_of_bind_ok found
  obtain ⟨contributors, others, found⟩ := exists_of_bind_ok found
  cases found
  refine .append (.append (.append (.append ?_ ?_) (maintainerCount_owns _)) ?_)
    (repeatedCredits_owns [] _)
  · exact Credits.ofComments_owns named
  · exact Credits.ofComments_owns others
  · cases (comments.filter (·.hasLabel maintainerLabel)).head? with
    | none => exact .nil
    | some maintainer => exact maintainerPlace_owns _ _ maintainer

namespace Recipe

variable (recipe : Recipe)

theorem commentViolations_owns : Rule.comments.Owns recipe.commentViolations := by
  refine .violations fun node => ?_
  unfold Node.commentViolations
  split
  · split
    · exact .nil
    · split
      · exact .nil
      · exact .single rfl
  · exact .nil

theorem unusedViolations_owns : Rule.unusedVariables.Owns recipe.unusedViolations := by
  rw [unusedViolations_eq_trail]
  exact .map fun _ => rfl

theorem substitutionViolations_owns :
    Rule.globalSubstitutions.Owns recipe.substitutionViolations := by
  refine .collect fun node => ?_
  split
  · exact .nil
  · exact .single rfl
  · exact .nil

theorem localViolations_owns : Rule.localVariables.Owns recipe.localViolations := by
  refine .flatMap fun function violation member => ?_
  rcases of_mem_behind (mem_scopeViolations.mp member) with old | ⟨_, _, _, _, _, _, rfl⟩
  · cases old
  · rfl

theorem placementViolations_owns : Rule.metadataPlacement.Owns recipe.placementViolations := by
  unfold placementViolations
  split
  · exact .filterMap fun _ _ _ => Assign.misplaced?_owns
  · exact .nil

theorem orderViolations_owns : Rule.functionOrder.Owns recipe.orderViolations := by
  intro violation member
  obtain ⟨⟨pos, _⟩, sorted, rfl⟩ := List.mem_map.mp member
  obtain ⟨⟨earlier, later⟩, _, found⟩ := List.mem_filterMap.mp (List.mem_mergeSort.mp sorted)
  obtain ⟨first, -, found⟩ := Option.bind_eq_some_iff.mp found
  obtain ⟨second, -, found⟩ := Option.bind_eq_some_iff.mp found
  split at found
  · cases found
    rfl
  · cases found

end Recipe

namespace Rule

variable {ε : Type} {read : MailboxReader ε}

/-- A rule finds violations of its own kinds only. -/
theorem check_owns {rule : Rule} {recipe : Recipe} {violations : List Violation}
    (found : rule.checkWith read recipe = .ok violations) : rule.Owns violations := by
  cases rule with
  | maintainer => exact maintainerViolations_owns found
  | comments => cases found; exact recipe.commentViolations_owns
  | globalVariables => cases found; exact .map fun _ => rfl
  | unusedVariables => cases found; exact recipe.unusedViolations_owns
  | globalSubstitutions => cases found; exact recipe.substitutionViolations_owns
  | localVariables => cases found; exact recipe.localViolations_owns
  | paramExpansions =>
      cases found
      exact .violations fun node => braceViolations_owns node.adjacentParts
  | metadataPlacement => cases found; exact recipe.placementViolations_owns
  | requiredMetadata => cases found; exact .map fun _ => rfl
  | functionOrder => cases found; exact recipe.orderViolations_owns
  | duplicateFunctions => cases found; exact repeatedFunctions_owns [] _
  | bashisms =>
      cases found
      exact .violations fun node => .map fun _ => rfl

/-- What a rule finds; nothing if it fails. -/
def found (read : MailboxReader ε) (rule : Rule) (recipe : Recipe) : List Violation :=
  (rule.checkWith read recipe).toOption.getD []

/-- The rules that do not read addresses never fail. -/
theorem check_eq_found {rule : Rule} (other : rule ≠ .maintainer) (recipe : Recipe) :
    rule.checkWith read recipe = .ok (rule.found read recipe) := by
  cases rule with
  | maintainer => exact absurd rfl other
  | _ => rfl

/-- Either no rule fails, or the one for the maintainer does. -/
theorem check_cases (read : MailboxReader ε) (recipe : Recipe) :
    (∀ rule : Rule, rule.checkWith read recipe = .ok (rule.found read recipe)) ∨
      ∃ fault, Rule.maintainer.checkWith read recipe = .error fault := by
  cases checked : Rule.maintainer.checkWith read recipe with
  | error fault => exact .inr ⟨fault, rfl⟩
  | ok violations =>
      refine .inl fun rule => ?_
      by_cases same : rule = .maintainer
      · simp [same, found, checked, Except.toOption]
      · exact rule.check_eq_found same recipe

theorem found_owns (read : MailboxReader ε) (rule : Rule) (recipe : Recipe) :
    rule.Owns (rule.found read recipe) := by
  unfold found
  cases checked : rule.checkWith read recipe with
  | error fault => exact .nil
  | ok violations => exact check_owns checked

end Rule

namespace Linter

variable {ε : Type} {read : MailboxReader ε} {linter : Linter} {recipe : Recipe}

theorem lint_ok (checked : ∀ rule ∈ linter.rules, rule.checkWith read recipe =
    .ok (rule.found read recipe)) :
    linter.lintWith read recipe = .ok (linter.rules.flatMap (·.found read recipe)) := by
  have run : linter.findings read recipe =
      .ok (linter.rules.map fun rule => (rule, rule.found read recipe)) :=
    mapM_ok fun rule member => by
      rw [checked rule member]
      rfl
  rw [lintWith, run]
  exact congrArg Except.ok (List.flatMap_map ..)

theorem lint_error {fault : ε} (failed : Rule.maintainer.checkWith read recipe = .error fault)
    (applied : .maintainer ∈ linter.rules) : linter.lintWith read recipe = .error fault := by
  have run : linter.findings read recipe = .error fault := by
    refine mapM_error (fun rule _ => ?_) ⟨.maintainer, applied, by rw [failed]; rfl⟩
    by_cases same : rule = .maintainer
    · exact .inl (by rw [same, failed]; rfl)
    · exact .inr ⟨_, by rw [rule.check_eq_found same]; rfl⟩
  rw [lintWith, run]
  rfl

/-- Taking away violations by their rules amounts to taking away rules. -/
theorem filter_found (read : MailboxReader ε) (keep : Rule → Bool) (rules : List Rule)
    (recipe : Recipe) :
    (rules.flatMap (·.found read recipe)).filter (fun violation => keep violation.kind.rule) =
      (rules.filter keep).flatMap (·.found read recipe) := by
  have single (rule : Rule) : (rule.found read recipe).filter
    (fun violation => keep violation.kind.rule) =
      if keep rule then rule.found read recipe else [] := by
    have owns := rule.found_owns read recipe
    split
    next kept =>
      exact List.filter_eq_self.mpr fun violation member => by rw [owns violation member, kept]
    next left =>
      exact List.filter_eq_nil_iff.mpr fun violation member => by rwa [owns violation member]
  induction rules with
  | nil => rfl
  | cons rule rules ih =>
      rw [List.flatMap_cons, List.filter_append, single, ih, List.filter_cons]
      split
      · rw [List.flatMap_cons]
      · rw [List.nil_append]

theorem filter_all (rule : Rule) : Rule.all.filter (· = rule) = [rule] := by
  cases rule <;> rfl

/-- Whatever the complete linter finds, one without some rules finds the same without their
violations, and one with chosen rules finds theirs, in the order of the choice.  If the complete
linter fails, so does every linter that applies the rule for the maintainer, and no other one.  All
this is so whatever reads mailboxes. -/
theorem lint_make {ε : Type} (read : MailboxReader ε) (recipe : Recipe) :
    (∀ (rule : Rule) violations, rule.checkWith read recipe = .ok violations →
        ∀ violation ∈ violations, violation.kind.rule = rule) ∧
      (∀ all, (make [] []).lintWith read recipe = .ok all →
        (∀ disabled : List String, (make [] disabled).lintWith read recipe =
          .ok (all.filter fun violation => !disabled.contains violation.kind.rule.name)) ∧
        ∀ rules, rules ≠ [] → (make rules []).lintWith read recipe =
          .ok (rules.flatMap fun rule => all.filter fun violation => violation.kind.rule = rule)) ∧
      ∀ fault, (make [] []).lintWith read recipe = .error fault →
      ∀ linter : Linter, linter.lintWith read recipe =
        if .maintainer ∈ linter.rules then .error fault
        else .ok (linter.rules.flatMap (·.found read recipe)) := by
  have complete : (make [] []).rules = Rule.all := by simp [make]
  refine ⟨fun _ _ => Rule.check_owns, ?_⟩
  rcases Rule.check_cases read recipe with checked | ⟨fault, failed⟩
  · have run (linter : Linter) := @lint_ok _ read linter recipe fun rule _ => checked rule
    rw [run, complete]
    refine ⟨?_, nofun⟩
    rintro _ ⟨⟩
    refine ⟨fun disabled => ?_, fun rules filled => ?_⟩
    · rw [run, filter_found read fun rule => !disabled.contains rule.name]
      rfl
    · have kept : (make rules []).rules = rules := by simp [make, filled]
      rw [run, kept]
      refine congrArg Except.ok (congrArg (List.flatMap · rules) (funext fun rule => ?_))
      rw [filter_found read (· = rule), filter_all, List.flatMap_singleton]
  · rw [lint_error failed (by rw [complete]; decide)]
    refine ⟨nofun, ?_⟩
    rintro _ ⟨⟩ linter
    split
    next applied => exact lint_error failed applied
    next absent =>
      exact lint_ok fun rule member =>
        rule.check_eq_found (fun same => absent (same ▸ member)) recipe

/-- A comment without a space is all that the rule for comments has found. -/
theorem lint_make_comments : ∃ recipe all,
    Recipe.parse "" "#c\nx=1".toList = .ok recipe ∧ (make [] []).lint recipe = .ok all ∧
    .found .badCommentPrefix ⟨1, 1⟩ [] ∈ all ∧
    (make [] ["comments"]).lint recipe =
      .ok (all.filter fun violation => !(["comments"].contains violation.kind.rule.name)) := by
  have found : (Recipe.parse "" "#c\nx=1".toList).toOption.any (fun recipe =>
      ((make [] []).lint recipe).toOption.any
        (·.contains (.found .badCommentPrefix ⟨1, 1⟩ []))) = true := by
    decide +kernel
  obtain ⟨recipe, read, found⟩ := Recipe.exists_of_any found
  obtain ⟨all, run, found⟩ := Recipe.exists_of_any found
  exact ⟨recipe, all, read, run, List.contains_iff_mem.mp found,
    ((lint_make Mail.parse recipe).2.1 all run).1 _⟩

end Linter

end RecipeLint
