import Mathlib.Data.List.Nodup
import RecipeLint.Proofs.Declarations
import RecipeLint.Proofs.Running

/-!
# Functions out of order

The functions of a build are to be declared in the order in which they are called.  Two functions
are inverted if the last declaration of the one called later is not behind that of the other one.
The check reports the inverted functions by position; its sort is stable, so where positions are
equal the order of the calls decides. -/

namespace RecipeLint

section Pairs

variable {α : Type}

theorem mem_orderedPairs {values : List α} {first second : α} :
    (first, second) ∈ orderedPairs values ↔ [first, second].Sublist values := by
  induction values with
  | nil => simp [orderedPairs]
  | cons value values ih =>
      rw [orderedPairs, List.mem_append, ih, List.cons_sublist_cons', List.singleton_sublist,
        or_comm]
      simp [and_comm, eq_comm]

/-- A stable sort leaves what it does not tell apart in the order of the list. -/
theorem pairwise_mergeSort_of_pairwise {le : α → α → Bool} {before : α → α → Prop}
    (trans : ∀ first second third, le first second = true → le second third = true →
      le first third = true)
    (total : ∀ first second, (le first second || le second first) = true) {values : List α}
    (sorted : values.Pairwise before) :
    (values.mergeSort le).Pairwise fun first second =>
      le first second = true ∧ (le second first = true → before first second) := by
  -- The sort numbers the values and takes the numbers where it does not tell the values apart.
  have numbered := List.pairwise_mergeSort (List.zipIdxLE_trans trans) (List.zipIdxLE_total total)
    values.zipIdx
  have apart : (values.zipIdx.mergeSort (List.zipIdxLE le)).Pairwise fun first second =>
      first.2 ≠ second.2 := by
    have distinct : (values.zipIdx.map Prod.snd).Nodup := by
      rw [List.zipIdx_map_snd]
      exact List.nodup_range'
    rw [← ((List.mergeSort_perm _ _).map Prod.snd).nodup_iff] at distinct
    exact List.pairwise_map.mp distinct
  rw [← List.mergeSort_zipIdx, List.pairwise_map]
  refine (numbered.and apart).imp_of_mem fun {first second} front back ⟨ordered, other⟩ => ?_
  rw [List.mem_mergeSort, List.mem_zipIdx_iff_getElem?, List.getElem?_eq_some_iff] at front back
  obtain ⟨inside, here⟩ := front
  obtain ⟨inside', there⟩ := back
  rw [List.zipIdxLE] at ordered
  split at ordered
  next below =>
    refine ⟨below, fun above => ?_⟩
    rw [if_pos above, decide_eq_true_eq] at ordered
    have later := List.pairwise_iff_getElem.mp sorted _ _ inside inside'
      (Nat.lt_of_le_of_ne ordered other)
    rwa [here, there] at later
  next => cases ordered

variable [DecidableEq α]

/-- The pairs come by the place of their first element, and then by that of their second one. -/
theorem pairwise_orderedPairs {values : List α} (distinct : values.Nodup) :
    (orderedPairs values).Pairwise fun left right => Prod.Lex (· < ·) (· < ·)
      (values.idxOf left.1, values.idxOf left.2) (values.idxOf right.1, values.idxOf right.2) := by
  induction values with
  | nil => exact .nil
  | cons value values ih =>
      obtain ⟨new, distinct⟩ := List.nodup_cons.mp distinct
      have ascending : values.Pairwise fun first second =>
          values.idxOf first < values.idxOf second :=
        List.pairwise_iff_getElem.mpr fun i j inside inside' less => by
          rwa [distinct.idxOf_getElem i inside, distinct.idxOf_getElem j inside']
      have behind {other : α} (member : other ∈ values) : (value :: values).idxOf other =
          values.idxOf other + 1 :=
        List.idxOf_cons_ne _ fun same => new (same ▸ member)
      have inside {pair : α × α} (member : pair ∈ orderedPairs values) : pair.1 ∈ values ∧
          pair.2 ∈ values := by
        have both := mem_orderedPairs.mp member
        exact ⟨both.subset List.mem_cons_self,
          both.subset (List.mem_cons_of_mem _ List.mem_cons_self)⟩
      rw [orderedPairs, List.pairwise_append]
      refine ⟨List.pairwise_map.mpr (ascending.imp_of_mem fun first second less => ?_),
        (ih distinct).imp_of_mem fun {left right} first second less => ?_, ?_⟩
      · rw [behind first, behind second]
        exact .right _ (Nat.succ_lt_succ less)
      · rw [behind (inside first).1, behind (inside first).2, behind (inside second).1,
          behind (inside second).2]
        rw [Prod.lex_def] at less ⊢
        simpa using less
      · rintro pair front other back
        obtain ⟨_, -, rfl⟩ := List.mem_map.mp front
        rw [List.idxOf_cons_self, behind (inside back).1]
        exact .left _ _ (Nat.succ_pos _)

end Pairs

namespace Position

theorem le_iff {first second : Position} : first.le second = true ↔ ¬second.Before first := by
  rw [← lt_iff_before, lt, Bool.not_eq_true', Bool.not_eq_false]

theorem eq_of_not_before {first second : Position} (front : ¬first.Before second)
    (back : ¬second.Before first) :
    first = second := by
  obtain ⟨line, column⟩ := first
  obtain ⟨line', column'⟩ := second
  simp only [Before, mk.injEq] at *
  omega

end Position

namespace Recipe

/-- Each function is the last one declared under its name and the first one is called earlier in a
build, but the second one is not declared behind it. -/
structure Inverts (recipe : Recipe) (first second : Function) : Prop where
  called : [first.name, second.name].Sublist lifecycle
  first_isLast : Function.IsLast recipe.functions first
  second_isLast : Function.IsLast recipe.functions second
  not_before : ¬first.pos.Before second.pos

/-- The order in which inverted functions are reported: by the position of the second one, then by
the places of both in a build. -/
def ReportedBefore (left right : Function × Function) : Prop :=
  Prod.Lex Position.Before (Prod.Lex (· < ·) (· < ·))
    (left.2.pos, lifecycle.idxOf left.1.name, lifecycle.idxOf left.2.name)
    (right.2.pos, lifecycle.idxOf right.1.name, lifecycle.idxOf right.2.name)

theorem ReportedBefore.irrefl (pair : Function × Function) : ¬ReportedBefore pair pair := by
  intro before
  simp [ReportedBefore, Prod.lex_def, Position.Before.irrefl] at before

/-- The functions of two names if they are inverted. -/
def invertedPair? (recipe : Recipe) (pair : String × String) : Option (Function × Function) := do
  let first ← recipe.function? pair.1
  let second ← recipe.function? pair.2
  if second.pos.le first.pos then some (first, second) else none

/-- The inverted functions by their places in a build. -/
def inverted (recipe : Recipe) : List (Function × Function) :=
  (orderedPairs lifecycle).filterMap recipe.invertedPair?

variable (recipe : Recipe)

theorem invertedPair?_eq_some_iff {names : String × String} {first second : Function} :
    recipe.invertedPair? names = some (first, second) ↔
      recipe.function? names.1 = some first ∧ recipe.function? names.2 = some second ∧
        ¬first.pos.Before second.pos := by
  simp only [invertedPair?, Option.bind_eq_bind, Option.bind_eq_some_iff,
    Option.ite_none_right_eq_some, Option.some.injEq, Prod.mk.injEq, Position.le_iff]
  constructor
  · rintro ⟨_, found, _, found', behind, rfl, rfl⟩
    exact ⟨found, found', behind⟩
  · rintro ⟨found, found', behind⟩
    exact ⟨first, found, second, found', behind, rfl, rfl⟩

theorem mem_inverted {first second : Function} :
    (first, second) ∈ recipe.inverted ↔ recipe.Inverts first second := by
  simp only [inverted, List.mem_filterMap, invertedPair?_eq_some_iff, function?_eq_some_iff]
  constructor
  · rintro ⟨⟨_, _⟩, called, ⟨rfl, last⟩, ⟨rfl, last'⟩, behind⟩
    exact ⟨mem_orderedPairs.mp called, last, last', behind⟩
  · rintro ⟨called, last, last', behind⟩
    exact ⟨_, mem_orderedPairs.mpr called, ⟨rfl, last⟩, ⟨rfl, last'⟩, behind⟩

theorem pairwise_inverted : recipe.inverted.Pairwise fun left right => Prod.Lex (· < ·) (· < ·)
    (lifecycle.idxOf left.1.name, lifecycle.idxOf left.2.name)
    (lifecycle.idxOf right.1.name, lifecycle.idxOf right.2.name) := by
  have distinct : lifecycle.Nodup := by decide
  refine (pairwise_orderedPairs distinct).filterMap recipe.invertedPair? ?_
  rintro ⟨_, _⟩ ⟨_, _⟩ less ⟨first, second⟩ found ⟨first', second'⟩ found'
  obtain ⟨left, right, -⟩ := recipe.invertedPair?_eq_some_iff.mp found
  obtain ⟨left', right', -⟩ := recipe.invertedPair?_eq_some_iff.mp found'
  obtain ⟨rfl, -⟩ := function?_eq_some_iff.mp left
  obtain ⟨rfl, -⟩ := function?_eq_some_iff.mp right
  obtain ⟨rfl, -⟩ := function?_eq_some_iff.mp left'
  obtain ⟨rfl, -⟩ := function?_eq_some_iff.mp right'
  exact less

/-- The inverted functions in the order in which they are reported. -/
def reportedPairs : List (Function × Function) :=
  recipe.inverted.mergeSort fun left right => left.2.pos.le right.2.pos

theorem pairwise_reportedPairs : recipe.reportedPairs.Pairwise ReportedBefore := by
  refine (pairwise_mergeSort_of_pairwise ?_ ?_ recipe.pairwise_inverted).imp ?_
  · intro first second third front back
    exact Position.le_iff.mpr (Position.not_before_trans (Position.le_iff.mp front)
      (Position.le_iff.mp back))
  · intro first second
    rw [Bool.or_eq_true, Position.le_iff, Position.le_iff, ← not_and_or]
    exact fun both => Position.Before.irrefl _ (both.1.trans both.2)
  · rintro left right ⟨ordered, tied⟩
    rw [Position.le_iff] at ordered tied
    by_cases before : left.2.pos.Before right.2.pos
    · exact .left _ _ before
    · rw [ReportedBefore, Position.eq_of_not_before before ordered]
      exact .right _ (tied before)

theorem orderViolations_eq : recipe.orderViolations =
    recipe.reportedPairs.map fun pair =>
      .found .wrongFuncOrder pair.2.pos [pair.2.name, pair.1.name] := by
  have inversions : (orderedPairs lifecycle).filterMap recipe.inversion? =
    recipe.inverted.map fun pair =>
      (pair.2.pos, .found .wrongFuncOrder pair.2.pos [pair.2.name, pair.1.name]) := by
    rw [inverted, List.map_filterMap]
    refine List.filterMap_congr fun names _ => ?_
    obtain ⟨earlier, later⟩ := names
    simp only [inversion?, invertedPair?, Option.bind_eq_bind, Option.map_bind]
    cases found : recipe.function? earlier with
    | none => rfl
    | some first =>
        cases found' : recipe.function? later with
        | none => rfl
        | some second =>
            obtain ⟨rfl, -⟩ := function?_eq_some_iff.mp found
            obtain ⟨rfl, -⟩ := function?_eq_some_iff.mp found'
            simp only [Option.bind_some, Function.comp_apply]
            split <;> rfl
  rw [orderViolations, inversions, reportedPairs, ← List.map_mergeSort, List.map_map]
  · rfl
  · intro left _ right _
    rfl

/-- Exactly the inverted functions are reported, each pair once and in the order of reports.  So
nothing is reported if and only if the functions of a build are declared in the order in which they
are called. -/
theorem orderViolations_exact :
    (∃ pairs : List (Function × Function),
      (∀ first second, (first, second) ∈ pairs ↔ recipe.Inverts first second) ∧ pairs.Nodup ∧
        pairs.Pairwise ReportedBefore ∧
        recipe.orderViolations =
          pairs.map fun pair => .found .wrongFuncOrder pair.2.pos [pair.2.name, pair.1.name]) ∧
    (recipe.orderViolations = [] ↔
      (lifecycle.filterMap recipe.function?).Pairwise fun first second =>
        first.pos.Before second.pos) := by
  have listed (first second : Function) : (first, second) ∈ recipe.reportedPairs ↔
      recipe.Inverts first second := by
    rw [reportedPairs, List.mem_mergeSort, mem_inverted]
  have distinct : recipe.reportedPairs.Nodup := by
    refine recipe.pairwise_reportedPairs.imp ?_
    rintro left _ before rfl
    exact ReportedBefore.irrefl left before
  refine ⟨⟨_, listed, distinct, recipe.pairwise_reportedPairs, recipe.orderViolations_eq⟩, ?_⟩
  rw [orderViolations_eq, List.map_eq_nil_iff, List.pairwise_filterMap,
    List.pairwise_iff_forall_sublist]
  constructor
  · intro none earlier later called first found second found'
    obtain ⟨rfl, last⟩ := function?_eq_some_iff.mp found
    obtain ⟨rfl, last'⟩ := function?_eq_some_iff.mp found'
    by_contra behind
    have member := (listed first second).mpr ⟨called, last, last', behind⟩
    rw [none] at member
    cases member
  · intro ordered
    refine List.eq_nil_iff_forall_not_mem.mpr fun ⟨first, second⟩ member => ?_
    obtain ⟨called, last, last', behind⟩ := (listed first second).mp member
    exact behind (ordered called first (function?_eq_some_iff.mpr ⟨rfl, last⟩) second
      (function?_eq_some_iff.mpr ⟨rfl, last'⟩))

end Recipe

end RecipeLint
