import RecipeLint.Proofs.Classification
import RecipeLint.Proofs.Lineages
import RecipeLint.Proofs.Occurrences

/-!
# Walks as recursive traversals

A walk keeps the nodes still to be visited in a list.  It does what the recursion over the tree
does: visit a node and, if the visitor asks for it, the trees below it from left to right.  So a
walk comes to every node at most once, parents before children, and never to what lies below a node
that is passed by.  The checks that walk over a script therefore report each offending node once. -/

namespace RecipeLint

namespace Locus

/-- The children of a node with the ways that lead to them. -/
def below (locus : Locus) : List Locus :=
  locus.node.children.zipIdx.map fun entry => { path := locus.path ++ [entry.2], node := entry.1 }

@[simp]
theorem map_node_below (locus : Locus) : locus.below.map node = locus.node.children := by
  rw [below, List.map_map]
  exact List.zipIdx_map_fst 0 _

/-- Neither of two ways goes on from the other one. -/
structure Apart (first second : Locus) : Prop where
  left : ¬first.path <+: second.path
  right : ¬second.path <+: first.path

/-- Ways that are apart stay so, however they go on. -/
theorem Apart.extend {first second : Locus} (apart : first.Apart second) {one other : Locus}
    (front : first.path <+: one.path) (back : second.path <+: other.path) : one.Apart other := by
  have never (path : List Nat) (left : first.path <+: path) (right : second.path <+: path) :
      False :=
    (List.prefix_or_prefix_of_prefix left right).elim apart.left apart.right
  constructor
  · exact fun further => never other.path (front.trans further) back
  · exact fun further => never one.path front (back.trans further)

theorem below_apart (locus : Locus) : locus.below.Pairwise Apart := by
  apply List.pairwise_map.mpr
  apply (pairwise_zipIdx locus.node.children).imp
  intro first second before
  constructor
  all_goals
    intro further
    have same := further.eq_of_length (by simp)
    simp at same
    omega

end Locus

/-- A call of a visitor, which may ask for the children. -/
structure Visit where
  locus : Locus
  enters : Bool

variable {σ : Type} {visit : Node → σ → Bool × σ}

/-- Visits trees one after the other: the root of each and, if the visitor asks for it, the trees
below that root. The result holds the calls of the visitor and its last state. -/
def traverse (visit : Node → σ → Bool × σ) : List Locus → σ → List Visit × σ
  | [], state => ([], state)
  | locus :: loci, state =>
      match visit locus.node state with
      | (true, state) =>
          let below := traverse visit locus.below state
          let beyond := traverse visit loci below.2
          ({ locus, enters := true } :: (below.1 ++ beyond.1), beyond.2)
      | (false, state) =>
          let beyond := traverse visit loci state
          ({ locus, enters := false } :: beyond.1, beyond.2)
termination_by loci => Node.pending (loci.map Locus.node)
decreasing_by
  · have := locus.node.pending_children_le
    rw [Locus.map_node_below, List.map_cons, Node.pending]
    omega
  all_goals
    rw [List.map_cons, Node.pending]
    omega

/-- Traverses a tree. -/
def Node.traverse (root : Node) (visit : Node → σ → Bool × σ) (state : σ) : List Visit × σ :=
  RecipeLint.traverse visit [{ path := [], node := root }] state

/-- The visitor that notes every call and the answer to it. -/
def noting (visit : Node → σ → Bool × σ) (node : Node) (noted : List (Node × Bool) × σ) :
    Bool × List (Node × Bool) × σ :=
  let answer := visit node noted.2
  (answer.1, noted.1 ++ [(node, answer.1)], answer.2)

/-- A walk over trees and further nodes comes to the further ones when it has traversed the
trees. -/
theorem walk_traverse (loci : List Locus) (nodes : List Node) (state : σ) :
    Descent.full.walk visit (loci.map Locus.node ++ nodes) state =
      Descent.full.walk visit nodes (traverse visit loci state).2 := by
  fun_induction traverse visit loci state generalizing nodes with
  | case1 => rfl
  | case2 locus loci state next answer below beyond inside further =>
      rw [List.map_cons, List.cons_append, Descent.walk, answer]
      calc Descent.full.walk visit (locus.node.children ++ (loci.map Locus.node ++ nodes)) next
          = Descent.full.walk visit (loci.map Locus.node ++ nodes)
            below.2 := by rw [← locus.map_node_below, inside]
        _ = Descent.full.walk visit nodes beyond.2 := further nodes
  | case3 locus loci state next answer beyond further =>
      rw [List.map_cons, List.cons_append, Descent.walk, answer]
      exact further nodes

theorem traverse_noting (loci : List Locus) (calls : List (Node × Bool)) (state : σ) :
    (traverse (noting visit) loci (calls, state)).2 =
      (calls ++ (traverse visit loci state).1.map (fun it => (it.locus.node, it.enters)),
        (traverse visit loci state).2) := by
  fun_induction traverse visit loci state generalizing calls with
  | case1 state => simp [traverse]
  | case2 locus loci state next answer below beyond inside further =>
      have noted : noting visit locus.node (calls, state) =
          (true, calls ++ [(locus.node, true)], next) := by
        simp [noting, answer]
      rw [traverse, noted]
      simp only [inside]
      refine (further _).trans ?_
      simp [below, beyond]
  | case3 locus loci state next answer beyond further =>
      have noted : noting visit locus.node (calls, state) =
          (false, calls ++ [(locus.node, false)], next) := by
        simp [noting, answer]
      rw [traverse, noted]
      simp only [further]
      simp [beyond]

/-- What is visited are nodes of the trees, parents before children. -/
theorem traverse_sublist (loci : List Locus) (state : σ) :
    ((traverse visit loci state).1.map Visit.locus).Sublist
      (loci.flatMap fun locus => locus.node.lociBelow locus.path) := by
  fun_induction traverse visit loci state with
  | case1 => exact List.nil_sublist _
  | case2 locus loci state next answer below beyond inside further =>
      rw [Locus.below, List.flatMap_map] at inside
      rw [List.map_cons, List.map_append, List.flatMap_cons, Node.lociBelow_eq]
      exact (inside.append further).cons_cons _
  | case3 locus loci state next answer beyond further =>
      rw [List.map_cons, List.flatMap_cons, Node.lociBelow_eq]
      exact (further.trans (List.sublist_append_right _ _)).cons_cons _

theorem exists_prefix_of_mem_traverse {loci : List Locus} {state : σ} {it : Visit}
    (member : it ∈ (traverse visit loci state).1) : ∃ locus ∈ loci,
    locus.path <+: it.locus.path := by
  obtain ⟨locus, root, inside⟩ :=
    List.mem_flatMap.mp ((traverse_sublist loci state).subset (List.mem_map_of_mem member))
  obtain ⟨down, way, -⟩ := Node.mem_lociBelow.mp inside
  exact ⟨locus, root, down, way.symm⟩

/-- The way to one node goes on from that to the other only if the visitor asked for the children of
the latter. -/
structure Visit.Fits (first second : Visit) : Prop where
  left : first.locus.path <+: second.locus.path → first.enters = true
  right : second.locus.path <+: first.locus.path → second.enters = true

instance Visit.symm_fits : Std.Symm Visit.Fits :=
  ⟨fun _ _ fits => ⟨fits.right, fits.left⟩⟩

theorem Locus.Apart.fits {first second : Locus} (apart : first.Apart second) {one other : Visit}
    (front : first.path <+: one.locus.path) (back : second.path <+: other.locus.path) :
    one.Fits other where
  left further := absurd further (apart.extend front back).left
  right further := absurd further (apart.extend front back).right

theorem traverse_fits {loci : List Locus} (apart : loci.Pairwise Locus.Apart) (state : σ) :
    (traverse visit loci state).1.Pairwise Visit.Fits := by
  fun_induction traverse visit loci state with
  | case1 => exact .nil
  | case2 locus loci state next answer below beyond inside further =>
      obtain ⟨away, apart⟩ := List.pairwise_cons.mp apart
      have longer {it : Visit} (member : it ∈ below.1) : ∃ index, locus.path ++
          [index] <+: it.locus.path := by
        obtain ⟨child, present, front⟩ := exists_prefix_of_mem_traverse member
        obtain ⟨entry, -, rfl⟩ := List.mem_map.mp present
        exact ⟨entry.2, front⟩
      have beside {one other : Visit} (front : locus.path <+: one.locus.path)
        (member : other ∈ beyond.1) :
          one.Fits other := by
        obtain ⟨root, present, back⟩ := exists_prefix_of_mem_traverse member
        exact (away root present).fits front back
      apply List.Pairwise.cons
      · intro it member
        rcases List.mem_append.mp member with member | member
        · obtain ⟨index, front⟩ := longer member
          refine ⟨fun _ => rfl, fun further => ?_⟩
          have short : locus.path.length + 1 ≤
              locus.path.length := by simpa using (front.trans further).length_le
          omega
        · exact beside (List.prefix_refl _) member
      · apply List.pairwise_append.mpr
        refine ⟨inside locus.below_apart, further apart, fun one member other => beside ?_⟩
        obtain ⟨index, front⟩ := longer member
        exact (List.prefix_append _ _).trans front
  | case3 locus loci state next answer beyond further =>
      obtain ⟨away, apart⟩ := List.pairwise_cons.mp apart
      refine (further apart).cons fun it member => ?_
      obtain ⟨root, present, back⟩ := exists_prefix_of_mem_traverse member
      exact (away root present).fits (List.prefix_refl _) back

/-! ## What checks report -/

theorem flatMap_eq_map_filter {α β : Type} {check : α → List β} {offends : α → Bool}
    {report : α → β}
    (checks : ∀ value, check value = if offends value then [report value] else [])
    (values : List α) :
    values.flatMap check = (values.filter offends).map report := by
  induction values with
  | nil => rfl
  | cons value values ih =>
      rw [List.flatMap_cons, List.filter_cons, ih, checks]
      split <;> rfl

theorem Script.violations_eq_lineages (script : Script) (check : Node → List Violation) :
    script.violations check = (Node.script script).lineages.flatMap fun lineage =>
      check lineage.node := by
  have trail : Descent.full.trail (fun _ => true) [.script script] =
      (Node.script script).lineages.map Lineage.node := by
    rw [Node.map_node_lineages, Node.preorder, Descent.collect_eq_flatMap, List.flatMap_singleton']
  rw [violations, Descent.collect_eq_flatMap, trail, List.flatMap_map]

/-- Nothing is reported below functions and command substitutions. -/
def Node.shields (node : Node) : Bool :=
  node.kind = .funcDecl || node.kind = .cmdSubst

theorem Lineage.kept_iff_all {keeps : Node → Bool} {lineage : Lineage} :
    lineage.Kept (fun parent _ => keeps parent) ↔ lineage.above.all keeps = true := by
  obtain ⟨node, above⟩ := lineage
  induction above generalizing node with
  | nil => simp [kept_root]
  | cons parent above ih => rw [kept_child, ih, List.all_cons, Bool.and_eq_true]

/-- The checks that walk over a script report its offending nodes, in the order of the walk. -/
structure Recipe.ReportsOffenders (recipe : Recipe) (lineages : List Lineage) : Prop where
  /-- The lineages are those of the nodes of the script. -/
  whole : lineages.map Lineage.node = (Node.script recipe.script).loci.map Locus.node
  /-- Comments that start with anything but a space. -/
  comments : recipe.commentViolations =
    (lineages.filter fun lineage => lineage.node.comment?.any fun it =>
    it.text.toList.head?.any (· ≠ ' ')).map fun lineage =>
      .found .badCommentPrefix lineage.node.pos []
  dialect : recipe.dialectViolations = lineages.filterMap fun lineage =>
    lineage.node.foreign?.map fun feature =>
    .found .forbiddenBashism lineage.node.pos [feature]
  /-- Command substitutions in no function and in no other command substitution. -/
  substitutions : recipe.substitutionViolations =
    (lineages.filter fun lineage => lineage.node.kind = .cmdSubst &&
    lineage.above.all (!·.shields)).map fun lineage => .found .cmdSubstInGlobalVar
      lineage.node.pos []

theorem Recipe.reportsOffenders (recipe : Recipe) :
    recipe.ReportsOffenders (Node.script recipe.script).lineages where
  whole := by rw [Node.map_node_lineages, Node.map_node_loci]
  comments := by
    rw [commentViolations, Script.violations_eq_lineages]
    apply flatMap_eq_map_filter
    intro lineage
    cases lineage.node with
    | comment it =>
        cases written : it.text.toList with
        | nil => simp [Node.commentViolations, Node.comment?, written]
        | cons c text =>
            by_cases space : c = ' ' <;> simp [Node.commentViolations, Node.comment?,
              written, space, Node.pos]
    | _ => rfl
  dialect := by
    rw [dialectViolations, Script.violations_eq_lineages, List.filterMap_eq_flatMap_toList]
    apply List.flatMap_congr
    intro lineage member
    rw [Option.toList_map]
  substitutions := by
    have collected : recipe.substitutionViolations =
      Descent.full.collect (fun node => (!node.shields,
        if node.kind = .cmdSubst then [.found .cmdSubstInGlobalVar node.pos []] else []))
          (.script recipe.script) := by
      refine congrArg (Descent.full.collect · _) (funext fun node => ?_)
      cases node with
      | command it | part it | range it | operation it => cases it <;> rfl
      | _ => rfl
    have next (node : Node) : (if !node.shields then Descent.full.next node else []) =
        node.children.filter fun _ => !node.shields := by
      cases node.shields <;> simp [Descent.full]
    rw [collected, Descent.collect_eq_flatMap, Node.trail_eq_lineages next, List.flatMap_map,
      ← List.filter_filter]
    simp only [Lineage.kept_iff_all, Bool.decide_eq_true]
    exact flatMap_eq_map_filter (fun lineage => by simp) _

/-- A walk is the recursive traversal: it calls the visitor for the same nodes and ends in the same
state.  It comes to nodes of the tree in the order of their ways, so to each at most once, and to
nothing below a node whose children the visitor does not ask for. -/
theorem walk_eq_traverse (root : Node) (visit : Node → σ → Bool × σ) (state : σ) :
    let traversed := root.traverse visit state
    root.walk visit state = traversed.2 ∧
      root.walk (noting visit) ([], state) =
        (traversed.1.map fun it => (it.locus.node, it.enters), traversed.2) ∧
      (traversed.1.map Visit.locus).Sublist root.loci ∧
      traversed.1.Pairwise (fun first second => List.Lex (· < ·) first.locus.path
        second.locus.path) ∧
      (∀ first ∈ traversed.1, first.enters = false → ∀ second ∈ traversed.1,
        first.locus.path <+: second.locus.path → second = first) ∧
      ∀ recipe : Recipe, recipe.ReportsOffenders (Node.script recipe.script).lineages := by
  intro traversed
  let start : List Locus := [{ path := [], node := root }]
  have walked {τ : Type} (visit : Node → τ → Bool × τ) (state : τ) :
      root.walk visit state = (root.traverse visit state).2 := by
    have whole := @walk_traverse _ visit start [] state
    rwa [List.append_nil, Descent.walk] at whole
  have inside : (traversed.1.map Visit.locus).Sublist root.loci := by
    have sublist := @traverse_sublist _ visit start state
    rwa [List.flatMap_singleton] at sublist
  have fits := @traverse_fits _ visit start (List.pairwise_singleton _ _) state
  refine ⟨walked visit state, ?_, inside, ?_, ?_, Recipe.reportsOffenders⟩
  · rw [walked]
    exact traverse_noting _ [] state
  · have ordered := List.Pairwise.sublist inside (root.pairwise_lociBelow [])
    rwa [List.pairwise_map] at ordered
  · intro first member passed second other further
    by_contra different
    have entered := (fits.forall member other (Ne.symm different)).left further
    rw [passed] at entered
    cases entered

/-- The parts of a word are not visited if its children are not asked for. -/
theorem walk_eq_traverse_shut :
    let root := Node.word { pos := .start, parts := [.literal .start "a"] }
    let visit := fun (_ : Node) (count : Nat) => (false, count + 1)
    root.walk visit 0 = (root.traverse visit 0).2 ∧
      ∀ it ∈ (root.traverse visit 0).1, it =
        { locus := { path := [], node := root }, enters := false } := by
  intro root visit
  obtain ⟨walked, -, -, -, pruned, -⟩ := walk_eq_traverse root visit 0
  refine ⟨walked, fun it member => ?_⟩
  refine pruned { locus := { path := [], node := root }, enters := false } ?_ rfl it
    member List.nil_prefix
  simp [Node.traverse, traverse, visit]

end RecipeLint
