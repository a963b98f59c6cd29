import RecipeLint.Syntax.Walk

/-!
# Traversals as lists of nodes

Where the decision to go below a node depends on the node alone, a walk is a fold over the list of
the nodes that it visits.  That list holds exactly the nodes that can be reached from the start
through nodes that the walk enters.
-/

namespace RecipeLint
namespace Descent

variable {σ α : Type} {descent : Descent} {enters : Node → Bool}

/-- The nodes that a walk comes to from a root, if it goes on below the nodes that it enters. -/
inductive Reaches (descent : Descent) (enters : Node → Bool) (root : Node) : Node → Prop
  | root : Reaches descent enters root root
  | next {node child : Node} (reached : Reaches descent enters root node)
      (entered : enters node = true) (member : child ∈ descent.next node) :
      Reaches descent enters root child

theorem Reaches.head {root child node : Node} (entered : enters root = true)
    (member : child ∈ descent.next root) (reached : descent.Reaches enters child node) :
    descent.Reaches enters root node := by
  induction reached with
  | root => exact .next .root entered member
  | next _ further inside ih => exact .next ih further inside

/-- A node is the root, or it is reached from one of the nodes that the root leads to. -/
theorem Reaches.cases_head {root node : Node} (reached : descent.Reaches enters root node) :
    node = root ∨ enters root = true ∧ ∃ child ∈ descent.next root,
    descent.Reaches enters child node := by
  induction reached with
  | root => exact .inl rfl
  | @next parent child _ entered member ih =>
      rcases ih with rfl | ⟨enter, first, inside, further⟩
      · exact .inr ⟨entered, child, member, .root⟩
      · exact .inr ⟨enter, first, inside, .next further entered member⟩

/-- The nodes that a walk visits, in its order. -/
def trail (descent : Descent) (enters : Node → Bool) : List Node → List Node
  | [] => []
  | node :: nodes =>
      if enters node then node :: trail descent enters (descent.next node ++ nodes)
      else node :: trail descent enters nodes
termination_by nodes => Node.pending nodes
decreasing_by
  · have := descent.pending_next_le node
    rw [Node.pending_append, Node.pending]
    omega
  · rw [Node.pending]
    omega

theorem trail_append (front back : List Node) :
    descent.trail enters (front ++ back) = descent.trail enters front ++
      descent.trail enters back := by
  fun_induction trail descent enters front with
  | case1 => rfl
  | case2 node nodes entered ih =>
      rw [List.append_assoc] at ih
      rw [List.cons_append, trail, if_pos entered, ih, List.cons_append]
  | case3 node nodes shut ih =>
      rw [List.cons_append, trail, if_neg shut, ih, List.cons_append]

theorem trail_singleton (node : Node) :
    descent.trail enters [node] =
      node :: if enters node then descent.trail enters (descent.next node) else [] := by
  rw [trail]
  split
  next => rw [List.append_nil]
  next => rw [trail]

theorem trail_eq_flatMap (nodes : List Node) :
    descent.trail enters nodes = nodes.flatMap fun node => descent.trail enters [node] := by
  induction nodes with
  | nil => rw [trail, List.flatMap_nil]
  | cons node nodes ih =>
      rw [← List.singleton_append, trail_append, ih, List.singleton_append, List.flatMap_cons]

/-- A walk that enters fewer nodes visits fewer. -/
theorem trail_sublist (nodes : List Node) :
    (descent.trail enters nodes).Sublist (descent.trail (fun _ => true) nodes) := by
  fun_induction trail descent enters nodes with
  | case1 => exact List.nil_sublist _
  | case2 node nodes entered ih =>
      rw [trail.eq_def descent (fun _ => true) (node :: nodes)]
      exact ih.cons_cons node
  | case3 node nodes shut ih =>
      rw [trail.eq_def descent (fun _ => true) (node :: nodes)]
      refine List.Sublist.cons_cons node ?_
      rw [trail_append]
      exact ih.trans (List.sublist_append_right _ _)

theorem mem_trail {nodes : List Node} {node : Node} :
    node ∈ descent.trail enters nodes ↔ ∃ root ∈ nodes, descent.Reaches enters root node := by
  fun_induction trail descent enters nodes with
  | case1 => simp
  | case2 first nodes entered ih =>
      rw [List.mem_cons, ih]
      constructor
      · rintro (rfl | ⟨root, member, reached⟩)
        · exact ⟨node, by simp, .root⟩
        · rcases List.mem_append.mp member with below | later
          · exact ⟨first, by simp, reached.head entered below⟩
          · exact ⟨root, by simp [later], reached⟩
      · rintro ⟨root, member, reached⟩
        rcases List.mem_cons.mp member with rfl | later
        · rcases reached.cases_head with rfl | ⟨-, child, below, further⟩
          · exact .inl rfl
          · exact .inr ⟨child, by simp [below], further⟩
        · exact .inr ⟨root, by simp [later], reached⟩
  | case3 first nodes shut ih =>
      rw [List.mem_cons, ih]
      constructor
      · rintro (rfl | ⟨root, member, reached⟩)
        · exact ⟨node, by simp, .root⟩
        · exact ⟨root, by simp [member], reached⟩
      · rintro ⟨root, member, reached⟩
        rcases List.mem_cons.mp member with rfl | later
        · rcases reached.cases_head with rfl | ⟨entered, -⟩
          · exact .inl rfl
          · exact absurd entered shut
        · exact .inr ⟨root, later, reached⟩

/-- What is picked at the nodes of a walk that goes below all of them. -/
def gather (descent : Descent) (pick : Node → Option α) (nodes : List Node) : List α :=
  (descent.trail (fun _ => true) nodes).filterMap pick

section Gather

variable {pick : Node → Option α}

@[simp]
theorem gather_nil : descent.gather pick [] = [] := by
  rw [gather, trail]
  rfl

@[simp]
theorem gather_append (front back : List Node) :
    descent.gather pick (front ++ back) = descent.gather pick front ++
      descent.gather pick back := by
  rw [gather, trail_append, List.filterMap_append]
  rfl

theorem gather_singleton (node : Node) :
    descent.gather pick [node] = (pick node).toList ++ descent.gather pick (descent.next node) := by
  rw [gather, trail_singleton, if_pos rfl, List.filterMap_cons]
  cases pick node <;> rfl

theorem gather_cons (node : Node) (nodes : List Node) :
    descent.gather pick (node :: nodes) = descent.gather pick [node] ++ descent.gather pick nodes :=
  gather_append [node] nodes

theorem gather_eq_flatMap (nodes : List Node) :
    descent.gather pick nodes = nodes.flatMap fun node => descent.gather pick [node] := by
  induction nodes with
  | nil => exact gather_nil
  | cons node nodes ih => rw [gather_cons, List.flatMap_cons, ih]

theorem gather_map_congr {values : List β} {first second : β → Node}
    (same : ∀ value ∈ values, descent.gather pick [first value] =
      descent.gather pick [second value]) :
    descent.gather pick (values.map first) = descent.gather pick (values.map second) := by
  induction values with
  | nil => rfl
  | cons value values ih =>
      rw [List.map_cons, List.map_cons, gather_cons, gather_cons (second value),
        same value List.mem_cons_self,
        ih fun value member => same value (List.mem_cons_of_mem _ member)]

theorem gather_perm {nodes others : List Node} (perm : nodes.Perm others) :
    (descent.gather pick nodes).Perm (descent.gather pick others) := by
  rw [gather_eq_flatMap nodes, gather_eq_flatMap others]
  exact perm.flatMap_right _

end Gather

/-- A walk is a fold over the nodes that it visits. -/
theorem walk_eq_foldl {visit : Node → σ → Bool × σ}
    (decides : ∀ node state, (visit node state).1 = enters node) (nodes : List Node) (state : σ) :
    descent.walk visit nodes state =
      (descent.trail enters nodes).foldl (fun state node => (visit node state).2) state := by
  fun_induction trail descent enters nodes generalizing state with
  | case1 => rw [walk, List.foldl_nil]
  | case2 node nodes entered ih =>
      have enter := (decides node state).trans entered
      rw [walk, List.foldl_cons, ← ih]
      split
      · next same => rw [same]
      · next same => simp [same] at enter
  | case3 node nodes shut ih =>
      have pass : (visit node state).1 = false := by simpa [decides node state] using shut
      rw [walk, List.foldl_cons, ← ih]
      split
      · next same => simp [same] at pass
      · next same => rw [same]

/-- A walk over some nodes goes on where the walk over those in front of them ends. -/
theorem walk_append (visit : Node → σ → Bool × σ) (front back : List Node) (state : σ) :
    descent.walk visit (front ++ back) state =
      descent.walk visit back (descent.walk visit front state) := by
  fun_induction walk descent visit front state with
  | case1 => rfl
  | case2 node nodes state next entered ih =>
      rw [List.cons_append, walk, entered, ← ih, List.append_assoc]
  | case3 node nodes state next passed ih => rw [List.cons_append, walk, passed, ← ih]

theorem collect_eq_flatMap (visit : Node → Bool × List α) (root : Node) :
    descent.collect visit root =
      (descent.trail (fun node => (visit node).1) [root]).flatMap fun node => (visit node).2 := by
  have gathered (nodes : List Node) (found : List α) :
      nodes.foldl (fun found node => (visit node).2.reverse ++ found) found =
        (nodes.flatMap fun node => (visit node).2).reverse ++ found := by
    induction nodes generalizing found with
    | nil => rfl
    | cons node nodes ih =>
        rw [List.foldl_cons, ih, List.flatMap_cons, List.reverse_append, List.append_assoc]
  calc descent.collect visit root
      = ((descent.trail (fun node => (visit node).1) [root]).foldl
          (fun found node => (visit node).2.reverse ++ found) []).reverse :=
        congrArg List.reverse (by exact walk_eq_foldl (fun _ _ => by rfl) [root] [])
    _ = _ := by rw [gathered, List.append_nil, List.reverse_reverse]

end Descent

namespace Node

theorem weight_lt_of_mem_children {node child : Node} (member : child ∈ node.children) :
    child.weight < node.weight := by
  have alone := pending_le_of_sublist (List.singleton_sublist.mpr member)
  have whole := node.pending_children_le
  simp only [pending] at alone
  omega

/-- What holds of a node as soon as it holds of its children holds of every node. -/
@[elab_as_elim]
theorem induction_children {motive : Node → Prop} (node : Node)
    (step : ∀ node, (∀ child ∈ node.children, motive child) → motive node) : motive node :=
  step node fun child _ => induction_children child step
termination_by node.weight
decreasing_by exact weight_lt_of_mem_children ‹_›

theorem visited_eq_trail (root : Node) (pruned : Node → Bool) :
    root.visited pruned = Descent.full.trail (fun node => !pruned node) [root] := by
  simp [visited, Descent.collect_eq_flatMap]

theorem mem_visited {root node : Node} {pruned : Node → Bool} :
    node ∈ root.visited pruned ↔ Descent.full.Reaches (fun node => !pruned node) root node := by
  simp [visited_eq_trail, Descent.mem_trail]

theorem mem_preorder {root node : Node} :
    node ∈ root.preorder ↔ Descent.full.Reaches (fun _ => true) root node := by
  simp [preorder, Descent.collect_eq_flatMap, Descent.mem_trail]

theorem filterMap_preorder (pick : Node → Option α) (root : Node) :
    root.preorder.filterMap pick = Descent.full.gather pick [root] := by
  rw [preorder, Descent.collect_eq_flatMap, List.flatMap_singleton']
  rfl

end Node
end RecipeLint
