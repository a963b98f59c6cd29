import Mathlib.Data.List.Chain
import RecipeLint.Proofs.Traversal

/-!
# Nodes with the nodes above them

Whether a walk comes to a node depends on the nodes above it.  The lineages of a tree list every
node of it together with these, parents before children.  A walk that leaves out some children of a
node, and decides so from the node and the child alone, visits the nodes whose lineages it leaves
out nowhere, each of them once and in this order. -/

namespace RecipeLint

/-- A node of a tree with the nodes above it. -/
structure Lineage where
  node : Node
  /-- The nodes above it, its parent first. -/
  above : List Node

namespace Lineage

variable {keeps : Node → Node → Bool}

/-- Whether each node of a lineage is kept by the one above it. -/
def Kept (keeps : Node → Node → Bool) (lineage : Lineage) : Prop :=
  (lineage.node :: lineage.above).IsChain fun child parent => keeps parent child = true

instance : DecidablePred (Kept keeps) :=
  fun lineage => inferInstanceAs (Decidable ((lineage.node :: lineage.above).IsChain _))

theorem kept_child {node child : Node} {above : List Node} :
    Kept keeps { node := child, above := node :: above } ↔ keeps node child = true ∧
    Kept keeps { node, above } :=
  List.isChain_cons_cons

theorem kept_root (root : Node) : Kept keeps { node := root, above := [] } :=
  List.IsChain.singleton root

end Lineage

namespace Node

theorem flatMap_attach (nodes : List Node) (list : Node → List α) :
    (nodes.attach.flatMap fun node => list node.1) = nodes.flatMap list := by
  calc nodes.attach.flatMap (fun node => list node.1)
      = (nodes.attach.map Subtype.val).flatMap list := by rw [List.flatMap_map]
    _ = nodes.flatMap list := by rw [List.attach_map_subtype_val]

/-- The lineages of a node and of the nodes below it, the given nodes being above them all. -/
def lineagesBelow (above : List Node) (node : Node) : List Lineage :=
  { node, above } :: node.children.attach.flatMap fun child => lineagesBelow (node :: above) child.1
termination_by node.weight
decreasing_by exact weight_lt_of_mem_children child.2

/-- The lineages of a node and of all nodes below it, parents before children. -/
def lineages (root : Node) : List Lineage :=
  root.lineagesBelow []

theorem lineagesBelow_eq (above : List Node) (node : Node) :
    node.lineagesBelow above =
      { node, above } :: node.children.flatMap fun child =>
        child.lineagesBelow (node :: above) := by
  rw [lineagesBelow, flatMap_attach]

variable {descent : Descent} {enters : Node → Bool} {keeps : Node → Node → Bool}

theorem trail_filter (wanted : Node → Bool) (nodes : List Node) :
    descent.trail enters (nodes.filter wanted) =
      nodes.flatMap fun node => if wanted node then descent.trail enters [node] else [] := by
  induction nodes with
  | nil => rw [List.filter_nil, Descent.trail, List.flatMap_nil]
  | cons node nodes ih =>
      rw [List.filter_cons, List.flatMap_cons, ← ih]
      split
      · rw [← List.singleton_append, Descent.trail_append]
      · rw [List.nil_append]

/-- Below a place that a walk comes to, the lineages that it keeps are those of the nodes that it
visits, and below any other place there are none. -/
theorem map_node_lineagesBelow
    (next : ∀ node, (if enters node then descent.next node else []) =
      node.children.filter (keeps node))
    (node : Node) (above : List Node) :
    ((node.lineagesBelow above).filter (Lineage.Kept keeps ·)).map Lineage.node =
      if Lineage.Kept keeps { node, above } then descent.trail enters [node] else [] := by
  induction node using induction_children generalizing above with
  | step node ih =>
      have below : (node.children.flatMap fun child =>
          ((child.lineagesBelow (node :: above)).filter (Lineage.Kept keeps ·)).map Lineage.node) =
            node.children.flatMap fun child =>
              if keeps node child = true ∧ Lineage.Kept keeps { node, above } then
                descent.trail enters [child]
              else [] := by
        refine List.flatMap_congr fun child member => ?_
        rw [ih child member]
        simp only [Lineage.kept_child]
      rw [lineagesBelow_eq, List.filter_cons, List.filter_flatMap]
      split
      · next kept =>
          have kept := of_decide_eq_true kept
          have entered : (if enters node then descent.trail enters (descent.next node) else []) =
              descent.trail enters (node.children.filter (keeps node)) := by
            rw [← next node]
            split
            · rfl
            · rw [Descent.trail]
          rw [if_pos kept, Descent.trail_singleton, entered, trail_filter, List.map_cons,
            List.map_flatMap, below]
          simp only [kept, and_true]
      · next dropped =>
          have dropped : ¬Lineage.Kept keeps { node, above } := by simpa using dropped
          rw [if_neg dropped, List.map_flatMap, below]
          simp only [dropped, and_false, if_false, List.flatMap_eq_nil_iff, implies_true]

/-- A walk visits the nodes whose lineages it keeps, in their order. -/
theorem trail_eq_lineages
    (next : ∀ node, (if enters node then descent.next node else []) =
      node.children.filter (keeps node))
    (root : Node) :
    descent.trail enters [root] = (root.lineages.filter (Lineage.Kept keeps ·)).map
      Lineage.node := by
  rw [lineages, map_node_lineagesBelow next, if_pos (Lineage.kept_root root)]

/-- The lineages list every node of a tree, in the order of a walk over the whole tree. -/
theorem map_node_lineages (root : Node) : root.lineages.map Lineage.node = root.preorder := by
  have all (lineage : Lineage) : lineage.Kept fun _ _ => true :=
    (List.pairwise_of_forall fun _ _ => rfl).isChain
  have next (node : Node) : (if true then Descent.full.next node else []) =
      node.children.filter fun _ => true := by
    rw [if_pos rfl, List.filter_true]
    rfl
  rw [preorder, Descent.collect_eq_flatMap, List.flatMap_singleton', trail_eq_lineages next,
    List.filter_eq_self.mpr fun lineage _ => decide_eq_true (all lineage)]

end Node
end RecipeLint
