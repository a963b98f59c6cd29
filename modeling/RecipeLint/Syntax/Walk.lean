import RecipeLint.Syntax.Weight

/-!
# Traversals

A walk visits the nodes of a script in depth-first order, parents before children.  The visitor has
a state of its own and decides at each node whether its children are visited.  The nodes still to be
visited are kept in a list, so the depth of a tree costs no stack.  A `Descent` says which children
a walk goes on to.
-/

namespace RecipeLint

/-- A choice of the children that a walk goes on to. -/
structure Descent where
  next : Node → List Node
  /-- Only children are gone on to, in their order. -/
  next_sublist (node : Node) : (next node).Sublist node.children

namespace Node

theorem pending_children_le (node : Node) : pending node.children ≤ node.weight :=
  node.weights_fields_le

end Node

namespace Descent

def full : Descent where
  next := Node.children
  next_sublist _ := List.Sublist.refl _

theorem pending_next_le (descent : Descent) (node : Node) :
    Node.pending (descent.next node) ≤ node.weight :=
  Nat.le_trans (Node.pending_le_of_sublist (descent.next_sublist node)) node.pending_children_le

/-- Visits the given nodes and those below them that the visitor admits, threading its state. -/
def walk (descent : Descent) (visit : Node → σ → Bool × σ) : List Node → σ → σ
  | [], state => state
  | node :: nodes, state =>
      match visit node state with
      | (true, state) => descent.walk visit (descent.next node ++ nodes) state
      | (false, state) => descent.walk visit nodes state
termination_by nodes => Node.pending nodes
decreasing_by
  · have := descent.pending_next_le node
    rw [Node.pending_append, Node.pending]
    omega
  · rw [Node.pending]
    omega

/-- What a visitor without state finds at the nodes of a walk, in the order of the walk. -/
def collect (descent : Descent) (visit : Node → Bool × List α) (node : Node) : List α :=
  let gather (node : Node) (found : List α) : Bool × List α :=
    match visit node with
    | (enter, here) => (enter, here.reverse ++ found)
  (descent.walk gather [node] []).reverse

end Descent

namespace Node

/-- Visits a node and those below it that the visitor admits. -/
def walk (node : Node) (visit : Node → σ → Bool × σ) (state : σ) : σ :=
  Descent.full.walk visit [node] state

def preorder (node : Node) : List Node :=
  Descent.full.collect (fun node => (true, [node])) node

/-- The nodes that a walk visits when it does not go below some of them. -/
def visited (node : Node) (pruned : Node → Bool) : List Node :=
  Descent.full.collect (fun node => (!pruned node, [node])) node

/-- A node in an outline: how deep it lies and in which field. -/
structure Entry where
  depth : Nat
  slot : Option Slot
  node : Node

def Entry.below (entry : Entry) : List Entry :=
  entry.node.fields.map fun field =>
    { depth := entry.depth + 1, slot := some field.1, node := field.2 }

theorem pending_below (entry : Entry) :
    pending (entry.below.map Entry.node) = pending entry.node.children := by
  simp [Entry.below, children, Function.comp_def]

/-- The entries of the given nodes and of all nodes below them, in front of those already found in
reverse. -/
def outlineFrom (found : List Entry) : List Entry → List Entry
  | [] => found.reverse
  | entry :: entries => outlineFrom (entry :: found) (entry.below ++ entries)
termination_by entries => pending (entries.map Entry.node)
decreasing_by
  have := pending_children_le entry.node
  rw [List.map_append, pending_append, pending_below, List.map_cons, pending]
  omega

/-- A node and all nodes below it with their depths and fields, parents before children. -/
def outline (node : Node) : List Entry :=
  outlineFrom [] [{ depth := 0, slot := none, node }]

end Node
end RecipeLint
