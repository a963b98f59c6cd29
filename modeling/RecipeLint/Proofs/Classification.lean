import RecipeLint.Proofs.Traversal
import RecipeLint.Recipe.Basic

/-!
# What a recipe lists

The comments, assignments and functions of a recipe are gathered while its tree is walked over.
Each list holds what the walk comes to, in the order of the walk, which goes below every node but
functions and exports. -/

namespace RecipeLint

namespace Node

/-- Whether the nodes below a node still belong to the top level of a recipe. -/
def isOpen : Node → Bool
  | .command (.function ..) => false
  | .command (.declaration _ .exported _ _) => false
  | _ => true

def comment? : Node → Option Comment
  | .comment it => some it
  | _ => none

def assign? : Node → Option Assign
  | .assign it => some it
  | _ => none

def function? : Node → Option Function
  | .command (.function pos name body keyword) => some { pos, name, body, keyword }
  | _ => none

theorem function?_eq_some {node : Node} {function : Function} : node.function? = some function ↔
    node = .command (.function function.pos function.name function.body function.keyword) := by
  obtain ⟨pos, name, body, keyword⟩ := function
  cases node with
  | command it => cases it <;> simp [function?]
  | _ => simp [function?]

/-- The nodes at and below a node that belong to the top level of a recipe. -/
def exposed (root : Node) : List Node :=
  root.visited fun node => !node.isOpen

theorem exposed_eq_trail (root : Node) : root.exposed = Descent.full.trail isOpen [root] := by
  rw [exposed, visited_eq_trail]
  simp only [Bool.not_not]

end Node

namespace TopLevel

theorem classify_fst (node : Node) (top : TopLevel) : (classify node top).1 = node.isOpen := by
  cases node with
  | command it =>
      cases it with
      | declaration _ declarator => cases declarator <;> rfl
      | _ => rfl
  | _ => rfl

/-- Each list holds what it held before, and behind it what the nodes add. -/
structure Follows (before : TopLevel) (nodes : List Node) (after : TopLevel) : Prop where
  comments : after.comments = before.comments ++ nodes.filterMap Node.comment?
  assigns : after.assigns = before.assigns ++ nodes.filterMap Node.assign?
  functions : after.functions = before.functions ++ nodes.filterMap Node.function?

theorem classify_follows (node : Node) (top : TopLevel) :
    Follows top [node] (classify node top).2 := by
  cases node with
  | command it =>
      cases it <;> constructor <;> simp [classify, Node.comment?, Node.assign?, Node.function?]
  | _ => constructor <;> simp [classify, Node.comment?, Node.assign?, Node.function?]

theorem Follows.append {before between after : TopLevel} {front back : List Node}
    (first : Follows before front between) (second : Follows between back after) :
    Follows before (front ++ back) after where
  comments := by rw [second.comments, first.comments, List.filterMap_append, List.append_assoc]
  assigns := by rw [second.assigns, first.assigns, List.filterMap_append, List.append_assoc]
  functions := by rw [second.functions, first.functions, List.filterMap_append, List.append_assoc]

theorem foldl_follows (nodes : List Node) (top : TopLevel) :
    Follows top nodes (nodes.foldl (fun top node => (classify node top).2) top) := by
  induction nodes generalizing top with
  | nil => constructor <;> simp
  | cons node nodes ih => exact (classify_follows node top).append (ih _)

end TopLevel

namespace Recipe

theorem ofScript_follows (script : Script) :
    TopLevel.Follows .empty (Node.script script).exposed (ofScript script).toTopLevel := by
  rw [Node.exposed_eq_trail, ofScript, Node.walk, Descent.walk_eq_foldl TopLevel.classify_fst]
  exact TopLevel.foldl_follows _ _

theorem ofScript_comments (script : Script) :
    (ofScript script).comments = (Node.script script).exposed.filterMap Node.comment? :=
  (ofScript_follows script).comments

theorem ofScript_assigns (script : Script) :
    (ofScript script).assigns = (Node.script script).exposed.filterMap Node.assign? :=
  (ofScript_follows script).assigns

theorem ofScript_functions (script : Script) :
    (ofScript script).functions = (Node.script script).exposed.filterMap Node.function? :=
  (ofScript_follows script).functions

end Recipe
end RecipeLint
