import RecipeLint.Lint.Violation
import RecipeLint.Recipe.Basic
import RecipeLint.Recipe.Metadata

/-!
# Checks of variables

Global variables of a recipe that are not metadata have a name with one leading underscore, every
variable is used somewhere, and what a function assigns is declared local in it.  Assignments that
only set the environment of a command are no assignments of the recipe.
-/

namespace RecipeLint

/-- Whether a name is fit for a global variable that is not metadata. -/
def isCustomName (name : String) : Bool :=
  match name.toList with
  | '_' :: c :: _ => c ≠ '_'
  | _ => false

namespace Recipe

def globalViolations (recipe : Recipe) : List Violation :=
  let unfit := recipe.assigns.filter fun assign =>
    !isMetadata assign.name && !isCustomName assign.name
  unfit.map fun assign => .found .invalidGlobalVar assign.pos [assign.name]

end Recipe

/-! ## Commands with an environment of their own

A visitor is wrapped so that it does not see assignments in front of a command.  At such a command
only the arguments are walked over, each on its own and by the wrapped visitor again. -/

theorem pending_args_le (pos : Position) (assigns : List Assign) (args : List Word) :
    Node.pending (args.map .word) ≤ (Node.command (.call pos assigns args)).weight := by
  refine Nat.le_trans (Node.pending_le_of_sublist ?_) (Node.pending_children_le _)
  simp [Node.children, Node.fields, Command.fields, Field.many, Function.comp_def]

mutual

/-- Visits a node, unless that is a command with arguments. -/
def passOverrides (visit : Node → σ → Bool × σ) (node : Node) (state : σ) : Bool × σ :=
  match node with
  | .command (.call _ _ (arg :: args)) => (false, passEach visit (arg :: args) state)
  | node => visit node state
termination_by 3 * Node.pending [node]
decreasing_by
  have := pending_args_le ‹_› ‹_› (arg :: args)
  simp only [Node.pending]
  omega

/-- Walks over words, one after the other. -/
def passEach (visit : Node → σ → Bool × σ) : List Word → σ → σ
  | [], state => state
  | word :: words, state => passEach visit words (passWalk visit [.word word] state)
termination_by words => 3 * Node.pending (words.map .word) + 2
decreasing_by
  all_goals
    simp only [List.map_cons, Node.pending]
    omega

/-- Walks over nodes with the wrapped visitor. -/
def passWalk (visit : Node → σ → Bool × σ) : List Node → σ → σ
  | [], state => state
  | node :: nodes, state =>
      match passOverrides visit node state with
      | (true, state) => passWalk visit (node.children ++ nodes) state
      | (false, state) => passWalk visit nodes state
termination_by nodes => 3 * Node.pending nodes + 1
decreasing_by
  all_goals
    have := node.pending_children_le
    simp only [Node.pending, Node.pending_append]
    omega

end

namespace Recipe

/-- Whether an assignment is one of a variable that nothing refers to. -/
def isIdle (recipe : Recipe) (assign : Assign) : Bool :=
  !isMetadata assign.name && recipe.isUnused assign.name

/-- Visits a node of a recipe, the violations found so far being given, the last one first. -/
def visitIdle (recipe : Recipe) (node : Node) (found : List Violation) : Bool × List Violation :=
  match node with
  | .assign it =>
      (true, if recipe.isIdle it then .found .variableUnused it.pos [it.name] :: found else found)
  | _ => (true, found)

def unusedViolations (recipe : Recipe) : List Violation :=
  ((Node.script recipe.script).walk (passOverrides recipe.visitIdle) []).reverse

/-- What is known in the body of a function, up to some node of it. -/
structure Scope where
  declared : List String
  /-- The violations found so far, the last one first. -/
  found : List Violation

/-- Notes the assignment of a name: a violation unless the name is declared, global or metadata. -/
def noteAssigned (recipe : Recipe) (scope : Scope) (pos : Position) (name : String) : Scope :=
  if scope.declared.contains name || recipe.isGlobal name || isMetadata name then
    scope
  else
    { scope with found := .found .nonLocalVariable pos [name] :: scope.found }

/-- Visits a node of the body of a function.  Declarations and functions inside are not entered. -/
def visitScope (recipe : Recipe) (node : Node) (scope : Scope) : Bool × Scope :=
  match node with
  | .command (.declaration _ declarator _ assigns) =>
      if declarator.isPosix then
        (false, { scope with declared := scope.declared ++ assigns.map Assign.name })
      else
        (true, scope)
  | .command (.function ..) => (false, scope)
  | .assign it => (true, recipe.noteAssigned scope it.pos it.name)
  | .range (.words pos name _ _) => (true, recipe.noteAssigned scope pos name)
  | _ => (true, scope)

/-- The assignments in a function of variables that are not declared local in front of them. -/
def scopeViolations (recipe : Recipe) (function : Function) : List Violation :=
  let start : Scope := { declared := [], found := [] }
  ((Node.stmt function.body).walk (passOverrides recipe.visitScope) start).found.reverse

def localViolations (recipe : Recipe) : List Violation :=
  recipe.functions.flatMap recipe.scopeViolations

end Recipe
end RecipeLint
