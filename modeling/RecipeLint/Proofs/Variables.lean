import RecipeLint.Proofs.Lineages
import RecipeLint.Proofs.Locals

/-!
# Which variables are reported

The two checks that look for assignments throughout a tree report exactly what they are meant to, in
the order of the tree.  A variable is unused if no node of the tree refers to it, and each
assignment of one is reported unless it only sets the environment of a command.  In a function,
whatever sets a variable is reported unless a declaration in front of it in the scope names the
variable, or the variable is known from outside. -/

namespace RecipeLint

namespace Node

/-! ## References -/

/-- Whether a node refers to a variable: it exports it, expands it, or has it in single quotes with
a dollar sign inside or in front of them. -/
def RefersTo (name : String) : Node → Prop
  | .command (.declaration _ declarator _ assigns) =>
      declarator = .exported ∧ ∃ assign ∈ assigns, assign.name = name
  | .part (.single _ text dollar) => text = "$" ++ name ∨ dollar = true ∧ text = name
  | .part (.simple _ parameter) | .part (.braced _ _ parameter _ _) => parameter = name
  | _ => False

theorem refersTo_iff {node : Node} {name : String} : node.refersTo name = true ↔
    node.RefersTo name := by
  cases node with
  | command it =>
      cases it with
      | declaration _ declarator => cases declarator <;> simp [refersTo, RefersTo]
      | _ => simp [refersTo, RefersTo]
  | part it =>
      cases it with
      | single => simp [refersTo, RefersTo, or_comm]
      | _ => simp [refersTo, RefersTo]
  | _ => simp [refersTo, RefersTo]

/-! ## Assignments in front of commands -/

/-- Whether a child of a node is an assignment in front of the command that the node runs. -/
def overrides : Node → Node → Bool
  | .command (.call _ _ args), .assign _ => !args.isEmpty
  | _, _ => false

theorem childrenWithoutOverrides_eq (node : Node) :
    node.childrenWithoutOverrides = node.children.filter fun child => !node.overrides child := by
  cases node with
  | command it =>
      cases it with
      | call pos assigns args =>
          have all : (Node.command (.call pos assigns args)).children =
              assigns.map Node.assign ++ args.map Node.word := by
            simp [children, fields, Command.fields, Field.many, Function.comp_def]
          rw [all, List.filter_append, List.filter_map, List.filter_map]
          cases args with
          | nil => simp [childrenWithoutOverrides, arguments, overrides, all, Function.comp_def]
          | cons arg args =>
              simp [childrenWithoutOverrides, arguments, overrides, Function.comp_def]
      | _ => simp [childrenWithoutOverrides, arguments, overrides]
  | _ => simp [childrenWithoutOverrides, arguments, overrides]

/-- The assignments at and below a node, apart from those in front of a command and all below
them. -/
def ownAssigns (root : Node) : List Assign :=
  (root.lineages.filter (Lineage.Kept (fun parent child => !parent.overrides child) ·)).filterMap
  (·.node.assign?)

theorem ownAssigns_eq (root : Node) :
    root.ownAssigns = (Descent.withoutOverrides.trail (fun _ => true) [root]).filterMap
      assign? := by
  have next (node : Node) : (if true then Descent.withoutOverrides.next node else []) =
      node.children.filter fun child => !node.overrides child := by
    rw [if_pos rfl]
    exact node.childrenWithoutOverrides_eq
  rw [ownAssigns, trail_eq_lineages next, List.filterMap_map]
  rfl

end Node

namespace Recipe

/-- Visits a node in search of one that passes a test, `found` if there was one. -/
abbrev search (test : Node → Bool) (node : Node) (found : Bool) : Bool × Bool :=
  if found then (false, found) else (!test node, test node)

/-- A search that has found something goes below no further node. -/
theorem walk_found (test : Node → Bool) (nodes : List Node) :
    Descent.full.walk (search test) nodes true = true := by
  induction nodes with
  | nil => rw [Descent.walk]
  | cons node nodes ih => rw [Descent.walk]; exact ih

/-- A search finds something if and only if one of all nodes passes the test. -/
theorem walk_search (test : Node → Bool) (nodes : List Node) :
    Descent.full.walk (search test) nodes false =
      (Descent.full.trail (fun _ => true) nodes).any test := by
  fun_induction Descent.trail Descent.full (fun _ => true) nodes with
  | case1 => rw [Descent.walk, List.any_nil]
  | case2 node nodes _ ih =>
      rw [Descent.walk, List.any_cons, ← ih]
      cases passed : test node with
      | true => simp [search, passed, walk_found]
      | false => simp [search, passed]
  | case3 node nodes shut => exact absurd rfl shut

theorem isUnused_iff (script : Script) (name : String) : (ofScript script).isUnused name = true ↔
    ∀ lineage ∈ (Node.script script).lineages, ¬lineage.node.RefersTo name := by
  have searched := walk_search (·.refersTo name) [Node.script script]
  have nodes : Descent.full.trail (fun _ => true) [Node.script script] =
      (Node.script script).lineages.map Lineage.node := by
    rw [Node.map_node_lineages, Node.preorder, Descent.collect_eq_flatMap, List.flatMap_singleton']
  rw [nodes] at searched
  rw [isUnused, Node.walk, Bool.not_eq_true']
  refine (Eq.congr_left searched).trans ?_
  simp [Node.refersTo_iff]

theorem unusedViolations_eq (recipe : Recipe) : recipe.unusedViolations =
    ((Node.script recipe.script).ownAssigns.filter recipe.isIdle).map
      fun assign => .found .variableUnused assign.pos [assign.name] := by
  rw [unusedViolations_eq_trail, Node.ownAssigns_eq]

/-- A variable is unused if and only if no node of the tree refers to it.  The assignments of unused
variables that are not metadata are reported, each once and in the order of the tree, apart from
those in front of a command and all below them. -/
theorem unusedViolations_exact (script : Script) :
    (Node.script script).lineages.map Lineage.node = (Node.script script).preorder ∧
    (∀ name, (ofScript script).isUnused name = true ↔
      ∀ lineage ∈ (Node.script script).lineages, ¬lineage.node.RefersTo name) ∧
    (ofScript script).unusedViolations =
      ((Node.script script).ownAssigns.filter fun assign =>
        !isMetadata assign.name && (ofScript script).isUnused assign.name).map
          fun assign => .found .variableUnused assign.pos [assign.name] :=
  ⟨Node.map_node_lineages _, isUnused_iff script, unusedViolations_eq (ofScript script)⟩

end Recipe

/-! ## Scopes -/

namespace Node

theorem arguments_of_entersScope {node : Node} (shut : node.entersScope = false) :
    node.arguments = [] := by
  cases node with
  | command it =>
      cases it with
      | call => cases shut
      | _ => rfl
  | _ => rfl

/-- The nodes of a scope, parents before children.  A command with arguments stands for these alone,
and what a function or a local or exported declaration holds is left out. -/
def scope (node : Node) : List Node :=
  if node.entersScope then
    if node.arguments.isEmpty then node :: node.children.attach.flatMap fun child => scope child.1
    else node.arguments.attach.flatMap fun argument => scope argument.1
  else [node]
termination_by node.weight
decreasing_by
  · exact weight_lt_of_mem_children child.2
  · exact weight_lt_of_mem_children (node.arguments_sublist.subset argument.2)

theorem scope_eq (node : Node) : node.scope =
    if node.entersScope then
      if node.arguments.isEmpty then node :: node.children.flatMap scope
      else node.arguments.flatMap scope
    else [node] := by
  rw [scope, flatMap_attach, flatMap_attach]

/-- The scope holds what the walk of the check visits, apart from commands with arguments. -/
theorem scope_eq_filter (node : Node) : node.scope =
    (Descent.withoutOverrides.trail entersScope [node]).filter (·.arguments.isEmpty) := by
  induction node using induction_children with
  | step node ih =>
      have below {nodes : List Node} (inside : nodes ⊆ node.children) : nodes.flatMap scope =
          (Descent.withoutOverrides.trail entersScope nodes).filter (·.arguments.isEmpty) := by
        rw [Descent.trail_eq_flatMap, List.filter_flatMap]
        exact List.flatMap_congr fun child member => ih child (inside member)
      have next : Descent.withoutOverrides.next node =
          if node.arguments.isEmpty then node.children else node.arguments := rfl
      rw [scope_eq, Descent.trail_singleton, next, List.filter_cons]
      cases entered : node.entersScope with
      | false => simp [arguments_of_entersScope entered]
      | true =>
          cases bare : node.arguments.isEmpty with
          | true => simpa using below (List.Subset.refl _)
          | false => simpa using below node.arguments_sublist.subset

end Node

namespace Recipe

variable {recipe : Recipe}

/-- A command with arguments adds nothing to what is known. -/
theorem behind_filter (nodes : List Node) (scope : Scope) :
    recipe.behind (nodes.filter (·.arguments.isEmpty)) scope = recipe.behind nodes scope := by
  induction nodes generalizing scope with
  | nil => rfl
  | cons node nodes ih =>
      rw [List.filter_cons, behind_cons, ← ih]
      split
      · rfl
      · next full =>
          rw [visitScope_of_arguments node scope (by simpa using full)]

theorem scopeViolations_eq_behind (function : Function) : recipe.scopeViolations function =
    (recipe.behind (Node.stmt function.body).scope ⟨[], []⟩).found.reverse := by
  rw [scopeViolations_eq, Node.scope_eq_filter, behind_filter]

/-- The violation that a node of a scope is, given the nodes in front of it: it sets a variable that
none of them declares, and that is neither global nor metadata. -/
def undeclaredBehind (recipe : Recipe) (earlier : List Node) (node : Node) : Option Violation :=
  match node.target? with
  | none => none
  | some (pos, name) =>
      if (∃ other ∈ earlier, name ∈ other.declared) ∨ recipe.isGlobal name ∨ isMetadata name then
        none
      else some (.found .nonLocalVariable pos [name])

/-- The violations among the nodes of a scope, in their order. -/
def undeclared (recipe : Recipe) (nodes : List Node) : List Violation :=
  nodes.zipIdx.filterMap fun (node, place) => recipe.undeclaredBehind (nodes.take place) node

theorem declared_of_target? {node : Node} {target : Position × String}
    (sets : node.target? = some target) :
    node.declared = [] := by
  cases node with
  | command it => cases sets
  | _ => rfl

/-- What is known behind one more node. -/
theorem visitScope_undeclaredBehind (earlier : List Node) (node : Node) (found : List Violation) :
    (recipe.visitScope node ⟨earlier.flatMap Node.declared, found⟩).2 =
      ⟨(earlier ++ [node]).flatMap Node.declared, (recipe.undeclaredBehind earlier node).toList ++
        found⟩ := by
  rw [visitScope_snd, undeclaredBehind, List.flatMap_append, List.flatMap_singleton]
  cases sets : node.target? with
  | none => rfl
  | some target =>
      obtain ⟨pos, name⟩ := target
      rw [declared_of_target? sets, List.append_nil]
      have known : ((earlier.flatMap Node.declared).contains name || recipe.isGlobal name ||
        isMetadata name) = true ↔
          (∃ other ∈ earlier, name ∈ other.declared) ∨ recipe.isGlobal name ∨ isMetadata name := by
        simp [or_assoc]
      simp only [noteAssigned, known]
      split <;> rfl

/-- What is found behind some nodes of a scope is what was found before and the violations among
them. -/
theorem found_behind (earlier nodes : List Node) (found : List Violation) :
    (recipe.behind nodes ⟨earlier.flatMap Node.declared, found⟩).found.reverse =
      found.reverse ++ (nodes.zipIdx earlier.length).filterMap fun (node, place) =>
        recipe.undeclaredBehind ((earlier ++ nodes).take place) node := by
  induction nodes generalizing earlier found with
  | nil => simp [behind]
  | cons node nodes ih =>
      have here : (earlier ++ node :: nodes).take earlier.length = earlier := List.take_left
      have split : earlier ++ node :: nodes = (earlier ++ [node]) ++ nodes := by simp
      rw [behind_cons, visitScope_undeclaredBehind, ih, ← split, List.zipIdx_cons,
        List.filterMap_cons, List.length_append, List.length_singleton]
      simp only [here]
      cases recipe.undeclaredBehind earlier node <;> simp

/-- The check of local variables reports, function by function and in the order of each scope,
exactly what sets a variable that no declaration in front of it names and that is neither global nor
metadata. -/
theorem localViolations_exact (recipe : Recipe) :
    (∀ function, recipe.scopeViolations function =
      recipe.undeclared (Node.stmt function.body).scope) ∧
    recipe.localViolations =
      recipe.functions.flatMap fun function =>
        recipe.undeclared (Node.stmt function.body).scope := by
  have same (function : Function) :
      recipe.scopeViolations function = recipe.undeclared (Node.stmt function.body).scope := by
    rw [scopeViolations_eq_behind]
    exact found_behind [] _ []
  exact ⟨same, List.flatMap_congr fun function _ => same function⟩

end Recipe
end RecipeLint
