import RecipeLint.Proofs.Classification
import RecipeLint.Proofs.Overrides

/-!
# Which assignments in functions are reported

The check of local variables looks at the functions that a recipe lists, and in each of them at what
belongs to its own scope.  A recipe lists the functions that lie in no other function and in no
export, so the check covers exactly those; a function declared inside of another one is passed by.
-/

namespace RecipeLint

namespace Node

/-- Whether a child of a node lies outside of the scope that the node belongs to: the body of a
function, the names of a local or exported declaration, and assignments in front of a command. -/
def Shields : Node → Node → Prop
  | .command (.function ..), _ => True
  | .command (.declaration _ declarator _ _), _ => declarator.isPosix = true
  | .command (.call _ _ args), .assign _ => args ≠ []
  | _, _ => False

/-- The nodes of the scope of a body. -/
inductive InScope (body : Node) : Node → Prop
  | body : InScope body body
  | child {node child : Node} (inside : InScope body node) (member : child ∈ node.children)
      (visible : ¬node.Shields child) : InScope body child

/-- The names that a local or exported declaration declares. -/
def declared : Node → List String
  | .command (.declaration _ declarator _ assigns) =>
      if declarator.isPosix then assigns.map Assign.name else []
  | _ => []

/-- The variable that a node sets, with the place that is reported. -/
def target? : Node → Option (Position × String)
  | .assign it => some (it.pos, it.name)
  | .range (.words pos name _ _) => some (pos, name)
  | _ => none

/-- Whether the check of local variables goes below a node. -/
def entersScope : Node → Bool
  | .command (.function ..) => false
  | .command (.declaration _ declarator _ _) => !declarator.isPosix
  | _ => true

theorem mem_childrenWithoutOverrides {node child : Node} (entered : node.entersScope = true) :
    child ∈ node.childrenWithoutOverrides ↔ child ∈ node.children ∧ ¬node.Shields child := by
  cases node with
  | command it =>
      cases it with
      | call pos assigns args =>
          by_cases empty : args = []
          · subst empty
            cases child <;> simp [childrenWithoutOverrides, arguments, Shields]
          · have kept : (Node.command (.call pos assigns args)).childrenWithoutOverrides =
                args.map Node.word := by
              simp [childrenWithoutOverrides, arguments, empty]
            rw [kept]
            cases child <;>
              simp [Shields, empty, children, fields, Command.fields, Field.many, Function.comp_def]
      | function => simp [entersScope] at entered
      | declaration _ declarator =>
          simp only [entersScope, Bool.not_eq_true'] at entered
          simp [childrenWithoutOverrides, arguments, Shields, entered]
      | _ => simp [childrenWithoutOverrides, arguments, Shields]
  | _ => simp [childrenWithoutOverrides, arguments, Shields]

/-- The walk of the check visits exactly the nodes of the scope. -/
theorem reaches_iff_inScope {body node : Node} :
    Descent.withoutOverrides.Reaches entersScope body node ↔ InScope body node := by
  have shut {parent child : Node} (visible : ¬parent.Shields child) :
      parent.entersScope = true := by
    cases parent with
    | command it => cases it <;> simp_all [Shields, entersScope]
    | _ => rfl
  constructor
  · intro reached
    induction reached with
    | root => exact .body
    | next _ entered member ih =>
        obtain ⟨child, visible⟩ := (mem_childrenWithoutOverrides entered).mp member
        exact .child ih child visible
  · intro inside
    induction inside with
    | body => exact .root
    | child _ member visible ih =>
        have entered := shut visible
        exact .next ih entered ((mem_childrenWithoutOverrides entered).mpr ⟨member, visible⟩)

end Node

namespace Recipe

variable {recipe : Recipe}

variable {function : Function} {violation : Violation} {scope : Scope} (node : Node)

theorem visitScope_fst (scope : Scope) :
    (recipe.visitScope node scope).1 = node.entersScope := by
  cases node with
  | command it =>
      cases it with
      | declaration _ declarator =>
          simp only [visitScope, Node.entersScope]
          cases declarator.isPosix <;> rfl
      | _ => rfl
  | range it => cases it <;> rfl
  | _ => rfl

/-- A command with arguments means nothing by itself. -/
theorem visitScope_of_arguments (scope : Scope) (full : node.arguments ≠ []) :
    recipe.visitScope node scope = (true, scope) := by
  cases node with
  | command it =>
      cases it with
      | call => rfl
      | _ => exact absurd rfl full
  | _ => exact absurd rfl full

/-- A visit notes what the node sets, or the names that it declares. -/
theorem visitScope_snd (scope : Scope) :
    (recipe.visitScope node scope).2 =
      match node.target? with
      | some (pos, name) => recipe.noteAssigned scope pos name
      | none => { scope with declared := scope.declared ++ node.declared } := by
  cases node with
  | command it =>
      cases it with
      | declaration _ declarator =>
          simp only [visitScope, Node.target?, Node.declared]
          cases declarator.isPosix <;> simp
      | _ => simp [visitScope, Node.target?, Node.declared]
  | range it => cases it <;> simp [visitScope, Node.target?, Node.declared]
  | _ => simp [visitScope, Node.target?, Node.declared]

/-- What is known behind some nodes of a scope. -/
def behind (recipe : Recipe) (nodes : List Node) (scope : Scope) : Scope :=
  nodes.foldl (fun scope node => (recipe.visitScope node scope).2) scope

theorem behind_cons (nodes : List Node) (scope : Scope) :
    recipe.behind (node :: nodes) scope = recipe.behind nodes (recipe.visitScope node scope).2 :=
  rfl

theorem scopeViolations_eq (function : Function) : recipe.scopeViolations function =
    (recipe.behind (Descent.withoutOverrides.trail Node.entersScope [.stmt function.body])
      ⟨[], []⟩).found.reverse := by
  rw [scopeViolations, Node.walk, walk_passOverrides _ visitScope_of_arguments,
    Descent.walk_eq_foldl visitScope_fst]
  rfl

theorem mem_scopeViolations :
    violation ∈ recipe.scopeViolations function ↔
      violation ∈ (recipe.behind
        (Descent.withoutOverrides.trail Node.entersScope [.stmt function.body])
        ⟨[], []⟩).found := by
  rw [scopeViolations_eq, List.mem_reverse]

/-- The check of unused variables reports what its walk comes to, in the order of the walk. -/
theorem unusedViolations_eq_trail (recipe : Recipe) : recipe.unusedViolations =
    (((Descent.withoutOverrides.trail (fun _ => true) [.script recipe.script]).filterMap
      Node.assign?).filter recipe.isIdle).map
        fun assign => .found .variableUnused assign.pos [assign.name] := by
  have overlooks (node : Node) (found : List Violation) (full : node.arguments ≠ []) :
      recipe.visitIdle node found = (true, found) := by
    cases node with
    | assign => exact absurd rfl full
    | _ => rfl
  have enters (node : Node) (found : List Violation) : (recipe.visitIdle node found).1 = true := by
    cases node <;> rfl
  have gathered (nodes : List Node) (found : List Violation) :
      (nodes.foldl (fun found node => (recipe.visitIdle node found).2) found).reverse =
        found.reverse ++ ((nodes.filterMap Node.assign?).filter recipe.isIdle).map
          fun assign => .found .variableUnused assign.pos [assign.name] := by
    induction nodes generalizing found with
    | nil => simp
    | cons node nodes ih =>
        rw [List.foldl_cons, ih]
        cases node with
        | assign it => cases idle : recipe.isIdle it <;> simp [visitIdle, Node.assign?, idle]
        | _ => rfl
  rw [unusedViolations, Node.walk, walk_passOverrides _ overlooks, Descent.walk_eq_foldl enters,
    gathered]
  rfl

/-- What has been found is still known behind further nodes. -/
theorem found_subset_behind (nodes : List Node)
    (found : violation ∈ scope.found) : violation ∈ (recipe.behind nodes scope).found := by
  induction nodes generalizing scope with
  | nil => exact found
  | cons node nodes ih =>
      rw [behind_cons, visitScope_snd]
      refine ih ?_
      split
      · unfold noteAssigned
        split
        · exact found
        · exact List.mem_cons_of_mem _ found
      · exact found

/-- Whether the check knows a variable from outside of the function. -/
def knows (recipe : Recipe) (name : String) : Bool :=
  recipe.isGlobal name || isMetadata name

/-- A variable that no node declares is reported where a node sets it. -/
theorem mem_behind {nodes : List Node} {node : Node} {pos : Position} {name : String}
    (member : node ∈ nodes) (sets : node.target? = some (pos, name))
    (unknown : recipe.knows name = false) (undeclared : ∀ other ∈ nodes, name ∉ other.declared)
    (fresh : name ∉ scope.declared) :
    .found .nonLocalVariable pos [name] ∈ (recipe.behind nodes scope).found := by
  induction nodes generalizing scope with
  | nil => cases member
  | cons first nodes ih =>
      rw [behind_cons, visitScope_snd]
      rcases List.mem_cons.mp member with rfl | later
      · refine found_subset_behind nodes ?_
        simp only [knows, Bool.or_eq_false_iff] at unknown
        simp [sets, noteAssigned, fresh, unknown.1, unknown.2]
      · have further : ∀ other ∈ nodes, name ∉ other.declared :=
          fun other inside => undeclared other (by simp [inside])
        refine ih later further ?_
        split
        · unfold noteAssigned
          split <;> exact fresh
        · simpa [fresh] using undeclared first (by simp)

/-- What is reported is set by a node and not known from outside. -/
theorem of_mem_behind {nodes : List Node}
    (member : violation ∈ (recipe.behind nodes scope).found) :
    violation ∈ scope.found ∨ ∃ node ∈ nodes, ∃ pos name, node.target? = some (pos, name) ∧
      recipe.knows name = false ∧ violation = .found .nonLocalVariable pos [name] := by
  induction nodes generalizing scope with
  | nil => exact .inl member
  | cons first nodes ih =>
      rw [behind_cons, visitScope_snd] at member
      rcases ih member with earlier | ⟨node, inside, rest⟩
      · cases sets : first.target? with
        | none => exact .inl (by simpa [sets] using earlier)
        | some target =>
            obtain ⟨pos, name⟩ := target
            simp only [sets, noteAssigned] at earlier
            split at earlier
            · exact .inl earlier
            · next unnoted =>
                rcases List.mem_cons.mp earlier with rfl | old
                · refine .inr ⟨first, by simp, pos, name, sets, ?_, rfl⟩
                  simp only [Bool.or_eq_true, not_or, Bool.not_eq_true] at unnoted
                  simp [knows, unnoted.1.2, unnoted.2]
                · exact .inl old
      · exact .inr ⟨node, by simp [inside], rest⟩

/-- A function of a script that lies in no other function and in no export. -/
def Outermost (script : Script) (function : Function) : Prop :=
  Descent.full.Reaches Node.isOpen (.script script)
    (.command (.function function.pos function.name function.body function.keyword))

theorem mem_functions {script : Script} :
    function ∈ (ofScript script).functions ↔ Outermost script function := by
  simp [ofScript_functions, Node.exposed, Outermost, Node.mem_visited, Node.function?_eq_some]

theorem mem_scope {body : Stmt} {node : Node} :
    node ∈ Descent.withoutOverrides.trail Node.entersScope [.stmt body] ↔
      Node.InScope (.stmt body) node := by
  simp [Descent.mem_trail, Node.reaches_iff_inScope]

/-- The assignments in the scope of a function that the check has to report there. -/
def dueAssigns (recipe : Recipe) (function : Function) : List Assign :=
  let scope := Descent.withoutOverrides.trail Node.entersScope [.stmt function.body]
  (scope.filterMap Node.assign?).filter fun assign =>
    scope.all (fun other => !other.declared.contains assign.name) && !recipe.knows assign.name

theorem mem_dueAssigns {assign : Assign} :
    assign ∈ recipe.dueAssigns function ↔ Node.InScope (.stmt function.body) (.assign assign) ∧
      (∀ other, Node.InScope (.stmt function.body) other → assign.name ∉ other.declared) ∧
      recipe.isGlobal assign.name = false ∧ isMetadata assign.name = false := by
  have same (node : Node) : node.assign? = some assign ↔ node = .assign assign := by
    cases node <;> simp [Node.assign?]
  simp [dueAssigns, same, mem_scope, knows]

/-- In a function that lies in no other function and in no export, whatever sets a variable that no
declaration of the same scope names, and that is neither global nor metadata, is reported.  Nothing
else than what such functions set is reported. -/
theorem localViolations_cover (script : Script) :
    (∀ function node pos name, Outermost script function →
      Node.InScope (.stmt function.body) node → node.target? = some (pos, name) →
      (∀ other, Node.InScope (.stmt function.body) other → name ∉ other.declared) →
      (ofScript script).isGlobal name = false → isMetadata name = false →
      .found .nonLocalVariable pos [name] ∈ (ofScript script).localViolations) ∧
    ∀ violation ∈ (ofScript script).localViolations, ∃ function node pos name,
      Outermost script function ∧ Node.InScope (.stmt function.body) node ∧
      node.target? = some (pos, name) ∧ violation = .found .nonLocalVariable pos [name] := by
  constructor
  · intro function node pos name outermost inside sets undeclared unassigned custom
    refine List.mem_flatMap.mpr ⟨function, mem_functions.mpr outermost, mem_scopeViolations.mpr ?_⟩
    have unknown : (ofScript script).knows name = false := by simp [knows, unassigned, custom]
    refine mem_behind (mem_scope.mpr inside) sets unknown ?_ List.not_mem_nil
    exact fun other visited => undeclared other (mem_scope.mp visited)
  · intro violation member
    obtain ⟨function, listed, found⟩ := List.mem_flatMap.mp member
    rcases of_mem_behind (mem_scopeViolations.mp found) with none | some
    · cases none
    · obtain ⟨node, visited, pos, name, sets, -, same⟩ := some
      exact ⟨function, node, pos, name, mem_functions.mp listed, mem_scope.mp visited, sets, same⟩

theorem exists_of_any {ε α : Type} {outcome : Except ε α} {test : α → Bool}
    (passed : outcome.toOption.any test = true) : ∃ value, outcome = .ok value ∧
    test value = true := by
  cases outcome with
  | error => simp [Except.toOption] at passed
  | ok value => exact ⟨value, rfl, by simpa [Except.toOption] using passed⟩

/-- The assignment in `f() { x=1; }` is reported. -/
theorem localViolations_cover_single : ∃ script,
    Script.parse "" "f() \x7b x=1; \x7d".toList = .ok script ∧
    .found .nonLocalVariable ⟨1, 7⟩ ["x"] ∈ (ofScript script).localViolations := by
  have due : (Script.parse "" "f() \x7b x=1; \x7d".toList).toOption.any (fun script =>
      decide (∃ function ∈ (ofScript script).functions,
        ∃ assign ∈ (ofScript script).dueAssigns function,
        assign.pos = ⟨1, 7⟩ ∧ assign.name = "x")) = true := by
    decide +kernel
  obtain ⟨script, read, holds⟩ := exists_of_any due
  obtain ⟨function, listed, assign, found, pos, name⟩ := of_decide_eq_true holds
  obtain ⟨inside, undeclared, unassigned, custom⟩ := mem_dueAssigns.mp found
  refine ⟨script, read, ?_⟩
  rw [← pos, ← name]
  exact (localViolations_cover script).1 function (.assign assign) assign.pos assign.name
    (mem_functions.mp listed) inside rfl undeclared unassigned custom

/-- The assignment in the inner one of two functions is not reported, although the variable is
neither declared there nor global. -/
theorem localViolations_not_cover_nested :
    ∃ (recipe : Recipe) (function : Function) (assign : Assign),
    parse "" "f() \x7b\n\tg() \x7b\n\t\tx=1\n\t\x7d\n\x7d\n".toList = .ok recipe ∧
    .command (.function function.pos function.name function.body function.keyword) ∈
      (Node.script recipe.script).preorder ∧
    Node.InScope (.stmt function.body) (.assign assign) ∧
    (∀ other, Node.InScope (.stmt function.body) other → assign.name ∉ other.declared) ∧
    recipe.isGlobal assign.name = false ∧ isMetadata assign.name = false ∧
    .found .nonLocalVariable assign.pos [assign.name] ∉ recipe.localViolations := by
  have missed : (parse "" "f() \x7b\n\tg() \x7b\n\t\tx=1\n\t\x7d\n\x7d\n".toList).toOption.any
      (fun recipe : Recipe => decide
        (∃ function ∈ (Node.script recipe.script).preorder.filterMap Node.function?,
          ∃ assign ∈ recipe.dueAssigns function,
            Violation.found .nonLocalVariable assign.pos [assign.name] ∉ recipe.localViolations)) =
              true := by
    decide +kernel
  obtain ⟨recipe, read, holds⟩ := exists_of_any missed
  obtain ⟨function, declared, assign, found, unreported⟩ := of_decide_eq_true holds
  obtain ⟨node, visited, same⟩ := List.mem_filterMap.mp declared
  obtain rfl := Node.function?_eq_some.mp same
  obtain ⟨inside, undeclared, unassigned, custom⟩ := mem_dueAssigns.mp found
  exact ⟨recipe, function, assign, read, visited, inside, undeclared, unassigned,
    custom, unreported⟩

end Recipe
end RecipeLint
