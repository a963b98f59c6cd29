import Mathlib.Data.List.Induction
import Mathlib.Data.List.Nodup
import RecipeLint.Lint.Layout
import RecipeLint.Proofs.Classification
import RecipeLint.Proofs.Lineages

/-!
# Declarations at the top level

A recipe lists what lies in no function and in no export.  Among the functions that it lists, a name
stands for the last one declared under it: the table of functions has a place for every name, and
the declarations that do not get one are reported.  Both are followed by what one more declaration
changes. -/

namespace RecipeLint

/-! ## The top level -/

namespace Node

/-- The keyword of the declaration that a node is. -/
def declarator? : Node → Option Declarator
  | .command (.declaration _ declarator _ _) => some declarator
  | _ => none

theorem isOpen_iff {node : Node} :
    node.isOpen = true ↔ node.kind ≠ .funcDecl ∧ node.declarator? ≠ some .exported := by
  cases node with
  | command it =>
      cases it with
      | declaration _ declarator =>
          cases declarator <;> simp [isOpen, kind, Command.kind, declarator?]
      | _ => simp [isOpen, kind, Command.kind, declarator?]
  | part it => cases it <;> simp [isOpen, kind, Part.kind, declarator?]
  | range it => cases it <;> simp [isOpen, kind, Range.kind, declarator?]
  | operation it => cases it <;> simp [isOpen, kind, Operation.kind, declarator?]
  | _ => simp [isOpen, kind, declarator?]

end Node

namespace Lineage

/-- Whether a node lies in no function and in no export. -/
def AtTop (lineage : Lineage) : Prop :=
  ∀ node ∈ lineage.above, node.kind ≠ .funcDecl ∧ node.declarator? ≠ some .exported

instance : DecidablePred AtTop :=
  fun lineage => inferInstanceAs (Decidable (∀ node ∈ lineage.above, _))

theorem kept_isOpen_iff (lineage : Lineage) : lineage.Kept (fun parent _ => parent.isOpen) ↔
    lineage.AtTop := by
  obtain ⟨node, above⟩ := lineage
  induction above generalizing node with
  | nil => simp [kept_root, AtTop]
  | cons parent above ih =>
      rw [kept_child, ih, Node.isOpen_iff, AtTop, AtTop, List.forall_mem_cons]

end Lineage

/-- The nodes at the top level of a tree, parents before children. -/
def Node.top (root : Node) : List Node :=
  (root.lineages.filter (Lineage.AtTop ·)).map Lineage.node

theorem Node.exposed_eq_top (root : Node) : root.exposed = root.top := by
  have next (node : Node) : (if node.isOpen then Descent.full.next node else []) =
      node.children.filter fun _ => node.isOpen := by
    cases node.isOpen with
    | true => exact (List.filter_true _).symm
    | false => exact (List.filter_false _).symm
  rw [exposed_eq_trail, trail_eq_lineages next, top]
  simp only [Lineage.kept_isOpen_iff]

/-! ## The last declaration of a name -/

namespace Function

variable {function : Function} (functions : List Function)

/-- The function is the last one of the list that is declared under its name. -/
def IsLast (functions : List Function) (function : Function) : Prop :=
  ∃ front back, functions = front ++ function :: back ∧ ∀ other ∈ back, other.name ≠ function.name

/-- Whether an earlier function of the list has the name of the one at a place. -/
def isRepeated (functions : List Function) (entry : Function × Nat) : Bool :=
  (functions.take entry.2).any (·.name = entry.1.name)

/-- The functions that have an earlier one of the same name, or with `repeated` false those that
have none. -/
def selected (repeated : Bool) (functions : List Function) : List Function :=
  (functions.zipIdx.filter fun entry => isRepeated functions entry = repeated).map Prod.fst

/-- A function put behind the others is selected by their names, and changes nothing for them. -/
theorem selected_concat (repeated : Bool) (functions : List Function) (function : Function) :
    selected repeated (functions ++ [function]) =
      selected repeated functions ++
        if functions.any (·.name = function.name) = repeated then [function] else [] := by
  have last : isRepeated (functions ++ [function]) (function, functions.length) =
      functions.any (·.name = function.name) := by
    rw [isRepeated, List.take_left]
  have others : (functions.zipIdx.filter fun entry => isRepeated (functions ++ [function]) entry =
    repeated) =
      functions.zipIdx.filter fun entry => isRepeated functions entry = repeated := by
    refine List.filter_congr fun entry member => ?_
    have inside : entry.2 < functions.length := (List.mem_zipIdx' member).1
    rw [isRepeated, isRepeated, List.take_append_of_le_length (Nat.le_of_lt inside)]
  rw [selected, List.zipIdx_append, List.filter_append, others, List.map_append, Nat.zero_add,
    List.zipIdx_singleton, List.filter_cons, List.filter_nil, last, selected]
  simp only [decide_eq_true_eq]
  split <;> rfl

theorem length_selected :
    (selected true functions).length + (selected false functions).length = functions.length := by
  induction functions using List.reverseRecOn with
  | nil => rfl
  | append_singleton functions function ih =>
      rw [selected_concat, selected_concat, List.length_append, List.length_append,
        List.length_append]
      cases functions.any (·.name = function.name) <;> simp <;> omega

theorem tabulate_concat (function : Function) :
    tabulate (functions ++ [function]) = function.insert (tabulate functions) :=
  List.foldl_append

/-- A new name comes behind the others. -/
theorem map_name_insert (function : Function) (table : List Function) :
    (function.insert table).map name =
      table.map name ++
        if table.any (·.name = function.name) = false then [function.name] else [] := by
  induction table with
  | nil => rfl
  | cons other table ih =>
      by_cases same : other.name = function.name
      · simp [insert, same]
      · simp [insert, same, ih]

theorem any_name_tabulate (name : String) :
    (tabulate functions).any (·.name = name) = functions.any (·.name = name) := by
  have inserted (function : Function) (table : List Function) :
      (function.insert table).any (·.name = name) =
        (table.any (·.name = name) || decide (function.name = name)) := by
    induction table with
    | nil => simp [insert]
    | cons other table ih =>
        by_cases same : other.name = function.name
        · simp [insert, same, Bool.or_comm]
        · simp [insert, same, ih, Bool.or_assoc]
  induction functions using List.reverseRecOn with
  | nil => rfl
  | append_singleton functions function ih =>
      rw [tabulate_concat, inserted, ih, List.any_append, List.any_cons,
        List.any_nil, Bool.or_false]

/-- The table has the names in the order of their first declarations. -/
theorem map_name_tabulate :
    (tabulate functions).map name = (selected false functions).map name := by
  induction functions using List.reverseRecOn with
  | nil => rfl
  | append_singleton functions function ih =>
      rw [tabulate_concat, map_name_insert, any_name_tabulate, ih, selected_concat, List.map_append]
      split <;> rfl

theorem nodup_map_name_insert {table : List Function}
    (distinct : (table.map name).Nodup) : ((function.insert table).map name).Nodup := by
  rw [map_name_insert]
  split
  · next new =>
      refine List.nodup_append.mpr ⟨distinct, List.pairwise_singleton _ _, ?_⟩
      rintro name listed _ last rfl
      obtain ⟨other, member, rfl⟩ := List.mem_map.mp listed
      simp only [List.any_eq_false, decide_eq_true_eq] at new
      exact new other member (List.mem_singleton.mp last)
  · rwa [List.append_nil]

theorem nodup_map_name_tabulate :
    ((tabulate functions).map name).Nodup := by
  induction functions using List.reverseRecOn with
  | nil => exact List.nodup_nil
  | append_singleton functions function ih =>
      rw [tabulate_concat]
      exact nodup_map_name_insert ih

theorem mem_insert {other : Function} {table : List Function}
    (distinct : (table.map name).Nodup) :
    other ∈ function.insert table ↔ other = function ∨ other ∈ table ∧
    other.name ≠ function.name := by
  induction table with
  | nil => simp [insert]
  | cons first table ih =>
      obtain ⟨new, distinct⟩ := List.nodup_cons.mp distinct
      by_cases same : first.name = function.name
      · have others (member : other ∈ table) : other.name ≠ function.name := by
          intro again
          exact new (List.mem_map.mpr ⟨other, member, again.trans same.symm⟩)
        rw [insert, if_pos same, List.mem_cons, List.mem_cons]
        refine or_congr_right ⟨fun member => ⟨.inr member, others member⟩, ?_⟩
        rintro ⟨rfl | member, differs⟩
        · exact absurd same differs
        · exact member
      · rw [insert, if_neg same, List.mem_cons, ih distinct, List.mem_cons, or_left_comm]
        refine or_congr_right ?_
        rw [or_and_right]
        refine or_congr_left ⟨fun first => ⟨first, first ▸ same⟩, And.left⟩

theorem isLast_concat {functions : List Function} {other : Function} :
    IsLast (functions ++ [function]) other ↔
      other = function ∨ IsLast functions other ∧ other.name ≠ function.name := by
  constructor
  · rintro ⟨front, back, split, later⟩
    rcases List.eq_nil_or_concat back with rfl | ⟨back, last, rfl⟩
    · exact .inl (List.singleton_inj.mp (List.append_inj' split rfl).2).symm
    · rw [List.concat_eq_append, ← List.cons_append, ← List.append_assoc] at split
      obtain ⟨rfl, same⟩ := List.append_inj' split rfl
      obtain rfl := List.singleton_inj.mp same
      refine .inr ⟨⟨front, back, rfl, fun other member => later other (by simp [member])⟩, ?_⟩
      exact Ne.symm (later function (by simp))
  · rintro (rfl | ⟨⟨front, back, rfl, later⟩, differs⟩)
    · exact ⟨functions, [], rfl, nofun⟩
    · refine ⟨front, back ++ [function], by simp, ?_⟩
      intro further member
      rcases List.mem_append.mp member with inside | last
      · exact later further inside
      · exact List.mem_singleton.mp last ▸ Ne.symm differs

/-- The table holds exactly the last declarations. -/
theorem mem_tabulate {functions : List Function} :
    function ∈ tabulate functions ↔ IsLast functions function := by
  induction functions using List.reverseRecOn with
  | nil => simp [tabulate, IsLast]
  | append_singleton functions last ih =>
      rw [tabulate_concat, mem_insert (nodup_map_name_tabulate functions), isLast_concat, ih]

end Function

namespace Recipe

variable {recipe : Recipe}

theorem mem_table {function : Function} :
    function ∈ recipe.table ↔ Function.IsLast recipe.functions function := by
  rw [recipe.table_eq, Function.mem_tabulate]

theorem function?_eq_some_iff {name : String} {function : Function} :
    recipe.function? name = some function ↔
      function.name = name ∧ Function.IsLast recipe.functions function := by
  rw [← mem_table, function?]
  constructor
  · intro found
    exact ⟨by simpa using List.find?_some found, List.mem_of_find?_eq_some found⟩
  · rintro ⟨rfl, member⟩
    have some : (recipe.table.find? (·.name = function.name)).isSome := by
      rw [List.find?_isSome]
      exact ⟨function, member, decide_eq_true rfl⟩
    obtain ⟨other, found⟩ := Option.isSome_iff_exists.mp some
    have distinct : (recipe.table.map Function.name).Nodup :=
      recipe.table_eq ▸ Function.nodup_map_name_tabulate recipe.functions
    have named : other.name = function.name := by simpa using List.find?_some found
    have same : other = function :=
      List.inj_on_of_nodup_map distinct (List.mem_of_find?_eq_some found) member named
    rw [found, same]

/-- What one more declaration adds to the repeated ones. -/
theorem repeatedFunctions_concat (seen : List String) (functions : List Function)
    (function : Function) :
    repeatedFunctions seen (functions ++ [function]) = repeatedFunctions seen functions ++
      if function.name ∈ seen ∨ functions.any (·.name = function.name) then
        [.found .duplicateFuncDecl function.pos [function.name]]
      else [] := by
  induction functions generalizing seen with
  | nil => simp [repeatedFunctions]
  | cons first functions ih =>
      have known : (function.name ∈ first.name :: seen ∨ functions.any (·.name = function.name)) ↔
          (function.name ∈ seen ∨ (first :: functions).any (·.name = function.name)) := by
        rw [List.mem_cons, List.any_cons, Bool.or_eq_true, decide_eq_true_eq,
          @eq_comm _ function.name first.name, or_assoc, or_left_comm]
      rw [List.cons_append, repeatedFunctions, ih, repeatedFunctions]
      simp only [known]
      split <;> rfl

theorem repeatedFunctions_eq (functions : List Function) : repeatedFunctions [] functions =
    (Function.selected true functions).map fun function =>
      .found .duplicateFuncDecl function.pos [function.name] := by
  induction functions using List.reverseRecOn with
  | nil => rfl
  | append_singleton functions function ih =>
      rw [repeatedFunctions_concat, Function.selected_concat, List.map_append, ih]
      simp only [List.not_mem_nil, false_or]
      split <;> rfl

/-- A recipe lists the assignments, comments and functions of the top level in the order of the
tree.  Its table has every name once, by first declarations, and holds the last declaration of each.
Exactly the declarations with an earlier one of the same name are reported, in their order, which
are those that the table has no place for. -/
theorem lists_exact (script : Script) :
    (Node.script script).lineages.map Lineage.node = (Node.script script).preorder ∧
    ((ofScript script).assigns = (Node.script script).top.filterMap Node.assign? ∧
      (ofScript script).comments = (Node.script script).top.filterMap Node.comment? ∧
        (ofScript script).functions = (Node.script script).top.filterMap Node.function?) ∧
    (((ofScript script).table.map Function.name).Nodup ∧
      (ofScript script).table.map Function.name =
          (Function.selected false (ofScript script).functions).map Function.name ∧
        (∀ function, function ∈ (ofScript script).table ↔
          Function.IsLast (ofScript script).functions function) ∧
          ∀ name function, (ofScript script).function? name = some function ↔
            function.name = name ∧ function ∈ (ofScript script).table) ∧
    (ofScript script).duplicateViolations = (Function.selected true (ofScript script).functions).map
      (fun function => .found .duplicateFuncDecl function.pos [function.name]) ∧
    (ofScript script).duplicateViolations.length + (ofScript script).table.length =
      (ofScript script).functions.length := by
  have top := (Node.script script).exposed_eq_top
  have table := (ofScript script).table_eq
  have names : (ofScript script).table.map Function.name =
      (Function.selected false (ofScript script).functions).map Function.name := by
    rw [table, Function.map_name_tabulate]
  have reported := repeatedFunctions_eq (ofScript script).functions
  refine ⟨Node.map_node_lineages _, ⟨?_, ?_, ?_⟩, ⟨?_, names, fun function => mem_table, ?_⟩,
    reported, ?_⟩
  · rw [← top, ofScript_assigns]
  · rw [← top, ofScript_comments]
  · rw [← top, ofScript_functions]
  · rw [table]
    exact Function.nodup_map_name_tabulate _
  · intro name function
    rw [function?_eq_some_iff, mem_table]
  · have sizes : (ofScript script).table.length =
        (Function.selected false (ofScript script).functions).length := by
      simpa using congrArg List.length names
    rw [duplicateViolations, reported, List.length_map, sizes, Function.length_selected]

end Recipe

end RecipeLint
