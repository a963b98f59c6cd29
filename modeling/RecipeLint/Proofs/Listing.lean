import RecipeLint.Proofs.Comments
import RecipeLint.Proofs.Order

/-!
# The order in which recipes list things

A recipe lists the comments, assignments and functions of its top level as a walk over the tree
comes to them.  Where none of them stands in a redirection, a here-document, an option of a
declaration or in backquotes, each list is in the order of the text, and so the first and last
function are what their names say.  A command holds its redirections behind its arguments, however,
and a here-document comes with its redirection, so what stands in one of these may be listed out of
order. -/

namespace RecipeLint

namespace Node

/-- The nodes at the top level below fields with other seats than those given, repetitions
included. -/
def astray (keep : Seat → Bool) (root : Node) : List Node :=
  (root.exposed.filter isOpen).flatMap fun node =>
    (node.below.filter fun child => !keep child.1).flatMap fun child => child.2.exposed

theorem exposed_eq (root : Node) :
    root.exposed = root ::
      if root.isOpen then root.below.flatMap fun child => child.2.exposed else [] := by
  have children : Descent.full.next root = root.below.map (·.2) := root.map_below.symm
  rw [exposed_eq_trail, Descent.trail_singleton, children, Descent.trail_eq_flatMap,
    List.flatMap_map]
  simp only [exposed_eq_trail]

theorem mem_astray {keep : Seat → Bool} {root node : Node} {child : Seat × Node}
    (opened : root.isOpen = true)
    (member : child ∈ root.below) (other : keep child.1 = false) (inside : node ∈ child.2.exposed) :
    node ∈ root.astray keep := by
  refine List.mem_flatMap.mpr ⟨root, List.mem_filter.mpr ⟨?_, opened⟩,
    List.mem_flatMap.mpr ⟨child, ?_, inside⟩⟩
  · rw [exposed_eq]
    exact List.mem_cons_self
  · exact List.mem_filter.mpr ⟨member, by simp [other]⟩

/-- What strays below a child strays below its parent. -/
theorem astray_child {keep : Seat → Bool} {root node : Node} {child : Seat × Node}
    (opened : root.isOpen = true)
    (member : child ∈ root.below) (stray : node ∈ child.2.astray keep) : node ∈
      root.astray keep := by
  unfold astray at stray ⊢
  obtain ⟨parent, inside, found⟩ := List.mem_flatMap.mp stray
  obtain ⟨reached, enters⟩ := List.mem_filter.mp inside
  refine List.mem_flatMap.mpr ⟨parent, List.mem_filter.mpr ⟨?_, enters⟩, found⟩
  rw [exposed_eq, if_pos opened]
  exact List.mem_cons_of_mem _ (List.mem_flatMap.mpr ⟨child, member, reached⟩)

/-- Among some trees, those with other seats may be left out if nothing is picked there. -/
theorem filterMap_flatMap_exposed {keep : Seat → Bool} {pick : Node → Option α} {roots : Roots}
    (same : ∀ root ∈ roots, keep root.1 = true →
      root.2.exposed.filterMap pick = ((Descent.seated keep).trail isOpen [root.2]).filterMap pick)
    (settled : ∀ root ∈ roots, keep root.1 = false → root.2.exposed.filterMap pick = []) :
    (roots.flatMap fun root => root.2.exposed).filterMap pick =
      ((Descent.seated keep).trail isOpen ((roots.filter fun root => keep root.1).map
        (·.2))).filterMap pick := by
  induction roots with
  | nil => rw [List.flatMap_nil, List.filter_nil, List.map_nil, Descent.trail]
  | cons root roots ih =>
      have later := ih (fun root member => same root (List.mem_cons_of_mem _ member))
        fun root member => settled root (List.mem_cons_of_mem _ member)
      rw [List.flatMap_cons, List.filterMap_append, later]
      cases kept : keep root.1 with
      | true =>
          rw [List.filter_cons, if_pos kept, List.map_cons, ← List.singleton_append,
            Descent.trail_append, List.filterMap_append, same root List.mem_cons_self kept]
      | false =>
          rw [List.filter_cons, kept, if_neg Bool.false_ne_true,
            settled root List.mem_cons_self kept, List.nil_append]

/-- If nothing that is picked strays, a walk that leaves out other seats picks as much. -/
theorem filterMap_exposed {keep : Seat → Bool} {pick : Node → Option α} (root : Node)
    (settled : ∀ node ∈ root.astray keep, pick node = none) :
    root.exposed.filterMap pick = ((Descent.seated keep).trail isOpen [root]).filterMap pick := by
  induction root using induction_children with
  | step root ih =>
      rw [exposed_eq, Descent.trail_singleton]
      cases opened : root.isOpen with
      | false => rfl
      | true =>
          have below := @filterMap_flatMap_exposed _ keep pick root.below
            (fun child member _ => ih child.2 (root.map_below ▸ List.mem_map_of_mem member)
              fun node stray =>
              settled node (astray_child opened member stray))
            fun child member other => List.filterMap_eq_nil_iff.mpr fun node inside =>
              settled node (mem_astray opened member other inside)
          rw [if_pos rfl, if_pos rfl, List.filterMap_cons, List.filterMap_cons, below]
          rfl

end Node

namespace Position

theorem le_of_before {first second : Position} (before : first.Before second) :
    first.le second = true := by
  simp only [le, Before, Bool.or_eq_true, Bool.and_eq_true, decide_eq_true_eq] at *
  omega

theorem le_refl (pos : Position) : pos.le pos = true := by
  simp [le]

/-- Each of the positions is in front of those behind it. -/
def Ascending (positions : List Position) : Prop :=
  positions.Pairwise fun first second => first.lt second = true

namespace Ascending

instance (positions : List Position) : Decidable (Ascending positions) :=
  inferInstanceAs (Decidable (positions.Pairwise _))

theorem of_pairwise {positions : List Position} (sorted : positions.Pairwise Before) :
    Ascending positions :=
  sorted.imp lt_iff_before.mpr

variable {values : List α} {place : α → Position}

theorem head_le (ascending : Ascending (values.map place)) :
    ∀ value ∈ values, ∃ first, values.head? = some first ∧
    (place first).le (place value) = true := by
  intro value member
  cases values with
  | nil => cases member
  | cons first values =>
      refine ⟨first, rfl, ?_⟩
      rcases List.mem_cons.mp member with rfl | later
      · exact le_refl _
      · exact le_of_before
          (lt_iff_before.mp (List.rel_of_pairwise_cons ascending (List.mem_map_of_mem later)))

theorem le_getLast (ascending : Ascending (values.map place)) :
    ∀ value ∈ values, ∃ last, values.getLast? = some last ∧
    (place value).le (place last) = true := by
  intro value member
  rcases List.eq_nil_or_concat values with rfl | ⟨front, last, split⟩
  · cases member
  · rw [List.concat_eq_append] at split
    subst split
    refine ⟨last, List.getLast?_concat, ?_⟩
    rw [Ascending, List.map_append] at ascending
    rcases List.mem_append.mp member with early | same
    · have before := (List.pairwise_append.mp ascending).2.2 _ (List.mem_map_of_mem early)
        (place last) (by simp)
      exact le_of_before (lt_iff_before.mp before)
    · rw [List.mem_singleton.mp same]
      exact le_refl _

end Ascending

end Position

/-- What is picked at fewer nodes is picked in the same order. -/
theorem filterMap_sublist {nodes : List Node} {pick wider : Node → Option α}
    (found : ∀ node value, pick node = some value → wider node = some value) :
    (nodes.filterMap pick).Sublist (nodes.filterMap wider) := by
  induction nodes with
  | nil => exact List.nil_sublist _
  | cons node nodes ih =>
      cases here : pick node with
      | some value =>
          rw [List.filterMap_cons_some here, List.filterMap_cons_some (found node value here)]
          exact ih.cons_cons value
      | none =>
          rw [List.filterMap_cons_none here, ← List.singleton_append, List.filterMap_append]
          exact ih.trans (List.sublist_append_right _ _)

namespace Node

/-- What does not stray is listed in the order of the text. -/
theorem ascending_exposed {keep : Seat → Bool} {mark : Node → Option Position}
    {pick : Node → Option α}
    {place : α → Position} {root : Node}
    (sorted : ((Descent.seated keep).gather mark [root]).Pairwise Position.Before)
    (marks : ∀ node value, pick node = some value → mark node = some (place value)) :
    Position.Ascending (((root.exposed.filterMap pick).map place).filter
      (· ∉ ((root.astray keep).filterMap pick).map place)) := by
  have covers : ∀ node ∈ root.astray keep, ∀ value, pick node = some value →
      place value ∈ ((root.astray keep).filterMap pick).map place :=
    fun node astray value picked =>
      List.mem_map_of_mem (List.mem_filterMap.mpr ⟨node, astray, picked⟩)
  generalize ((root.astray keep).filterMap pick).map place = stray at covers
  rw [List.map_filterMap, List.filter_filterMap, filterMap_exposed root fun node astray => ?_]
  · have wider (node : Node) (pos : Position) (found : ((pick node).map place).filter (· ∉ stray) =
      some pos) :
        mark node = some pos := by
      obtain ⟨mapped, -⟩ := Option.filter_eq_some_iff.mp found
      obtain ⟨value, picked, rfl⟩ := Option.map_eq_some_iff.mp mapped
      exact marks node value picked
    exact .of_pairwise
      (sorted.sublist
        ((filterMap_sublist wider).trans ((Descent.trail_sublist [root]).filterMap mark)))
  · refine Option.filter_eq_none_iff.mpr fun pos mapped => ?_
    obtain ⟨value, picked, rfl⟩ := Option.map_eq_some_iff.mp mapped
    simpa using covers node astray value picked

end Node

namespace Script

/-- What is found in a script is found in its items before here-documents are put in place. -/
theorem gather_items {keep : Seat → Bool} {pick : Node → Option α} {bodies : Bodies} (name : String)
    (items : List Item) (placed : keep .placed = true) (shut : keep .sealed = false)
    (same : ∀ node, pick (node.place bodies) = pick node)
    (skips : ∀ script, pick (.script script) = none) :
    (Descent.seated keep).gather pick [.script { name, items := placeItems bodies items }] =
      (Descent.seated keep).gather pick (items.map Item.node) := by
  have below : (Node.script { name, items := placeItems bodies items }).below =
      .of .placed ((placeItems bodies items).map Item.node) :=
    Roots.ofFields_many ..
  have next : (Descent.seated keep).next (.script { name, items := placeItems bodies items }) =
      items.map fun item => item.node.place bodies := by
    change (List.filter _ (Node.below _)).map _ = _
    rw [below, Roots.filter_of keep, placed, if_pos rfl, Roots.map_of, placeItems_eq_map,
      List.map_map]
    exact List.map_congr_left fun item _ => item.node_place bodies
  rw [Descent.gather_singleton, skips, next]
  exact Descent.gather_map_congr fun item _ => Descent.gather_place shut same item.node

variable {name : String} {text : List Char} {script : Script}

/-- What is read comes in the order of the text. -/
theorem marks_sorted {rounds depth : Nat} (read : parseWithin rounds depth name text = .ok script) :
    (Node.marks [.script script]).Pairwise Position.Before := by
  obtain ⟨items, state, -, rfl, built⟩ := parseWithin_built read
  rw [Node.marks, gather_items name items rfl rfl (Node.mark?_place state.bodies) fun _ => rfl]
  refine (List.pairwise_append.mp built.declared.sorted).1.sublist ?_
  exact Roots.marks_sublist_of_placed _

theorem notes_sorted {rounds depth : Nat} (read : parseWithin rounds depth name text = .ok script) :
    (Node.notes [.script script]).Pairwise Position.Before := by
  obtain ⟨items, state, -, rfl, built⟩ := parseWithin_built read
  have keeps : Watch.comments.Keeps (.ofText text .start) := ⟨.nil, nofun⟩
  rw [Node.notes, gather_items name items rfl rfl (Node.note?_place state.bodies) fun _ => rfl]
  refine (List.pairwise_append.mp (built.commented keeps).sorted).1.sublist ?_
  rw [Watch.comments_built, Roots.notes_of_placed]
  exact List.Sublist.refl _

end Script

namespace Recipe

/-- The assignments at the top level that stand in redirections, here-documents, options of
declarations or backquotes. -/
def strayAssigns (recipe : Recipe) : List Assign :=
  ((Node.script recipe.script).astray Seat.ordered).filterMap Node.assign?

/-- The functions at the top level that are declared in such places. -/
def strayFunctions (recipe : Recipe) : List Function :=
  ((Node.script recipe.script).astray Seat.ordered).filterMap Node.function?

/-- The comments at the top level that stand in such places or in an index. -/
def strayComments (recipe : Recipe) : List Comment :=
  ((Node.script recipe.script).astray Seat.isPlaced).filterMap Node.comment?

variable {name : String} {text : List Char} {limit : NestingLimit} {recipe : Recipe}

theorem exists_script (read : parse name text limit = .ok recipe) :
    ∃ script, Script.parse name text limit = .ok script ∧ recipe = ofScript script := by
  unfold parse at read
  cases run : Script.parse name text limit with
  | error =>
    rw [run] at read
    cases read
  | ok script =>
    rw [run] at read
    cases read
    exact ⟨script, rfl, rfl⟩

theorem assigns_ascending (read : parse name text limit = .ok recipe) :
    Position.Ascending
      ((recipe.assigns.map Assign.pos).filter (· ∉ recipe.strayAssigns.map Assign.pos)) := by
  obtain ⟨script, run, rfl⟩ := exists_script read
  rw [ofScript_assigns]
  refine Node.ascending_exposed (Script.marks_sorted run) fun node it found => ?_
  cases node with
  | assign => exact congrArg (Option.map Assign.pos) found
  | _ => cases found

theorem functions_ascending (read : parse name text limit = .ok recipe) :
    Position.Ascending
      ((recipe.functions.map Function.pos).filter
        (· ∉ recipe.strayFunctions.map Function.pos)) := by
  obtain ⟨script, run, rfl⟩ := exists_script read
  rw [ofScript_functions]
  refine Node.ascending_exposed (Script.marks_sorted run) fun node it found => ?_
  cases node with
  | command command => cases command with
    | function => exact congrArg (Option.map Function.pos) found
    | _ => cases found
  | _ => cases found

theorem comments_ascending (read : parse name text limit = .ok recipe) :
    Position.Ascending
      ((recipe.comments.map Comment.pos).filter (· ∉ recipe.strayComments.map Comment.pos)) := by
  obtain ⟨script, run, rfl⟩ := exists_script read
  rw [ofScript_comments]
  exact Node.ascending_exposed (Script.notes_sorted run) fun node it found =>
    congrArg (Option.map Comment.pos) found

/-- A recipe lists in the order of the text what does not stray.  So where no assignment strays, all
of them are in order and the first one is the earliest.  Where no function strays, the same goes for
functions, and the first and the last one have the least and the greatest position.  Where no
comment strays, all comments are in order. -/
theorem lists_ascending (read : parse name text limit = .ok recipe) :
    (Position.Ascending ((recipe.assigns.map Assign.pos).filter
      (· ∉ recipe.strayAssigns.map Assign.pos)) ∧
      Position.Ascending
        ((recipe.functions.map Function.pos).filter (· ∉ recipe.strayFunctions.map Function.pos)) ∧
        Position.Ascending
          ((recipe.comments.map Comment.pos).filter (· ∉ recipe.strayComments.map Comment.pos))) ∧
      (recipe.strayAssigns = [] → Position.Ascending (recipe.assigns.map Assign.pos) ∧
        ∀ it ∈ recipe.assigns, ∃ first, recipe.assigns.head? = some first ∧
        first.pos.le it.pos = true) ∧
      (recipe.strayFunctions = [] → Position.Ascending (recipe.functions.map Function.pos) ∧
        ∀ it ∈ recipe.functions,
          (∃ first, recipe.firstFunction? = some first ∧ first.pos.le it.pos = true) ∧
            ∃ last, recipe.lastFunction? = some last ∧ it.pos.le last.pos = true) ∧
      (recipe.strayComments = [] → Position.Ascending (recipe.comments.map Comment.pos)) := by
  have whole {listed stray : List Position} (none : stray = [])
      (ascending : Position.Ascending (listed.filter (· ∉ stray))) : Position.Ascending listed := by
    rwa [none, List.filter_eq_self.mpr (by simp)] at ascending
  have assigns := assigns_ascending read
  have functions := functions_ascending read
  have comments := comments_ascending read
  refine ⟨⟨assigns, functions, comments⟩, fun none => ?_, fun none => ?_, fun none =>
    whole (by rw [none]; rfl) comments⟩
  · have ascending := whole (by rw [none]; rfl) assigns
    exact ⟨ascending, ascending.head_le⟩
  · have ascending := whole (by rw [none]; rfl) functions
    exact ⟨ascending, fun it member =>
      ⟨ascending.head_le it member, ascending.le_getLast it member⟩⟩

/-- Assignments behind a redirection and in an index, functions apart, and a comment that waits for
the list of statements behind it. -/
theorem lists_ascending_index : ∃ recipe,
    parse ""
      "x=1 >out # c\nf() \x7b y=2; \x7d && # d\n\x7b $\x7ba[$(z=3)]\x7d; \x7d\ng() ( : )\n".toList =
        .ok recipe ∧
      recipe.strayAssigns = [] ∧ recipe.strayFunctions = [] ∧ recipe.strayComments = [] ∧
        recipe.assigns.map Assign.name = ["x", "z"] ∧ recipe.functions.map Function.name =
          ["f", "g"] ∧
          recipe.comments.length = 2 ∧ Position.Ascending (recipe.assigns.map Assign.pos) ∧
            Position.Ascending (recipe.functions.map Function.pos) ∧
              Position.Ascending (recipe.comments.map Comment.pos) := by
  obtain ⟨recipe, read, seen⟩ := @Script.exists_of_map _ _ (parse ""
      "x=1 >out # c\nf() \x7b y=2; \x7d && # d\n\x7b $\x7ba[$(z=3)]\x7d; \x7d\ng() ( : )\n".toList)
    (fun recipe =>
      ((recipe.strayAssigns.isEmpty, recipe.strayFunctions.isEmpty, recipe.strayComments.isEmpty),
      recipe.assigns.map Assign.name, recipe.functions.map Function.name, recipe.comments.length))
    ((true, true, true), ["x", "z"], ["f", "g"], 2) (by decide +kernel)
  simp only [Prod.mk.injEq, List.isEmpty_iff] at seen
  obtain ⟨⟨noAssigns, noFunctions, noComments⟩, assigns, functions, comments⟩ := seen
  obtain ⟨-, early, first, held⟩ := lists_ascending read
  exact ⟨recipe, read, noAssigns, noFunctions, noComments, assigns, functions, comments,
    (early noAssigns).1,
    (first noFunctions).1, held noComments⟩

/-- What stands in a here-document is listed with its redirection, in front of what stands on the
same line behind it, and so the last function comes first. -/
theorem lists_heredoc_first : ∃ recipe,
    parse "" "cat <<E; x=1; f() \x7b :; \x7d # c\n$(y=2; g() \x7b :; \x7d # d\n)\nE\n".toList =
      .ok recipe ∧
      recipe.assigns.map Assign.pos = [⟨2, 3⟩, ⟨1, 10⟩] ∧
      ¬Position.Ascending (recipe.assigns.map Assign.pos) ∧
        recipe.functions.map Function.pos = [⟨2, 8⟩, ⟨1, 15⟩] ∧
          ¬Position.Ascending (recipe.functions.map Function.pos) ∧
            recipe.firstFunction?.map Function.pos = some ⟨2, 8⟩ ∧
              recipe.comments.map Comment.pos = [⟨2, 19⟩, ⟨1, 26⟩] ∧
                ¬Position.Ascending (recipe.comments.map Comment.pos) := by
  obtain ⟨recipe, read, seen⟩ := @Script.exists_of_map _ _ (parse ""
      "cat <<E; x=1; f() \x7b :; \x7d # c\n$(y=2; g() \x7b :; \x7d # d\n)\nE\n".toList)
    (fun recipe => (recipe.assigns.map Assign.pos, recipe.functions.map Function.pos,
      recipe.firstFunction?.map Function.pos, recipe.comments.map Comment.pos))
    ([⟨2, 3⟩, ⟨1, 10⟩], [⟨2, 8⟩, ⟨1, 15⟩], some ⟨2, 8⟩, [⟨2, 19⟩, ⟨1, 26⟩]) (by decide +kernel)
  simp only [Prod.mk.injEq] at seen
  obtain ⟨assigns, functions, first, comments⟩ := seen
  refine ⟨recipe, read, assigns, ?_, functions, ?_, first, comments, ?_⟩
  · rw [assigns]
    decide
  · rw [functions]
    decide
  · rw [comments]
    decide

end Recipe

end RecipeLint
