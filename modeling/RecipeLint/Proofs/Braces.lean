import RecipeLint.Proofs.Seam.Braces
import RecipeLint.Proofs.Selection
import RecipeLint.Proofs.Trees

/-!
# Leaving out needless braces

Where the check of parameters reports braces as needless, the text without them is read as the same
tree, with that parameter written without braces and the rest of its line two columns to the left.
-/

namespace RecipeLint

/-! ## Nodes of a changed tree -/

/-- Changes a script. -/
def Script.recast (change : Change) (script : Script) : Script where
  name := script.name
  items := recastItems change script.items

namespace Node

def recast (change : Change) : Node → Node
  | .script it => .script (it.recast change)
  | .comment it => .comment { it with pos := change.place it.pos }
  | .stmt it => .stmt (it.recast change)
  | .command it => .command (it.recast change)
  | .range it => .range (it.recast change)
  | .caseItem it => .caseItem (it.recast change)
  | .assign it => .assign (it.recast change)
  | .redirect it => .redirect (it.recast change)
  | .word it => .word (it.recast change)
  | .part it => .part (it.recast change)
  | .operation it => .operation (it.recast change)

variable {change : Change}

/-- The nodes below a changed node are the changed ones. -/
theorem fields_recast (node : Node) :
    (node.recast change).fields = node.fields.map (Field.change fun _ => recast change) := by
  have item (it : Item) : it.node.recast change = (it.recast change).node := by cases it <;> rfl
  cases node with
  | comment => rfl
  | script it | stmt it | caseItem it | redirect it | word it =>
      cases it
      rw [recast]
      simp [Script.recast, Stmt.recast, CaseItem.recast, Redirect.recast, Word.recast, fields, item]
        <;> rfl
  | command it =>
      cases it <;> rw [recast] <;> simp [Command.recast, fields, Command.fields, item] <;> rfl
  | range it => cases it <;> rw [recast] <;> simp [Range.recast, fields, Range.fields] <;> rfl
  | assign it =>
      rcases it with ⟨_, _, _, _, _ | _ | _ | _⟩ <;> rw [recast] <;>
        simp [Assign.recast, Value.recast, fields, Value.fields] <;> rfl
  | operation it =>
      cases it <;> rw [recast] <;> simp [Operation.recast, fields, Operation.fields] <;> rfl
  | part it =>
      cases it with
      | braced pos question name index operation =>
          cases operation with
          | none =>
              -- Only braces without an index are left out, so no field is lost with them.
              simp only [recast, Part.recast]
              split
              next lost =>
                simp only [Bool.and_eq_true, Option.isNone_iff_eq_none] at lost
                obtain ⟨⟨-, rfl⟩, -⟩ := lost
                rfl
              next => simp [fields, Part.fields, recastOperation, recast]
          | some operation =>
              rw [recast]
              cases operation <;> simp [Part.recast, fields, Part.fields] <;> rfl
      | _ =>
          rw [recast]
          simp [Part.recast, fields, Part.fields, item] <;> rfl

/-- A change that leaves a node as it is also leaves the nodes below it. -/
theorem recast_eq_of_mem_preorder {root node : Node} (same : root.recast change = root)
    (member : node ∈ root.preorder) : node.recast change = node := by
  have reached := mem_preorder.mp member
  induction reached with
  | root => exact same
  | @next parent child reached _ below ih =>
      have fields : parent.fields.map (Field.change fun _ => recast change) =
          parent.fields.map id := by
        rw [← fields_recast, ih (mem_preorder.mpr reached), List.map_id]
      obtain ⟨field, inside, rfl⟩ := List.mem_map.mp below
      exact congrArg Prod.snd (List.map_inj_left.mp fields field inside)

theorem part_mem_children {node : Node} {part : Part} (member : part ∈ node.adjacentParts) :
    .part part ∈ node.children := by
  unfold adjacentParts at member
  split at member <;> simp_all [children, fields, Part.fields, Field.many]

theorem part_mem_preorder {root node : Node} {part : Part} (member : node ∈ root.preorder)
    (inside : part ∈ node.adjacentParts) : .part part ∈ root.preorder :=
  mem_preorder.mpr (.next (mem_preorder.mp member) rfl (part_mem_children inside))

end Node

/-! ## Reports -/

theorem Chain.of_append {source : List Char} {front back : List Part} {next : Option Char}
    (chain : Chain source (front ++ back) next) : Chain source back next := by
  induction front with
  | nil => exact chain
  | cons part front ih => exact ih chain.2

/-- What the check of parameters reports. -/
theorem of_reported {script : Script} {pos : Position} {name : String}
    (reported : .found .trivialLongParamExp pos [name, name] ∈
      (Recipe.ofScript script).braceViolations) :
    ∃ node ∈ (Node.script script).preorder, ∃ front back,
      node.adjacentParts = front ++ .braced pos .value name none none :: back ∧
      .part (.braced pos .value name none none) ∈ (Node.script script).preorder ∧
      isLongNumber name = false ∧ (back.head?.bind Part.literal?).any extendsName = false := by
  unfold Recipe.braceViolations Script.violations at reported
  rw [Descent.collect_eq_flatMap, List.mem_flatMap] at reported
  obtain ⟨node, visited, reported⟩ := reported
  obtain ⟨front, _, _, back, shape, short, apart, same⟩ := exists_of_mem_braceViolations reported
  simp only [Violation.found, Violation.mk.injEq, Option.some.injEq, List.cons.injEq] at same
  obtain ⟨-, rfl, ⟨rfl, -⟩⟩ := same
  obtain ⟨root, same, reached⟩ := Descent.mem_trail.mp visited
  obtain rfl := List.mem_singleton.mp same
  have member := Node.mem_preorder.mpr reached
  refine ⟨node, member, front, back, shape, Node.part_mem_preorder member ?_, short, apart⟩
  rw [shape]
  exact List.mem_append_right _ List.mem_cons_self

namespace Script

variable {name : String} {front back parameter : List Char} {limit : NestingLimit} {script : Script}

/-- Braces that are reported as needless can be left out in front of what follows. -/
theorem trivial_of_reported (quiet : '\x60' ∉ front ++ (bracedText parameter ++ back))
    (read : parse name (front ++ (bracedText parameter ++ back)) limit = .ok script)
    (reported : .found .trivialLongParamExp (Position.start.along front)
      [String.ofList parameter, String.ofList parameter] ∈
        (Recipe.ofScript script).braceViolations) :
    Trivial parameter back := by
  obtain ⟨node, member, earlier, later, shape, inside, short, apart⟩ := of_reported reported
  have known : ∀ source ∈ (some (front ++ (bracedText parameter ++ back)) : Ground),
      '\x60' ∉ source ∧ source = front ++ (bracedText parameter ++ back) := by
    rintro _ ⟨⟩
    exact ⟨quiet, rfl⟩
  have complete := (parseWithin_reaches (fun source present => (known source present).1)
    fun source present => (known source present).2).1 script read
  have faithful {node : Node} (member : node ∈ (Node.script script).preorder) :=
    (Node.of_mem_preorder complete member).faithful _ rfl
  have named := (faithful inside).named
  simp only [Node.Named, String.toList_ofList] at named
  refine ⟨named, short, fun c follows => ?_⟩
  have chained := (faithful member).chained
  rw [shape] at chained
  by_contra extends_name
  rw [Bool.not_eq_false] at extends_name
  obtain ⟨rest, rfl⟩ := List.head?_eq_some_iff.mp follows
  have starts :=
    chained.of_append.1 c ⟨extends_name, _, _, rfl, rest, front, by simp [bracedText], rfl⟩
  cases later with
  | nil => cases starts
  | cons part later =>
      obtain ⟨text, literal, first⟩ := Option.bind_eq_some_iff.mp starts
      simp only [List.head?_cons, Option.bind_some, literal, Option.any_some, extendsName, first,
        extends_name] at apart
      cases apart

/-- A tree in which a parameter stands in braces changes when it loses them. -/
theorem recast_fade_ne {brace : Brace} {parameter : String}
    (held : .part (.braced brace.pos .value parameter none none) ∈ (Node.script script).preorder) :
    script.recast brace.fade ≠ script := by
  intro same
  have root : (Node.script script).recast brace.fade = .script script := congrArg Node.script same
  have part := Node.recast_eq_of_mem_preorder root held
  simp only [Node.recast, Node.part.injEq] at part
  have lost : (Part.braced brace.pos .value parameter none none).recast brace.fade =
      .simple _ parameter :=
    Part.recast_unbraced (decide_eq_true rfl) parameter
  cases lost.symm.trans part

/-- A text with a parameter in braces is read, and the parameter is a part of its tree; then the
text without the braces is read as the same tree but for them. -/
theorem parseWithin_unbraced {brace : Brace} {rounds rounds' depth : Nat}
    (trivial : Trivial brace.name back) (reaches : Position.start.along front = brace.pos)
    (quiet : '\x60' ∉ front ++ (bracedText brace.name ++ back))
    (unfolded : ¬['\\', '\n'] <:+: front ++ (bracedText brace.name ++ back))
    (short : (front ++ (bracedText brace.name ++ back)).length < rounds)
    (short' : (front ++ (simpleText brace.name ++ back)).length < rounds')
    (read : parseWithin rounds depth name (front ++ (bracedText brace.name ++ back)) = .ok script)
    (held : .part (.braced brace.pos .value (String.ofList brace.name) none none) ∈
      (Node.script script).preorder) :
    parseWithin rounds' depth name (front ++ (simpleText brace.name ++ back)) =
      .ok (script.recast brace.drop) := by
  have apart := brace.apart_start trivial reaches quiet unfolded short short'
  have started := brace.paired_inside back.length apart trivial
  rw [List.take_length] at started
  have follows := (brace.level_depth rounds rounds' depth).statements [] started
  rw [parseWithin_eq_conclude] at read ⊢
  obtain ⟨items, state, run, ended, rfl⟩ := conclude_ok read
  simp only [Cursor.ofText] at follows
  rw [run] at follows
  obtain ⟨phase, items₂, state', leads, reached, alike, paired⟩ := follows
  have placed := Seam.placeItems_alike paired.bodies alike
  cases leads with
  | stay =>
      obtain ⟨_, _, _, apart⟩ := paired.cursors
      obtain ⟨⟨rest, rfl⟩, -⟩ := (brace.seam rounds rounds').joint_mark (apart.ahead rfl)
      rw [apart.rest₁] at ended
      simp at ended
  | resume =>
      have ended₂ := (paired.rest_eq (by decide)).trans ended
      rw [reached (by decide)]
      simp only [conclude, ended₂, List.head?_nil, ← placed _ rfl, recast, recastItems_eq_map]
      rfl
  | lose =>
      refine absurd ?_ (recast_fade_ne held)
      have same : brace.fade.on (placeItems state.bodies items) =
          Change.none.on (placeItems state.bodies items) :=
        (placed brace.fade (.inr rfl)).trans (placed .none (.inl rfl)).symm
      have kept : Change.none.on (placeItems state.bodies items) = placeItems state.bodies items :=
        List.map_id'' Item.recast_none _
      simp only [recast, recastItems_eq_map]
      exact congrArg (Script.mk name) (same.trans kept)

/-- Where needless braces are reported, the text without them is read, and its tree differs from the
other one in nothing but positions and the parameter that has lost its braces. -/
theorem parse_unbraced {violations : List Violation}
    (quiet : '\x60' ∉ front ++ (bracedText parameter ++ back))
    (unfolded : ¬['\\', '\n'] <:+: front ++ (bracedText parameter ++ back))
    (read : parse name (front ++ (bracedText parameter ++ back)) limit = .ok script)
    (checked : Rule.paramExpansions.check (.ofScript script) = .ok violations)
    (reported : .found .trivialLongParamExp (Position.start.along front)
      [String.ofList parameter, String.ofList parameter] ∈ violations) :
    ∃ change : Change, (∀ pos, change.unbraced pos = true ↔ pos = Position.start.along front) ∧
      parse name (front ++ (simpleText parameter ++ back)) limit = .ok (script.recast change) := by
  cases checked
  obtain ⟨_, _, _, _, _, held, _⟩ := of_reported reported
  let brace : Brace :=
    { pos := Position.start.along front
      name := parameter
      counted := Position.along_counted Int.one_pos front }
  refine ⟨brace.drop, fun pos => decide_eq_true_iff, ?_⟩
  exact @parseWithin_unbraced _ _ _ _ brace _ _ _ (trivial_of_reported quiet read reported)
    rfl quiet
    unfolded (Nat.lt_succ_self _) (Nat.lt_succ_self _) read held

/-- A parameter in the index of another one, in the lines of a here-document. -/
theorem parse_unbraced_index : ∃ script violations,
    parse "" ("cat <<E\n$\x7bx[".toList ++ (bracedText ['1'] ++ "]\x7d\nE".toList)) = .ok script ∧
    Rule.paramExpansions.check (.ofScript script) = .ok violations ∧
    .found .trivialLongParamExp ⟨2, 5⟩ ["1", "1"] ∈ violations ∧
    ∃ change : Change, (∀ pos, change.unbraced pos = true ↔ pos = ⟨2, 5⟩) ∧
      parse "" ("cat <<E\n$\x7bx[".toList ++ (simpleText ['1'] ++ "]\x7d\nE".toList)) =
        .ok (script.recast change) := by
  have found :
    (parse "" ("cat <<E\n$\x7bx[".toList ++ (bracedText ['1'] ++ "]\x7d\nE".toList))).toOption.any
      (fun script => (Rule.paramExpansions.check (.ofScript script)).toOption.any
        (·.contains (.found .trivialLongParamExp ⟨2, 5⟩ ["1", "1"]))) = true := by
    decide +kernel
  obtain ⟨script, read, found⟩ := Recipe.exists_of_any found
  obtain ⟨violations, checked, found⟩ := Recipe.exists_of_any found
  have reported := List.contains_iff_mem.mp found
  have place : Position.start.along "cat <<E\n$\x7bx[".toList = ⟨2, 5⟩ := by decide
  refine ⟨script, violations, read, checked, reported, ?_⟩
  rw [← place] at reported ⊢
  exact parse_unbraced (by decide) (by decide +kernel) read checked reported

end Script
end RecipeLint
