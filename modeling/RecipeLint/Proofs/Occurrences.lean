import Mathlib.Data.List.Lex
import RecipeLint.Lint.Dialect
import RecipeLint.Proofs.Nodes
import RecipeLint.Proofs.Traversal

/-!
# Where parameters occur

A node of a tree is known by the way that leads to it: the number of each child on that way.  In
this sense every part of a word, of double quotes or of an arithmetic expansion has one owner, and
the check for needless braces examines each expansion of a parameter once, in the order of the
owners and of the parts of each. -/

namespace RecipeLint

theorem pairwise_zipIdx (values : List α) : values.zipIdx.Pairwise fun first second =>
    first.2 < second.2 := by
  refine List.pairwise_map.mp ?_
  rw [List.zipIdx_map_snd]
  exact List.pairwise_lt_range' ..

/-! ## Ways through a tree -/

/-- A node of a tree with the way that leads to it. -/
structure Locus where
  /-- The numbers of the children on the way, the first one below the root. -/
  path : List Nat
  node : Node

namespace Node

/-- The node that a way leads to. -/
def at? : List Nat → Node → Option Node
  | [], node => some node
  | index :: path, node => node.children[index]?.bind (at? path)

theorem at?_concat (path : List Nat) (index : Nat) (node : Node) :
    node.at? (path ++ [index]) = (node.at? path).bind fun parent => parent.children[index]? := by
  induction path generalizing node with
  | nil =>
      simp only [List.nil_append, at?, Option.bind_some]
      cases node.children[index]? <;> rfl
  | cons first path ih =>
      simp only [List.cons_append, at?]
      cases node.children[first]? with
      | none => rfl
      | some child => exact ih child

/-- A node and the nodes below it, with the given way in front of theirs. -/
def lociBelow (path : List Nat) (node : Node) : List Locus :=
  { path, node } :: node.children.attach.zipIdx.flatMap fun entry =>
    lociBelow (path ++ [entry.2]) entry.1.1
termination_by node.weight
decreasing_by exact weight_lt_of_mem_children entry.1.2

/-- A node and all nodes below it, parents before children. -/
def loci (root : Node) : List Locus :=
  root.lociBelow []

theorem lociBelow_eq (path : List Nat) (node : Node) :
    node.lociBelow path =
      { path, node } :: node.children.zipIdx.flatMap fun entry =>
        entry.1.lociBelow (path ++ [entry.2]) := by
  have children : node.children.zipIdx = node.children.attach.zipIdx.map
      (Prod.map Subtype.val id) := by
    rw [← List.zipIdx_map, List.attach_map_subtype_val]
  rw [lociBelow, children, List.flatMap_map]
  rfl

theorem mem_lociBelow {locus : Locus} {node : Node} {path : List Nat} :
    locus ∈ node.lociBelow path ↔ ∃ down, locus.path = path ++ down ∧
    node.at? down = some locus.node := by
  induction node using induction_children generalizing path with
  | step node ih =>
      rw [lociBelow_eq, List.mem_cons, List.mem_flatMap]
      constructor
      · rintro (rfl | ⟨⟨child, index⟩, member, below⟩)
        · exact ⟨[], (List.append_nil path).symm, rfl⟩
        · have found := List.mk_mem_zipIdx_iff_getElem?.mp member
          obtain ⟨down, way, reached⟩ := (ih child (List.mem_of_getElem? found)).mp below
          refine ⟨index :: down, by rw [way, List.append_assoc]; rfl, ?_⟩
          rw [at?, found]
          exact reached
      · rintro ⟨down, way, reached⟩
        cases down with
        | nil =>
            obtain ⟨_, _⟩ := locus
            cases reached
            cases way.trans (List.append_nil path)
            exact .inl rfl
        | cons index down =>
            obtain ⟨child, found, reached⟩ := Option.bind_eq_some_iff.mp reached
            refine .inr ⟨(child, index), List.mk_mem_zipIdx_iff_getElem?.mpr found, ?_⟩
            refine (ih child (List.mem_of_getElem? found)).mpr ⟨down, ?_, reached⟩
            rw [way, List.append_assoc]
            rfl

/-- The nodes of a tree are those that ways lead to. -/
theorem mem_loci {locus : Locus} {root : Node} : locus ∈ root.loci ↔ root.at? locus.path =
    some locus.node := by
  simp [loci, mem_lociBelow]

theorem map_node_lociBelow (path : List Nat) (node : Node) :
    (node.lociBelow path).map Locus.node = Descent.full.trail (fun _ => true) [node] := by
  induction node using induction_children generalizing path with
  | step node ih =>
      have below : node.children.zipIdx.flatMap
        (fun entry => (entry.1.lociBelow (path ++ [entry.2])).map Locus.node) =
          node.children.zipIdx.flatMap fun entry =>
            Descent.full.trail (fun _ => true) [entry.1] := by
        refine List.flatMap_congr fun entry member => ih entry.1 ?_ _
        exact List.mem_of_getElem? (List.mem_zipIdx_iff_getElem?.mp member)
      have first : node.children.zipIdx.flatMap
        (fun entry => Descent.full.trail (fun _ => true) [entry.1]) =
          node.children.flatMap fun child => Descent.full.trail (fun _ => true) [child] := by
        rw [← List.zipIdx_map_fst 0 node.children, List.flatMap_map, List.zipIdx_map_fst]
      rw [lociBelow_eq, List.map_cons, List.map_flatMap, below, first, Descent.trail_singleton,
        if_pos rfl]
      exact congrArg (node :: ·) (Descent.trail_eq_flatMap node.children).symm

/-- The nodes come in the order of a walk. -/
theorem map_node_loci (root : Node) : root.loci.map Locus.node = root.preorder := by
  rw [loci, map_node_lociBelow, preorder, Descent.collect_eq_flatMap, List.flatMap_singleton']

theorem pairwise_lociBelow (path : List Nat) (node : Node) :
    (node.lociBelow path).Pairwise fun first second => List.Lex (· < ·) first.path second.path := by
  induction node using induction_children generalizing path with
  | step node ih =>
      rw [lociBelow_eq, List.pairwise_cons, List.pairwise_flatMap]
      refine ⟨fun locus below => ?_, fun entry member => ?_, ?_⟩
      · obtain ⟨⟨child, index⟩, -, below⟩ := List.mem_flatMap.mp below
        obtain ⟨down, way, -⟩ := mem_lociBelow.mp below
        rw [way, List.append_assoc]
        simpa using List.Lex.append_left (· < ·) (List.Lex.nil (a := index) (l := down)) path
      · exact ih entry.1 (List.mem_of_getElem? (List.mem_zipIdx_iff_getElem?.mp member)) _
      · refine (pairwise_zipIdx node.children).imp
          fun {first second} before locus below other beyond => ?_
        obtain ⟨down, way, -⟩ := mem_lociBelow.mp below
        obtain ⟨down', way', -⟩ := mem_lociBelow.mp beyond
        rw [way, way', List.append_assoc, List.append_assoc]
        exact List.Lex.append_left _ (.rel before) path

end Node

/-! ## Parts and their owners -/

namespace Part

/-- Whether a part is an expansion whose braces could be left out in front of what follows. -/
def isNeedless (next : Option Part) (part : Part) : Bool :=
  part.parameter?.any fun name => !part.isShort && !part.isModified && !isLongNumber name &&
    !(next.bind literal?).any extendsName

/-- The report of needless braces. -/
def needless (part : Part) : Violation :=
  .found .trivialLongParamExp part.pos [part.parameter?.getD "", part.parameter?.getD ""]

end Part

theorem Part.braceViolation?_eq (part : Part) (next : Option Part) :
    part.braceViolation? next = if part.isNeedless next then some part.needless else none := by
  cases expands : part.parameter? with
  | none => simp [braceViolation?, isNeedless, expands]
  | some name =>
      simp only [braceViolation?, isNeedless, needless, expands, Option.bind_eq_bind,
        Option.bind_some, Option.any_some, Option.getD_some]
      cases part.isShort <;> cases part.isModified <;> cases isLongNumber name <;>
        cases (next.bind literal?).any extendsName <;> rfl

/-- The first of adjacent parts is reported if its braces are needless in front of the second. -/
theorem braceViolations_cons (part : Part) (parts : List Part) :
    braceViolations (part :: parts) =
      if part.isNeedless parts.head? then part.needless :: braceViolations parts
      else braceViolations parts := by
  rw [braceViolations, Part.braceViolation?_eq]
  split <;> rfl

/-- Only a plain parameter in braces has needless ones. -/
theorem Part.exists_of_isNeedless {part : Part} {next : Option Part}
    (needless : part.isNeedless next = true) :
    ∃ pos name, part = .braced pos .value name none none ∧ isLongNumber name = false ∧
      (next.bind literal?).any extendsName = false := by
  cases part with
  | braced pos question name index operation =>
      simp only [isNeedless, parameter?, isShort, isModified, Option.any_some, Bool.and_eq_true,
        Bool.not_eq_true',
        Bool.or_eq_false_iff, decide_eq_false_iff_not, not_not, Option.isSome_eq_false_iff,
        Option.isNone_iff_eq_none]
        at needless
      obtain ⟨⟨⟨-, ⟨rfl, rfl⟩, rfl⟩, short⟩, apart⟩ := needless
      exact ⟨pos, name, rfl, short, apart⟩
  | simple => simp [isNeedless, isShort] at needless
  | _ => simp [isNeedless, parameter?] at needless

/-- A plain parameter in braces is reported if its name needs none, and neither does what
follows. -/
theorem exists_of_mem_braceViolations {parts : List Part} {violation : Violation}
    (reported : violation ∈ braceViolations parts) :
    ∃ front pos name back, parts = front ++ .braced pos .value name none none :: back ∧
      isLongNumber name = false ∧ (back.head?.bind Part.literal?).any extendsName = false ∧
        violation = .found .trivialLongParamExp pos [name, name] := by
  induction parts with
  | nil => cases reported
  | cons part parts ih =>
      have split : part.isNeedless parts.head? = true ∧ violation = part.needless ∨
          violation ∈ braceViolations parts := by
        rw [braceViolations_cons] at reported
        split at reported
        · next needless => exact (List.mem_cons.mp reported).imp_left fun same => ⟨needless, same⟩
        · exact .inr reported
      rcases split with ⟨needless, rfl⟩ | later
      · obtain ⟨pos, name, rfl, short, apart⟩ := Part.exists_of_isNeedless needless
        exact ⟨[], pos, name, parts, rfl, short, apart, rfl⟩
      · obtain ⟨front, pos, name, back, rfl, facts⟩ := ih later
        exact ⟨part :: front, pos, name, back, rfl, facts⟩

/-- A part among the adjacent parts of a node. -/
structure Occurrence where
  owner : Locus
  /-- The number of the part among the adjacent ones. -/
  index : Nat
  part : Part

namespace Occurrence

/-- The way to the part. -/
def path (occurrence : Occurrence) : List Nat :=
  occurrence.owner.path ++ [occurrence.index]

/-- The part that follows directly. -/
def next? (occurrence : Occurrence) : Option Part :=
  occurrence.owner.node.adjacentParts[occurrence.index + 1]?

end Occurrence

/-- The parts of a node, in their order. -/
def Locus.occurrences (owner : Locus) : List Occurrence :=
  owner.node.adjacentParts.zipIdx.map fun entry => { owner, index := entry.2, part := entry.1 }

/-- The parts of the nodes of a tree. -/
def Node.occurrences (root : Node) : List Occurrence :=
  root.loci.flatMap Locus.occurrences

theorem Locus.braceViolations_eq (owner : Locus) : braceViolations owner.node.adjacentParts =
    (owner.occurrences.filter fun it => it.part.isNeedless it.next?).map (·.part.needless) := by
  have behind (front back : List Part) (whole : owner.node.adjacentParts = front ++ back) :
    braceViolations back =
      (((back.zipIdx front.length).map fun entry =>
        ({ owner, index := entry.2, part := entry.1 } : Occurrence)).filter fun it =>
          it.part.isNeedless it.next?).map (·.part.needless) := by
    induction back generalizing front with
    | nil => rfl
    | cons part back ih =>
        have next : Occurrence.next? { owner, index := front.length, part } = back.head? := by
          rw [Occurrence.next?, whole, List.getElem?_append_right (Nat.le_add_right _ _),
            Nat.add_sub_cancel_left, List.getElem?_cons_succ, List.head?_eq_getElem?]
        have rest := ih (front ++ [part]) (by rw [whole, List.append_assoc]; rfl)
        rw [List.length_append, List.length_singleton] at rest
        rw [braceViolations_cons, List.zipIdx_cons, List.map_cons, List.filter_cons, next, rest]
        split <;> rfl
  exact behind [] _ rfl

namespace Node

/-- Only words, double quotes and arithmetic expansions have parts below them. -/
theorem children_eq_or (node : Node) :
    node.children = node.adjacentParts.map .part ∧ node.kind ∈ [.word, .dblQuoted, .arithmExp] ∨
      node.adjacentParts = [] ∧ ∀ part, .part part ∉ node.children := by
  have other (item : Item) (part : Part) : item.node ≠ .part part := by cases item <;> nofun
  cases node with
  | word it => exact .inl ⟨by simp [children, fields, Field.many, adjacentParts], by simp [kind]⟩
  | part it =>
      cases it with
      | double | arithmetic =>
          exact .inl
            ⟨by simp [children, fields, Part.fields, Field.many, adjacentParts],
              by simp [kind, Part.kind]⟩
      | braced _ _ _ _ operation =>
          cases operation <;> exact .inr
            ⟨rfl, by simp [children, fields, Part.fields, -List.mem_map]⟩
      | _ => exact .inr ⟨rfl, by simp [children, fields, Part.fields, other, -List.mem_map]⟩
  | command it =>
      cases it <;> exact .inr
        ⟨rfl, by simp [children, fields, Command.fields, other, -List.mem_map]⟩
  | range it =>
      cases it <;> exact .inr ⟨rfl, by simp [children, fields, Range.fields, -List.mem_map]⟩
  | operation it =>
      cases it <;> exact .inr ⟨rfl, by simp [children, fields, Operation.fields, -List.mem_map]⟩
  | assign it =>
      refine .inr ⟨rfl, ?_⟩
      cases value : it.value <;> simp [children, fields, value, Value.fields, -List.mem_map]
  | _ => exact .inr ⟨rfl, by simp [children, fields, other, -List.mem_map]⟩

variable {root : Node}

theorem mem_occurrences {occurrence : Occurrence} : occurrence ∈ root.occurrences ↔
    occurrence.owner ∈ root.loci ∧ occurrence.owner.node.adjacentParts[occurrence.index]? =
      some occurrence.part := by
  rw [occurrences, List.mem_flatMap]
  constructor
  · rintro ⟨owner, member, inside⟩
    obtain ⟨entry, found, rfl⟩ := List.mem_map.mp inside
    exact ⟨member, List.mem_zipIdx_iff_getElem?.mp found⟩
  · rintro ⟨member, found⟩
    refine ⟨occurrence.owner, member,
      List.mem_map.mpr ⟨(occurrence.part, occurrence.index), ?_, rfl⟩⟩
    exact List.mk_mem_zipIdx_iff_getElem?.mpr found

/-- An occurrence is known by its way. -/
theorem occurrences_inj {first second : Occurrence} (here : first ∈ root.occurrences)
    (there : second ∈ root.occurrences) (same : first.path = second.path) : first = second := by
  obtain ⟨⟨path, node⟩, index, part⟩ := first
  obtain ⟨⟨path', node'⟩, index', part'⟩ := second
  obtain ⟨reached, found⟩ := mem_occurrences.mp here
  obtain ⟨reached', found'⟩ := mem_occurrences.mp there
  obtain ⟨rfl, rfl⟩ : path = path' ∧ index = index' := by simpa [Occurrence.path] using same
  obtain rfl : node = node' :=
    Option.some.inj ((mem_loci.mp reached).symm.trans (mem_loci.mp reached'))
  obtain rfl : part = part' := Option.some.inj (found.symm.trans found')
  rfl

/-- Every part of a tree occurs among the adjacent parts of a node. -/
theorem exists_occurrence {locus : Locus} (member : locus ∈ root.loci) {part : Part}
    (here : locus.node = .part part) (other : locus.path ≠ []) :
    ∃ occurrence ∈ root.occurrences, occurrence.part = part ∧ occurrence.path = locus.path := by
  obtain ⟨path, index, way⟩ : ∃ path index, locus.path = path ++ [index] :=
    ⟨_, _, (List.dropLast_append_getLast other).symm⟩
  have reached := mem_loci.mp member
  rw [way, at?_concat, here] at reached
  obtain ⟨owner, above, found⟩ := Option.bind_eq_some_iff.mp reached
  rcases owner.children_eq_or with ⟨parts, -⟩ | ⟨-, none⟩
  · rw [parts, List.getElem?_map] at found
    obtain ⟨_, inside, same⟩ := Option.map_eq_some_iff.mp found
    cases same
    refine ⟨{ owner := { path, node := owner }, index, part }, ?_, rfl, way.symm⟩
    exact mem_occurrences.mpr ⟨mem_loci.mpr above, inside⟩
  · exact absurd (List.mem_of_getElem? found) (none part)

/-- The parts come in the order of their owners, and those of one owner in their order. -/
theorem pairwise_occurrences (root : Node) : root.occurrences.Pairwise fun first second =>
    List.Lex (· < ·) first.owner.path second.owner.path ∨ first.owner = second.owner ∧
    first.index < second.index := by
  rw [occurrences, List.pairwise_flatMap]
  constructor
  · intro owner _
    exact List.pairwise_map.mpr ((pairwise_zipIdx _).imp fun before => .inr ⟨rfl, before⟩)
  · refine (pairwise_lociBelow [] root).imp
      fun {first second} before occurrence inside other beyond => .inl ?_
    obtain ⟨_, -, rfl⟩ := List.mem_map.mp inside
    obtain ⟨_, -, rfl⟩ := List.mem_map.mp beyond
    exact before

end Node

/-- The check for needless braces examines every expansion of a parameter once.  The nodes of the
tree come in the order of a walk, which is that of their ways.  Every expansion is a part of exactly
one word, of one pair of double quotes or of one arithmetic expansion, and the check reports the
parts whose braces are needless, each of them once, in the order of their owners and of the parts of
each. -/
theorem Recipe.braceViolations_exact (recipe : Recipe) :
    let root := Node.script recipe.script
    (root.loci.map Locus.node = root.preorder ∧
        root.loci.Pairwise fun first second => List.Lex (· < ·) first.path second.path) ∧
      (∀ locus ∈ root.loci, ∀ part, locus.node = .part part → part.parameter?.isSome = true →
        ∃! occurrence, occurrence ∈ root.occurrences ∧ occurrence.path = locus.path ∧
        occurrence.part = part) ∧
      (∀ occurrence ∈ root.occurrences, occurrence.owner ∈ root.loci ∧
        occurrence.owner.node.kind ∈ [.word, .dblQuoted, .arithmExp] ∧
          occurrence.owner.node.adjacentParts[occurrence.index]? = some occurrence.part) ∧
      (root.occurrences.Pairwise fun first second => List.Lex (· < ·) first.owner.path
        second.owner.path ∨
        first.owner = second.owner ∧ first.index < second.index) ∧
      recipe.braceViolations =
        (root.occurrences.filter fun it => it.part.isNeedless it.next?).map (·.part.needless) := by
  intro root
  refine ⟨⟨Node.map_node_loci _, Node.pairwise_lociBelow _ _⟩, ?_, ?_,
    Node.pairwise_occurrences _, ?_⟩
  · intro locus member part here _
    have below : locus.path ≠ [] := by
      intro top
      have reached := Node.mem_loci.mp member
      rw [top, here] at reached
      exact Node.noConfusion (Option.some.inj reached)
    obtain ⟨occurrence, inside, same, way⟩ := Node.exists_occurrence member here below
    refine ⟨occurrence, ⟨inside, way, same⟩, ?_⟩
    rintro other ⟨there, way', -⟩
    exact Node.occurrences_inj there inside (way'.trans way.symm)
  · intro occurrence inside
    obtain ⟨member, found⟩ := Node.mem_occurrences.mp inside
    refine ⟨member, ?_, found⟩
    rcases occurrence.owner.node.children_eq_or with ⟨-, kind⟩ | ⟨none, -⟩
    · exact kind
    · rw [none] at found
      cases found
  · rw [Recipe.braceViolations, Script.violations, Descent.collect_eq_flatMap, Node.occurrences,
      List.filter_flatMap, List.map_flatMap, ← Node.map_node_lociBelow [], List.flatMap_map]
    exact List.flatMap_congr fun owner _ => owner.braceViolations_eq

end RecipeLint
