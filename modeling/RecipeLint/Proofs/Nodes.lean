import RecipeLint.Syntax.HereDoc
import RecipeLint.Syntax.Walk

/-!
# What holds at every node

A property that holds at a node and at all nodes below it is found again at whatever a full
traversal collects.  While a text is read, its here-documents are not in place; only what was read
as a text of its own is complete already.  Placing turns what holds of the nodes so far into what
holds of the complete ones. -/

namespace RecipeLint

namespace Field

variable {α : Type} {slot : Slot} {toNode : α → Node} {f : Slot → Node → Node} {g : α → α}

/-- Changes the node that a field holds. -/
def change (f : Slot → Node → Node) (field : Field) : Field :=
  (field.1, f field.1 field.2)

@[simp]
theorem change_many (values : List α) : (many slot toNode values).map (change f) =
    many slot (fun value => f slot (toNode value)) values := by
  simp [many, change]

@[simp]
theorem change_one (node : Node) : (one slot node).map (change f) = one slot (f slot node) :=
  rfl

@[simp]
theorem change_optional (value : Option α) : (optional slot toNode value).map (change f) =
    optional slot (fun value => f slot (toNode value)) value := by
  cases value <;> rfl

@[simp]
theorem many_map (values : List α) :
    many slot toNode (values.map g) = many slot (fun value => toNode (g value)) values := by
  simp [many]

@[simp]
theorem optional_map (value : Option α) :
    optional slot toNode (value.map g) = optional slot (fun value => toNode (g value)) value := by
  cases value <;> rfl

end Field

namespace Node

/-- The property holds at the node and at all nodes below it. -/
inductive Everywhere (holds : Node → Prop) : Node → Prop
  | node {node : Node} (here : holds node)
      (below : ∀ child ∈ node.children, Everywhere holds child) : Everywhere holds node

variable {holds : Node → Prop}

namespace Everywhere

theorem here {node : Node} : Everywhere holds node → holds node
  | .node here _ => here

theorem child {node child : Node} (everywhere : Everywhere holds node)
    (member : child ∈ node.children) : Everywhere holds child := by
  cases everywhere with
  | node _ below => exact below child member

end Everywhere

section Fields

variable {α : Type} {slot : Slot} {toNode : α → Node}

@[simp]
theorem mem_many {values : List α} {child : Node} :
    child ∈ (Field.many slot toNode values).map (·.2) ↔ ∃ value ∈ values, toNode value = child := by
  simp [Field.many]

@[simp]
theorem mem_optional {value : Option α} {child : Node} :
    child ∈ (Field.optional slot toNode value).map (·.2) ↔ ∃ it ∈ value, toNode it = child := by
  cases value with
  | none => simp [Field.optional]
  | some it => simp [Field.optional, eq_comm]

@[simp]
theorem mem_one {node child : Node} : child ∈ (Field.one slot node).map (·.2) ↔ node = child := by
  simp [Field.one, eq_comm]

end Fields

/-- Whatever a full traversal collects, it has met at a node with the property. -/
theorem exists_of_mem_walk {visit : Node → List α} {nodes : List Node} {found : List α} {value : α}
    (everywhere : ∀ node ∈ nodes, Everywhere holds node)
    (member : value ∈ Descent.full.walk
      (fun node found => (true, (visit node).reverse ++ found)) nodes found) :
    value ∈ found ∨ ∃ node, holds node ∧ value ∈ visit node := by
  induction measured : pending nodes using Nat.strongRecOn generalizing nodes found with
  | ind size ih =>
      cases nodes with
      | nil => exact .inl (by simpa [Descent.walk] using member)
      | cons node nodes =>
          rw [Descent.walk] at member
          have less : pending (Descent.full.next node ++ nodes) < size := by
            have := Descent.full.pending_next_le node
            rw [← measured, pending_append, pending]
            omega
          have later : ∀ other ∈ Descent.full.next node ++ nodes, Everywhere holds other := by
            intro other inside
            rcases List.mem_append.mp inside with child | further
            · exact (everywhere node (by simp)).child child
            · exact everywhere other (by simp [further])
          rcases ih _ less later member rfl with earlier | met
          · rcases List.mem_append.mp earlier with new | old
            · exact .inr ⟨node, (everywhere node (by simp)).here, by simpa using new⟩
            · exact .inl old
          · exact .inr met

theorem exists_of_mem_collect {visit : Node → List α} {root : Node} {value : α}
    (everywhere : Everywhere holds root)
    (member : value ∈ Descent.full.collect (fun node => (true, visit node)) root) :
    ∃ node, holds node ∧ value ∈ visit node := by
  have only : ∀ node ∈ [root], Everywhere holds node := by simpa using everywhere
  exact (exists_of_mem_walk only (List.mem_reverse.mp member)).resolve_left List.not_mem_nil

theorem of_mem_preorder {root node : Node} (everywhere : Everywhere holds root)
    (member : node ∈ root.preorder) : holds node := by
  obtain ⟨met, held, same⟩ := exists_of_mem_collect everywhere member
  obtain rfl := List.mem_singleton.mp same
  exact held

/-! ## Placing here-documents -/

/-- Puts here-documents in place at a node and below it. -/
def place (bodies : Bodies) : Node → Node
  | .script it => .script { it with items := placeItems bodies it.items }
  | .comment it => .comment it
  | .stmt it => .stmt (it.place bodies)
  | .command it => .command (it.place bodies)
  | .range it => .range (it.place bodies)
  | .caseItem it => .caseItem (it.place bodies)
  | .assign it => .assign (it.place bodies)
  | .redirect it => .redirect (it.place bodies)
  | .word it => .word (it.place bodies)
  | .part it => .part (it.place bodies)
  | .operation it => .operation (it.place bodies)

end Node

section Lists

variable (bodies : Bodies)

@[simp]
theorem placeParts_eq_map (parts : List Part) :
    placeParts bodies parts = parts.map (·.place bodies) :=
  eq_map_of_cons rfl (fun _ _ => rfl) parts

@[simp]
theorem placeWords_eq_map (words : List Word) :
    placeWords bodies words = words.map (·.place bodies) :=
  eq_map_of_cons rfl (fun _ _ => rfl) words

@[simp]
theorem placeAssigns_eq_map (assigns : List Assign) :
    placeAssigns bodies assigns = assigns.map (·.place bodies) :=
  eq_map_of_cons rfl (fun _ _ => rfl) assigns

@[simp]
theorem placeRedirects_eq_map (redirects : List Redirect) :
    placeRedirects bodies redirects = redirects.map (·.place bodies) :=
  eq_map_of_cons rfl (fun _ _ => rfl) redirects

@[simp]
theorem placeItems_eq_map (items : List Item) :
    placeItems bodies items = items.map (·.place bodies) :=
  eq_map_of_cons rfl (fun _ _ => rfl) items

@[simp]
theorem placeCaseItems_eq_map (items : List CaseItem) :
    placeCaseItems bodies items = items.map (·.place bodies) :=
  eq_map_of_cons rfl (fun _ _ => rfl) items

@[simp]
theorem placeWord_eq_map (word : Option Word) :
    placeWord bodies word = word.map (·.place bodies) := by
  cases word <;> rfl

@[simp]
theorem placeCommand_eq_map (command : Option Command) :
    placeCommand bodies command = command.map (·.place bodies) := by
  cases command <;> rfl

theorem Item.node_place (item : Item) : (item.place bodies).node = item.node.place bodies := by
  cases item <;> rfl

end Lists

/-- Where no here-document has been read, none is put in place. -/
theorem placeItems_nil (items : List Item) : placeItems [] items = items := by
  -- The induction is on all constructs at once, along the recursion that puts documents in place.
  apply placeItems.induct (fun word => word.place [] = word)
    (fun parts => placeParts [] parts = parts)
    (fun part => part.place [] = part) (fun items => placeItems [] items = items)
    (fun item => item.place [] = item) (fun statement => statement.place [] = statement)
    (fun redirects => placeRedirects [] redirects = redirects)
    (fun redirect => redirect.place [] = redirect)
    (fun command => placeCommand [] command = command)
    (fun command => command.place [] = command) (fun items => placeCaseItems [] items = items)
    (fun item => item.place [] = item) (fun words => placeWords [] words = words)
    (fun range => range.place [] = range) (fun assigns => placeAssigns [] assigns = assigns)
    (fun assign => assign.place [] = assign) (fun value => value.place [] = value)
    (fun operation => placeOperation [] operation = operation)
    (fun operation => operation.place [] = operation) (fun word => placeWord [] word = word)
  all_goals
    intros
    simp_all [Word.place, placeParts, Part.place, placeItems, Item.place, Stmt.place,
      placeRedirects, Redirect.place, placeCommand, Command.place, placeCaseItems, CaseItem.place,
      placeWords, Range.place, placeAssigns, Assign.place, Value.place, placeOperation,
      Operation.place, placeWord]

namespace Node

/-- Whether a field of a node holds what was read as a text of its own, here-documents included. -/
def seals : Node → Slot → Bool
  | .part (.substitution _ _ true), _ => true
  | _, .index => true
  | _, .heredoc => true
  | _, _ => false

/-- The first property holds at the node and at all nodes below it, but for what was read as a text
of its own, where the second one does. -/
inductive Partly (draft settled : Node → Prop) : Node → Prop
  | node {node : Node} (here : draft node)
      (loose : ∀ field ∈ node.fields, node.seals field.1 = false → Partly draft settled field.2)
      (sealed : ∀ field ∈ node.fields, node.seals field.1 = true → Everywhere settled field.2) :
      Partly draft settled node

namespace Partly

variable {draft settled wider : Node → Prop}

theorem here {node : Node} : Partly draft settled node → draft node
  | .node here _ _ => here

theorem imp {node : Node} (weaken : ∀ node, draft node → wider node)
    (partly : Partly draft settled node) :
    Partly wider settled node := by
  induction partly with
  | node here _ sealed ih => exact .node (weaken _ here) ih sealed

/-- A node that differs from another one only in itself. -/
theorem replace {node other : Node} (partly : Partly draft settled node) (here : draft other)
    (fields : other.fields = node.fields) (seals : other.seals = node.seals) :
    Partly draft settled other := by
  cases partly with
  | node _ loose sealed => exact .node here (by rwa [fields, seals]) (by rwa [fields, seals])

end Partly

/-- Puts here-documents in place below what a field holds, unless the field is sealed. -/
def carry (bodies : Bodies) (seals : Slot → Bool) (field : Field) : Field :=
  (field.1, if seals field.1 then field.2 else field.2.place bodies)

/-- Where a redirection starts that has no here-document. -/
def open? : Node → Option Position
  | .redirect { pos, body := none, .. } => some pos
  | _ => none

/-- The field that holds the here-document of a redirection, if it has been read. -/
def document (bodies : Bodies) (node : Node) : List Field :=
  Field.optional .heredoc .word (node.open?.bind (List.lookup · bodies))

/-- The fields of a node with here-documents in place: what they held, and a here-document that has
been read. -/
theorem fields_place (bodies : Bodies) (node : Node) :
    (node.place bodies).fields = node.fields.map (carry bodies node.seals) ++
    node.document bodies := by
  have item (it : Item) : it.node.place bodies = (it.place bodies).node :=
    (it.node_place bodies).symm
  have whole {node : Node}
      (carried : (node.place bodies).fields = node.fields.map
        (Field.change fun slot node' => if node.seals slot then node' else node'.place bodies))
      (absent : node.document bodies = []) :
      (node.place bodies).fields = node.fields.map (carry bodies node.seals) ++
      node.document bodies := by
    rw [absent, List.append_nil]
    exact carried
  cases node with
  | comment => rfl
  | redirect it =>
      obtain ⟨pos, op, fd, target, body⟩ := it
      cases body with
      | none | some body => rfl
  | script it | stmt it | caseItem it | word it =>
      cases it
      refine whole ?_ rfl
      rw [place]
      simp [Stmt.place, CaseItem.place, Word.place, fields, seals, item] <;> rfl
  | command it =>
      refine whole ?_ rfl
      cases it <;> rw [place] <;> simp [Command.place, fields, Command.fields, seals, item] <;> rfl
  | range it =>
      refine whole ?_ rfl
      cases it <;> rw [place] <;> simp [Range.place, fields, Range.fields, seals] <;> rfl
  | assign it =>
      refine whole ?_ rfl
      rcases it with ⟨_, _, _, _, _ | _ | _ | _⟩ <;> rw [place] <;>
        simp [Assign.place, Value.place, fields, Value.fields, seals] <;> rfl
  | operation it =>
      refine whole ?_ rfl
      cases it <;> rw [place] <;> simp [Operation.place, fields, Operation.fields, seals] <;> rfl
  | part it =>
      refine whole ?_ rfl
      rcases it with _ | _ | _ | _ | ⟨_, _, _, _ | _, _ | operation⟩ | ⟨_, _, _ | _⟩ | _ | _ | _
      case braced.none.some | braced.some.some => cases operation <;> rfl
      all_goals
        rw [place]
        simp [Part.place, fields, Part.fields, seals, item] <;> rfl

/-- What a here-document's field holds has been read. -/
theorem exists_of_mem_document {bodies : Bodies} {node : Node} {field : Field}
    (member : field ∈ node.document bodies) :
    ∃ entry ∈ bodies, field = (.heredoc, .word entry.2) := by
  unfold document at member
  cases found : node.open?.bind (List.lookup · bodies) with
  | none =>
      rw [found] at member
      cases member
  | some body =>
      rw [found] at member
      obtain ⟨pos, -, stored⟩ := Option.bind_eq_some_iff.mp found
      obtain ⟨front, back, split, -⟩ := List.lookup_eq_some_iff.mp stored
      exact ⟨(pos, body), by simp [split], List.mem_singleton.mp member⟩

/-- Placing here-documents completes a tree. -/
theorem Partly.place {draft settled : Node → Prop} {bodies : Bodies}
    (kept : ∀ node, draft node → settled (node.place bodies))
    (placed : ∀ entry ∈ bodies, Everywhere settled (.word entry.2)) {node : Node}
    (partly : Partly draft settled node) : Everywhere settled (node.place bodies) := by
  induction partly with
  | @node node here loose sealed ih =>
      refine .node (kept node here) fun child member => ?_
      obtain ⟨field, inside, rfl⟩ := List.mem_map.mp member
      rw [fields_place, List.mem_append, List.mem_map] at inside
      rcases inside with ⟨other, present, rfl⟩ | read
      · unfold carry
        cases closed : node.seals other.1 with
        | true =>
            rw [if_pos rfl]
            exact sealed other present closed
        | false =>
            rw [if_neg (by simp)]
            exact ih other present closed
      · obtain ⟨entry, stored, rfl⟩ := exists_of_mem_document read
        exact placed entry stored

end Node
end RecipeLint
