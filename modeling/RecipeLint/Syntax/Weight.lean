import RecipeLint.Syntax.Node

/-!
# Sizes of nodes

Every traversal of a script ends because the constructs below a node are smaller than it.  The main
statement, `Node.weights_fields_le`, bounds all of them together, so it also serves a traversal that
keeps the nodes still to be visited in a list.
-/

namespace RecipeLint

/-- Twice the size of the construct that a node stands for. -/
noncomputable def Node.weight : Node → Nat
  | .script it => 2 * sizeOf it
  | .comment it => 2 * sizeOf it
  | .stmt it => 2 * sizeOf it
  | .command it => 2 * sizeOf it
  | .range it => 2 * sizeOf it
  | .caseItem it => 2 * sizeOf it
  | .assign it => 2 * sizeOf it
  | .redirect it => 2 * sizeOf it
  | .word it => 2 * sizeOf it
  | .part it => 2 * sizeOf it
  | .operation it => 2 * sizeOf it

namespace Node

/-- The weights of the nodes in a list, each counted once more. -/
noncomputable def pending : List Node → Nat
  | [] => 0
  | node :: nodes => node.weight + 1 + pending nodes

theorem pending_append (front back : List Node) :
    pending (front ++ back) = pending front + pending back := by
  induction front with
  | nil => simp [pending]
  | cons node nodes induction =>
      simp only [List.cons_append, pending, induction]
      omega

theorem pending_le_of_sublist {chosen nodes : List Node} (sublist : chosen.Sublist nodes) :
    pending chosen ≤ pending nodes := by
  induction sublist with
  | slnil => exact Nat.le_refl _
  | cons node _ induction => simp only [pending]; omega
  | cons_cons node _ induction => simp only [pending]; omega

end Node

/-- The weights of the nodes in a list of fields, each counted once more. -/
noncomputable def Field.weights (fields : List Field) : Nat :=
  Node.pending (fields.map (·.2))

namespace Field

@[grind =]
theorem weights_nil : weights [] = 0 :=
  rfl

@[grind =]
theorem weights_append (front back : List Field) :
    weights (front ++ back) = weights front + weights back := by
  simp only [weights, List.map_append, Node.pending_append]

@[grind =]
theorem weights_one (slot : Slot) (node : Node) : weights (one slot node) = node.weight + 1 := by
  simp [weights, one, Node.pending]

@[grind =]
theorem weights_none (slot : Slot) (toNode : α → Node) : weights (optional slot toNode none) = 0 :=
  rfl

@[grind =]
theorem weights_some (slot : Slot) (toNode : α → Node) (value : α) :
    weights (optional slot toNode (some value)) = (toNode value).weight + 1 :=
  rfl

/-- The nodes of a list weigh as much as the list, but for what it takes to hold them. -/
theorem weights_many [SizeOf α] {slot : Slot} {toNode : α → Node} (extra : Nat)
    (weight : ∀ value, (toNode value).weight + extra = 2 * sizeOf value) (values : List α) :
    weights (many slot toNode values) = 2 * sizeOf values - ((extra + 1) * values.length + 2) := by
  have whole : weights (many slot toNode values) + ((extra + 1) * values.length + 2) =
      2 * sizeOf values := by
    induction values with
    | nil => simp [weights, many, Node.pending]
    | cons value values ih =>
        have := weight value
        simp [weights, many, Node.pending, Nat.mul_add] at ih ⊢
        omega
  omega

@[grind =]
theorem weights_words (slot : Slot) (words : List Word) :
    weights (many slot Node.word words) = 2 * sizeOf words - (words.length + 2) := by
  simpa using weights_many 0 (fun _ => rfl) words

@[grind =]
theorem weights_parts (slot : Slot) (parts : List Part) :
    weights (many slot Node.part parts) = 2 * sizeOf parts - (parts.length + 2) := by
  simpa using weights_many 0 (fun _ => rfl) parts

@[grind =]
theorem weights_assigns (slot : Slot) (assigns : List Assign) :
    weights (many slot Node.assign assigns) = 2 * sizeOf assigns - (assigns.length + 2) := by
  simpa using weights_many 0 (fun _ => rfl) assigns

@[grind =]
theorem weights_redirects (slot : Slot) (redirects : List Redirect) :
    weights (many slot Node.redirect redirects) = 2 * sizeOf redirects -
      (redirects.length + 2) := by
  simpa using weights_many 0 (fun _ => rfl) redirects

@[grind =]
theorem weights_caseItems (slot : Slot) (items : List CaseItem) :
    weights (many slot Node.caseItem items) = 2 * sizeOf items - (items.length + 2) := by
  simpa using weights_many 0 (fun _ => rfl) items

@[grind =]
theorem weights_items (slot : Slot) (items : List Item) :
    weights (many slot Item.node items) = 2 * sizeOf items - (3 * items.length + 2) := by
  refine weights_many 2 (fun item => ?_) items
  cases item <;> grind [Item.node, Node.weight]

end Field

theorem Command.weights_fields_le (command : Command) :
    Field.weights command.fields ≤ 2 * sizeOf command := by
  cases command <;> grind [fields, Node.weight]

theorem Part.weights_fields_le (part : Part) : Field.weights part.fields ≤ 2 * sizeOf part := by
  rcases part with _ | _ | _ | _ | ⟨_, _, _, _ | _, _ | _⟩ | _ | _ | _ | _ <;>
    grind [fields, Node.weight]

theorem Operation.weights_fields_le (operation : Operation) :
    Field.weights operation.fields ≤ 2 * sizeOf operation := by
  rcases operation with ⟨_, _ | _, _ | _⟩ | ⟨_, _, _ | _, _ | _⟩ | ⟨_, _, _ | _⟩ <;>
    grind [fields, Node.weight]

theorem Value.weights_fields_le (value : Value) :
    Field.weights value.fields ≤ 2 * sizeOf value := by
  cases value <;> grind [fields, Node.weight]

theorem Range.weights_fields_le (range : Range) :
    Field.weights range.fields ≤ 2 * sizeOf range := by
  cases range <;> grind [fields, Node.weight]

theorem Node.weights_fields_le (node : Node) : Field.weights node.fields ≤ node.weight := by
  cases node with
  | command it => exact it.weights_fields_le
  | range it => exact it.weights_fields_le
  | part it => exact it.weights_fields_le
  | operation it => exact it.weights_fields_le
  | comment it => exact Nat.zero_le _
  | script it => cases it; grind [fields, weight]
  | caseItem it => cases it; grind [fields, weight]
  | word it => cases it; grind [fields, weight]
  | stmt it => rcases it with ⟨_, _ | _, _, _, _⟩ <;> grind [fields, weight]
  | redirect it => rcases it with ⟨_, _, _, _, _ | _⟩ <;> grind [fields, weight]
  | assign it =>
      rcases it with ⟨_, _, _ | _, _, value⟩ <;> grind [fields, weight, value.weights_fields_le]

end RecipeLint
