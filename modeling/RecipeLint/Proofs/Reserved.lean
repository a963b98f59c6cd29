import RecipeLint.Proofs.Backquotes

/-!
# Reserved words

A list of statements does not take a reserved word for a program: where one of its statements
starts, such a word ends the list or is an error.  Only the text is looked at there, so a word that
goes on behind an escaped newline gets through.  Behind `!`, on the right of a connective and as the
body of a function, a reserved word is a program like any other. -/

namespace RecipeLint

/-- A text from which an escaped newline is left out has one. -/
theorem Joins.eq_or_folded {written text : List Char} (joins : Joins written text) :
    written = text ∨ ['\\', '\n'] <:+: written := by
  induction joins with
  | nil => exact .inl rfl
  | char c _ ih =>
      exact ih.imp (congrArg (c :: ·)) fun folded => folded.trans (List.infix_cons List.infix_rfl)
  | @fold written _ _ _ => exact .inr ⟨[], written, rfl⟩

/-- Escaped newlines that are left in backquotes are written there. -/
theorem Unescapes.folded {written text : List Char} (unescapes : Unescapes written text)
    (folded : ['\\', '\n'] <:+: text) : ['\\', '\n'] <:+: written := by
  have single {written : List Char} (unescapes : Unescapes written ['\\', '\n']) :
      ['\\', '\n'] <:+: written := by
    generalize same : ['\\', '\n'] = text at unescapes
    induction unescapes with
    | nil => cases same
    | char c rest _ =>
        cases same
        obtain ⟨more, rfl⟩ :=
          Unescapes.eq_append (show Unescapes _ (['\n'] ++ []) from rest) (by decide)
        exact ⟨[], more, rfl⟩
    | drop _ _ ih => exact (ih same).trans (List.infix_cons List.infix_rfl)
  obtain ⟨front, back, rfl⟩ := folded
  obtain ⟨first, last, rfl, unescapes, -⟩ := unescapes.split
  obtain ⟨first, middle, rfl, -, unescapes⟩ := unescapes.split
  exact (single unescapes).trans ⟨first, last, rfl⟩

namespace Node

@[simp]
theorem children_many {α : Type} (slot : Slot) (toNode : α → Node) (values : List α) :
    (Field.many slot toNode values).map (·.2) = values.map toNode := by
  simp [Field.many, Function.comp_def]

@[simp]
theorem stmt_mem_map_node {items : List Item} {stmt : Stmt} :
    .stmt stmt ∈ items.map Item.node ↔ .stmt stmt ∈ items := by
  have same (item : Item) : item.node = .stmt stmt ↔
      item = .stmt stmt := by cases item <;> simp [Item.node]
  simp [same]

/-- A statement is an operand, the body of a function or an element of a list. -/
theorem stmt_mem_children {node : Node} {stmt : Stmt} (child : .stmt stmt ∈ node.children) :
    node.kind = .binaryCmd ∨ node.kind = .funcDecl ∨ .stmt stmt ∈ node.listed := by
  unfold children at child
  cases node with
  | script => exact .inr (.inr (by simpa [fields, listed] using child))
  | command it =>
      cases it with
      | binary => exact .inl rfl
      | function => exact .inr (.inl rfl)
      | block | subshell | conditional | loop | iteration =>
          exact .inr (.inr (by simpa [fields, Command.fields, Field.one, listed] using child))
      | _ => simp [fields, Command.fields, Field.one] at child
  | caseItem => exact .inr (.inr (by simpa [fields, listed] using child))
  | part it =>
      cases it with
      | braced _ _ _ _ operation =>
          cases operation <;> simp [fields, Part.fields, Field.one] at child
      | substitution | process =>
          exact .inr (.inr (by simpa [fields, Part.fields, listed] using child))
      | _ => simp [fields, Part.fields] at child
  | operation it => cases it <;> simp [fields, Operation.fields] at child
  | assign it =>
      obtain ⟨_, _, _, _, value⟩ := it
      cases value <;> simp [fields, Value.fields, Field.one] at child
  | range it => cases it <;> simp [fields, Range.fields, Field.one] at child
  | _ => simp [fields, Field.one] at child

end Node

namespace Script

/-- Unless a statement is an operand or the body of a function, a reserved word that it runs first
is spelled with an escaped newline. -/
theorem parse_reserved {name : String} {text : List Char} {limit : NestingLimit} {script : Script}
    (read : parse name text limit = .ok script) {node : Node}
    (member : node ∈ (Node.script script).preorder) {stmt : Stmt}
    (child : .stmt stmt ∈ node.children)
    {word : String} (leads : stmt.Leads word) (reserved : word ∈ listTerminators) :
    node.kind = .binaryCmd ∨ node.kind = .funcDecl ∨ ∃ raw written,
      raw <:+: text ∧ Unescapes raw written ∧ Joins written word.toList ∧
      ['\\', '\n'] <:+: raw := by
  refine (Node.stmt_mem_children child).imp_right fun other => other.imp_right fun listed => ?_
  obtain ⟨pos, written, rest, excerpt, joins, broken⟩ :=
    (sourced_of_mem_preorder read member).admitted _ listed word leads reserved
  obtain ⟨raw, inside, unescapes⟩ := excerpt.front.traced.exists_infix
  have folded := joins.eq_or_folded.resolve_left broken
  exact ⟨raw, written, inside, unescapes, joins, unescapes.folded folded⟩

/-- The word `fi`, broken by an escaped newline, is a program. -/
theorem parse_reserved_folded : ∃ script stmt,
    parse "" "f\\\ni".toList = .ok script ∧ .stmt stmt ∈ (Node.script script).children ∧
    stmt.Leads "fi" ∧
    ∃ raw written, raw <:+: "f\\\ni".toList ∧ Unescapes raw written ∧ Joins written "fi".toList ∧
      ['\\', '\n'] <:+: raw := by
  have found : (parse "" "f\\\ni".toList).toOption.any
    (fun script => (Node.script script).children.any fun
      | .stmt it => decide (it.negated = false ∧ it.bareWord? = some "fi")
      | _ => false) = true := by
    decide +kernel
  obtain ⟨script, read, holds⟩ := Recipe.exists_of_any found
  obtain ⟨node, child, holds⟩ := List.any_eq_true.mp holds
  cases node with
  | stmt stmt =>
      obtain ⟨plain, bare⟩ := of_decide_eq_true holds
      have leads : stmt.Leads "fi" := .bare plain bare
      have spelled := parse_reserved read (Node.mem_preorder.mpr .root) child leads (by decide)
      exact ⟨script, stmt, read, child, leads, (spelled.resolve_left nofun).resolve_left nofun⟩
  | _ => cases holds

/-- Behind a connective, the word `fi` is a program. -/
theorem parse_reserved_behind : ∃ script stmt, parse "" "true && fi\n".toList = .ok script ∧
    .stmt stmt ∈ (Node.script script).preorder ∧ stmt.bareWord? = some "fi" := by
  have found : (parse "" "true && fi\n".toList).toOption.any
    (fun script => (Node.script script).preorder.any fun
      | .stmt it => decide (it.bareWord? = some "fi")
      | _ => false) = true := by
    decide +kernel
  obtain ⟨script, read, holds⟩ := Recipe.exists_of_any found
  obtain ⟨node, member, holds⟩ := List.any_eq_true.mp holds
  cases node with
  | stmt stmt => exact ⟨script, stmt, read, member, of_decide_eq_true holds⟩
  | _ => cases holds

end Script
end RecipeLint
