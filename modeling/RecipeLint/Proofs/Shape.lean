import Mathlib.Data.List.Chain
import RecipeLint.Lint.Dialect
import RecipeLint.Proofs.Nodes

/-!
# Well-formed trees

The types of trees admit more than a text can say: a call of nothing, two literals side by side, a
pipe into a list of commands.  A node is well formed if it and the nodes in its fields are as the
grammar makes them.  Placing here-documents keeps this.
-/

namespace RecipeLint

/-- Whether the connective is a logical operator. -/
def Connective.isLogical : Connective → Bool
  | .both | .either => true
  | .pipe | .pipeAll => false

/-- What joins the statements that a command consists of, if it consists of two. -/
def Command.connective? : Command → Option Connective
  | .binary _ connective _ _ => some connective
  | _ => none

/-- What joins the statements that a statement consists of, if it consists of two. -/
def Stmt.connective? (stmt : Stmt) : Option Connective :=
  stmt.command.bind Command.connective?

/-- A statement has a command or redirections. -/
def Stmt.Regular (stmt : Stmt) : Prop :=
  stmt.command ≠ none ∨ stmt.redirects ≠ []

/-- A call has words or assignments.  Only whole lines run in the background.  Connectives of one
kind associate to the left, and pipes bind more tightly than logical operators. -/
def Command.Regular : Command → Prop
  | .call _ assigns args => assigns ≠ [] ∨ args ≠ []
  | .function _ _ body _ => body.background = false
  | .binary _ connective left right =>
      left.background = false ∧ right.background = false ∧
        if connective.isLogical then
          ∀ inner ∈ right.connective?, inner.isLogical = false
        else
          right.connective? = none ∧ ∀ inner ∈ left.connective?, inner.isLogical = false
  | _ => True

/-- A name without a value is nothing but a name, and no assignment has both a word and elements. -/
def Assign.Regular (assign : Assign) : Prop :=
  (assign.value = .naked → assign.append = false ∧ (Node.assign assign).fields = []) ∧
    ((∀ field ∈ (Node.assign assign).fields, field.1 ≠ .value) ∨
      ∀ field ∈ (Node.assign assign).fields, field.1 ≠ .array)

/-- A parameter without braces has no index and no operation; one in braces, which asks one
question, has at most one operation. -/
def Part.Regular : Part → Prop
  | part@(.simple ..) => part.fields = []
  | part@(.braced ..) => part.fields.countP (·.1 ∈ [Slot.slice, .replace, .expansion]) ≤ 1
  | _ => True

/-- No literal is empty. -/
def Filled (parts : List Part) : Prop :=
  ∀ part ∈ parts, part.literal? ≠ some ""

/-- No literal follows another one. -/
def Separate (parts : List Part) : Prop :=
  parts.IsChain fun part next => part.literal? = none ∨ next.literal? = none

/-- A word that a redirection can take its input from: for a quoted delimiter one literal, which may
be empty. -/
def Redirect.Takes (redirect : Redirect) (body : Word) : Prop :=
  redirect.op.takesBody = true ∧
    if (Awaited.ofRedirect redirect).quoted then
      ∃ pos text, body.parts = [.literal pos text]
    else
      Filled body.parts

namespace Node

/-- What a node requires of itself. -/
def Regular : Node → Prop
  | .stmt it => it.Regular
  | .command it => it.Regular
  | .assign it => it.Regular
  | .redirect it => ∀ body ∈ it.body, it.Takes body
  | .part it => it.Regular
  | _ => True

end Node

/-- What a node requires of the nodes in its fields: literals are not empty, and words have parts.
An index, an arithmetic expression and a here-document may be empty words. -/
structure Field.Regular (field : Field) : Prop where
  filled : field.1 ≠ .heredoc → Filled field.2.adjacentParts
  parted : field.1 ∉ [Slot.index, .heredoc, .expr] → ∀ word, field.2 = .word word → word.parts ≠ []

/-- A node that is as the grammar makes it. -/
structure Node.WellFormed (node : Node) : Prop where
  regular : node.Regular
  separate : Separate node.adjacentParts
  fields : ∀ field ∈ node.fields, field.Regular

/-! ## Placing here-documents -/

section Placing

variable (bodies : Bodies)

theorem Part.literal?_place (part : Part) : (part.place bodies).literal? = part.literal? := by
  cases part with
  | substitution _ _ backquoted => cases backquoted <;> rfl
  | _ => rfl

theorem Node.adjacentParts_place (node : Node) :
    (node.place bodies).adjacentParts = placeParts bodies node.adjacentParts := by
  cases node with
  | part it =>
      cases it with
      | substitution _ _ backquoted => cases backquoted <;> rfl
      | _ => rfl
  | word it =>
      obtain ⟨pos, parts⟩ := it
      rfl
  | _ => rfl

theorem Filled.place {parts : List Part} (filled : Filled parts) :
    Filled (placeParts bodies parts) := by
  intro part member
  rw [placeParts_eq_map] at member
  obtain ⟨other, inside, rfl⟩ := List.mem_map.mp member
  rw [other.literal?_place]
  exact filled other inside

theorem Separate.place {parts : List Part} (separate : Separate parts) :
    Separate (placeParts bodies parts) := by
  rw [Separate, placeParts_eq_map, List.isChain_map]
  simp only [Part.literal?_place]
  exact separate

theorem Stmt.connective?_place (stmt : Stmt) :
    (stmt.place bodies).connective? = stmt.connective? := by
  obtain ⟨pos, command, redirects, negated, background⟩ := stmt
  cases command with
  | none => rfl
  | some command => cases command <;> rfl

theorem Stmt.background_place (stmt : Stmt) : (stmt.place bodies).background = stmt.background := by
  obtain ⟨pos, command, redirects, negated, background⟩ := stmt
  rfl

theorem Part.delimiter_place (part : Part) : (part.place bodies).delimiter = part.delimiter := by
  cases part with
  | substitution _ _ backquoted => cases backquoted <;> rfl
  | double _ parts _ =>
      have literals : (placeParts bodies parts).filterMap Part.literal? =
          parts.filterMap Part.literal? := by
        rw [placeParts_eq_map, List.filterMap_map]
        exact congrArg (List.filterMap · parts) (funext fun part => part.literal?_place bodies)
      simp only [Part.place, Part.delimiter, literals]
  | _ => rfl

theorem Awaited.ofRedirect_place (redirect : Redirect) :
    ofRedirect (redirect.place bodies) = ofRedirect redirect := by
  obtain ⟨pos, op, fd, ⟨start, parts⟩, body⟩ := redirect
  have pieces : (placeParts bodies parts).map Part.delimiter = parts.map Part.delimiter := by
    rw [placeParts_eq_map, List.map_map]
    exact congrArg (List.map · parts) (funext fun part => part.delimiter_place bodies)
  cases body with
  | none | some body =>
      simp only [Redirect.place, Word.place, ofRedirect, pieces]
      rfl

theorem Redirect.takes_place {redirect : Redirect} {body : Word} (takes : redirect.Takes body) :
    (redirect.place bodies).Takes body := by
  have op : (redirect.place bodies).op = redirect.op := by
    obtain ⟨pos, op, fd, target, body⟩ := redirect
    cases body <;> rfl
  rwa [Redirect.Takes, op, Awaited.ofRedirect_place]

theorem Command.Regular.place {command : Command} (regular : command.Regular) :
    (command.place bodies).Regular := by
  cases command with
  | call pos assigns args =>
      refine Or.imp ?_ ?_ regular
      · rw [placeAssigns_eq_map]
        exact mt List.map_eq_nil_iff.mp
      · rw [placeWords_eq_map]
        exact mt List.map_eq_nil_iff.mp
  | function pos name body keyword => exact (body.background_place bodies).trans regular
  | binary pos connective left right =>
      simpa only [Command.place, Command.Regular, Stmt.connective?_place, Stmt.background_place]
        using regular
  | _ => trivial

theorem Assign.Regular.place {assign : Assign} (regular : assign.Regular) :
    (assign.place bodies).Regular := by
  obtain ⟨pos, name, index, append, value⟩ := assign
  have slots :
    ∀ field ∈ (Node.assign (Assign.place bodies ⟨pos, name, index, append, value⟩)).fields,
      ∃ other ∈ (Node.assign ⟨pos, name, index, append, value⟩).fields, field.1 = other.1 := by
    intro field member
    have placed := Node.fields_place bodies (.assign ⟨pos, name, index, append, value⟩)
    rcases List.mem_append.mp (placed ▸ member) with carried | read
    · obtain ⟨other, inside, rfl⟩ := List.mem_map.mp carried
      exact ⟨other, inside, rfl⟩
    · cases read
  obtain ⟨naked, single⟩ := regular
  constructor
  · intro same
    cases value with
    | naked => exact naked rfl
    | empty | scalar | array => cases same
  · refine single.imp ?_ ?_
    · intro none field member
      obtain ⟨other, inside, same⟩ := slots field member
      exact same ▸ none other inside
    · intro none field member
      obtain ⟨other, inside, same⟩ := slots field member
      exact same ▸ none other inside

theorem Part.regular (part : Part) : part.Regular := by
  cases part with
  | simple => rfl
  | braced _ _ _ index operation =>
      cases operation with
      | none => cases index <;> simp [Part.Regular, Part.fields, Field.optional]
      | some operation =>
          cases index <;> cases operation <;>
            simp [Part.Regular, Part.fields, Field.optional, Field.one, Operation.slot]
  | _ => trivial

/-- Here-documents that redirections can take keep a tree well formed. -/
theorem Node.WellFormed.place {node : Node} (wellFormed : node.WellFormed)
    (takes : ∀ redirect, node = .redirect redirect → redirect.body = none →
      ∀ body, bodies.lookup redirect.pos = some body → redirect.Takes body) :
    (node.place bodies).WellFormed where
  regular := by
    have regular := wellFormed.regular
    cases node with
    | script | comment | range | caseItem | word | operation => trivial
    | stmt it =>
        obtain ⟨pos, command, redirects, negated, background⟩ := it
        refine Or.imp ?_ ?_ regular
        · cases command with
          | none => exact id
          | some command => exact fun _ => nofun
        · intro filled
          rw [Stmt.place, placeRedirects_eq_map]
          exact mt List.map_eq_nil_iff.mp filled
    | command it => exact Command.Regular.place bodies regular
    | assign it => exact Assign.Regular.place bodies regular
    | redirect it =>
        obtain ⟨pos, op, fd, target, body⟩ := it
        intro placed member
        cases body with
        | none => exact Redirect.takes_place bodies (takes _ rfl rfl placed member)
        | some body => exact Redirect.takes_place bodies (regular placed member)
    | part it => exact Part.regular _
  separate := by
    rw [adjacentParts_place]
    exact Separate.place bodies wellFormed.separate
  fields := by
    intro field member
    rw [fields_place, List.mem_append, List.mem_map] at member
    rcases member with ⟨other, inside, rfl⟩ | read
    · have regular := wellFormed.fields other inside
      unfold carry
      cases node.seals other.1 with
      | true => exact regular
      | false =>
          refine ⟨fun loose => ?_, fun required word same => ?_⟩
          · rw [if_neg Bool.false_ne_true, adjacentParts_place]
            exact Filled.place bodies (regular.filled loose)
          · obtain ⟨slot, child⟩ := other
            rw [if_neg Bool.false_ne_true] at same
            cases child with
            | word it =>
                cases same
                have parted := regular.parted required it rfl
                obtain ⟨pos, parts⟩ := it
                rw [Word.place, placeParts_eq_map]
                exact mt List.map_eq_nil_iff.mp parted
            | _ => cases same
    · obtain ⟨entry, -, rfl⟩ := exists_of_mem_document read
      exact ⟨fun other => absurd rfl other, fun other => absurd (by simp) other⟩

end Placing

end RecipeLint
