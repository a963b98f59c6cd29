import RecipeLint.Lint.Dialect
import RecipeLint.Proofs.Nodes
import RecipeLint.Proofs.Scanning

/-!
# Faithful trees

A tree is faithful to its source if every position is one of the source's and points at the text of
its node: the mark of a comment, the quotes of a quoted text, the name of a parameter, and so on.  A
literal stands there with the escaped newlines that it leaves out.  Where a plain parameter in
braces is followed by a character that could belong to a name, the next part is the literal that
starts with it. -/

namespace RecipeLint

/-- The text stands at the position in the source, with the rest behind it. -/
def Stands (source : List Char) (pos : Position) (text rest : List Char) : Prop :=
  ∃ front, source = front ++ (text ++ rest) ∧ pos = Position.start.along front

/-- The text stands at the position in the source. -/
def Occurs (source : List Char) (pos : Position) (text : List Char) : Prop :=
  ∃ rest, Stands source pos text rest

namespace Stands

variable {source text back rest text' rest' : List Char} {pos : Position}

theorem front (stands : Stands source pos (text ++ back) rest) :
    Stands source pos text (back ++ rest) := by
  obtain ⟨front, whole, rfl⟩ := stands
  exact ⟨front, by rw [whole, List.append_assoc], rfl⟩

theorem behind (stands : Stands source pos (text ++ back) rest) :
    Stands source (pos.along text) back rest := by
  obtain ⟨front, rfl, rfl⟩ := stands
  exact ⟨front ++ text, by simp only [List.append_assoc], (Position.along_append ..).symm⟩

theorem occurs (stands : Stands source pos text rest) : Occurs source pos [] :=
  ⟨text ++ rest, stands⟩

/-- What stands at a position is determined by it. -/
theorem unique (first : Stands source pos text rest) (second : Stands source pos text' rest') :
    text ++ rest = text' ++ rest' := by
  obtain ⟨front, whole, rfl⟩ := first
  obtain ⟨front', whole', same⟩ := second
  rcases List.append_eq_append_iff.mp (whole.symm.trans whole') with
    ⟨extra, rfl, shape⟩ | ⟨extra, rfl, shape⟩
  · rw [Position.along_append] at same
    obtain rfl := Position.eq_nil_of_along same.symm
    exact shape
  · rw [Position.along_append] at same
    obtain rfl := Position.eq_nil_of_along same
    exact shape.symm

end Stands

/-- The second text is the first one without some of its escaped newlines. -/
inductive Joins : List Char → List Char → Prop
  | nil : Joins [] []
  | char (c : Char) {written text : List Char} : Joins written text →
    Joins (c :: written) (c :: text)
  | fold {written text : List Char} : Joins written text → Joins ('\\' :: '\n' :: written) text

namespace Joins

theorem refl (text : List Char) : Joins text text := by
  induction text with
  | nil => exact .nil
  | cons c text ih => exact .char c ih

theorem append {written written' text text' : List Char} (first : Joins written text)
    (second : Joins written' text') : Joins (written ++ written') (text ++ text') := by
  induction first with
  | nil => exact second
  | char c _ ih => exact .char c ih
  | fold _ ih => exact .fold ih

end Joins

/-- The mark in braces in front of the name of a parameter. -/
def Question.mark : Question → List Char
  | .value => []
  | .indirect => ['!']
  | .length => ['#']
  | .width => ['%']

/-- A name that a parameter in braces can have. -/
def IsParameter (name : List Char) : Prop :=
  name ≠ [] ∧ parameterRun name = name

namespace Part

/-- The text of a part stands at its position. -/
def Spelled (source : List Char) : Part → Prop
  | .literal pos text => ∃ written, Occurs source pos written ∧ Joins written text.toList
  | .single pos text dollar =>
      Occurs source pos ((if dollar then ['$'] else []) ++ '\'' :: text.toList ++ ['\''])
  | .simple pos name => Occurs source pos ('$' :: name.toList)
  | .braced pos question name _ _ => Occurs source pos ('$' :: '{' :: question.mark ++ name.toList)
  | .process pos direction _ => Occurs source pos [direction, '(']
  | .glob pos mark pattern => Occurs source pos (mark :: '(' :: pattern.toList ++ [')'])
  | _ => True

/-- The position and the name of a plain parameter in braces. -/
def plain? : Part → Option (Position × String)
  | .braced pos .value name none none => some (pos, name)
  | _ => none

/-- The first character of a literal. -/
def initial? (part : Part) : Option Char :=
  part.literal?.bind (·.toList.head?)

/-- A character that could belong to a name stands behind a plain parameter in braces. -/
def Continued (source : List Char) (part : Part) (c : Char) : Prop :=
  isNameChar c = true ∧ ∃ pos name, part.plain? = some (pos, name) ∧
    Occurs source pos ('$' :: '{' :: name.toList ++ ['}', c])

end Part

/-- A character behind a plain parameter in braces that could belong to its name is the first one of
the literal that follows; `next` is the character that follows the last part. -/
def Chain (source : List Char) : List Part → Option Char → Prop
  | [], _ => True
  | part :: parts, next =>
      (∀ c, part.Continued source c → (parts.head?.elim next Part.initial?) = some c) ∧
        Chain source parts next

namespace Node

/-- The text of a node stands at its position. -/
def Spelled (source : List Char) : Node → Prop
  | .comment it => ∃ rest, Stands source it.pos ('#' :: it.text.toList) rest ∧
      (rest = [] ∨ rest.head? = some '\n')
  | .range (.words pos name _ _) => Occurs source pos name.toList
  | .assign it =>
      match it.value with
      | .naked => True
      | _ => ∃ index, (index = [] ∨ ∃ inside, index = '[' :: inside ++ [']']) ∧
          Occurs source it.pos
            (it.name.toList ++ index ++ (if it.append then ['+', '='] else ['=']))
  | .redirect it => Occurs source it.pos ((it.fd.getD "").toList ++ it.op.text.toList)
  | .part it => it.Spelled source
  | _ => True

/-- The name in a node is one that a parameter can have. -/
def Named : Node → Prop
  | .part (.braced _ _ name _ _) => IsParameter name.toList
  | _ => True

/-- What a node says about the source is true. -/
structure Faithful (source : List Char) (node : Node) : Prop where
  placed : Occurs source node.pos []
  spelled : node.Spelled source
  named : node.Named
  chained : Chain source node.adjacentParts none

end Node

theorem Chain.place {source : List Char} {parts : List Part} {next : Option Char} (bodies : Bodies)
    (chain : Chain source parts next) : Chain source (placeParts bodies parts) next := by
  have initial (part : Part) : (part.place bodies).initial? = part.initial? := by
    cases part with
    | substitution _ _ backquoted => cases backquoted <;> rfl
    | _ => rfl
  have plain (part : Part) : (part.place bodies).plain? = part.plain? := by
    cases part with
    | substitution _ _ backquoted => cases backquoted <;> rfl
    | braced _ question _ index operation =>
        cases question <;> cases index <;> cases operation <;> rfl
    | _ => rfl
  induction parts with
  | nil => trivial
  | cons part parts ih =>
      obtain ⟨first, later⟩ := chain
      refine ⟨fun c continued => ?_, ih later⟩
      have follows := first c (by simpa only [Part.Continued, plain] using continued)
      cases parts with
      | nil => exact follows
      | cons next parts => exact (initial next).trans follows

theorem Node.Faithful.place {source : List Char} {node : Node} (bodies : Bodies)
    (faithful : node.Faithful source) : (node.place bodies).Faithful source := by
  obtain ⟨placed, spelled, named, chained⟩ := faithful
  cases node with
  | script | comment => exact ⟨placed, spelled, named, chained⟩
  | stmt it =>
      obtain ⟨pos, command, redirects, negated, background⟩ := it
      exact ⟨placed, spelled, named, chained⟩
  | command it | range it | operation it => cases it <;> exact ⟨placed, spelled, named, chained⟩
  | caseItem it =>
      obtain ⟨pos, patterns, body, ending⟩ := it
      exact ⟨placed, spelled, named, chained⟩
  | assign it =>
      obtain ⟨pos, name, index, append, value⟩ := it
      cases value <;> exact ⟨placed, spelled, named, chained⟩
  | redirect it =>
      obtain ⟨pos, op, fd, target, body⟩ := it
      cases body <;> exact ⟨placed, spelled, named, chained⟩
  | word it =>
      obtain ⟨pos, parts⟩ := it
      exact ⟨placed, spelled, named, chained.place bodies⟩
  | part it =>
      cases it with
      | double _ parts | arithmetic _ parts =>
          exact ⟨placed, spelled, named, Chain.place bodies chained⟩
      | substitution _ _ backquoted => cases backquoted <;> exact ⟨placed, spelled, named, chained⟩
      | _ => exact ⟨placed, spelled, named, chained⟩

end RecipeLint
