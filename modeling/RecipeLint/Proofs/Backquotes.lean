import RecipeLint.Proofs.Assembly.Commands
import RecipeLint.Proofs.Locals

/-!
# Positions in backquotes

Statements in backquotes are read from the text without the backslashes that are undone there, but
at the position behind the opening backquote.  So the variables that are set in them are found on
the right line, and in the right column as well unless such a backslash stands in front of them on
that line, in which case the column is too small. -/

namespace RecipeLint

/-- A character whose backslash is left out in backquotes. -/
def isEscapable (c : Char) : Bool :=
  c = '\x60' || c = '$' || c = '\\'

theorem isEscapable_of_isNameChar {c : Char} (named : isNameChar c = true) :
    isEscapable c = false := by
  by_contra escapable
  simp only [isEscapable, Bool.or_eq_true, decide_eq_true_eq, Bool.not_eq_false] at escapable
  rcases escapable with (rfl | rfl) | rfl <;> exact absurd named (by decide)

/-- The second text is the first one without some of the backslashes in front of escapable
characters. -/
inductive Unescapes : List Char → List Char → Prop
  | nil : Unescapes [] []
  | char (c : Char) {written text : List Char} : Unescapes written text →
    Unescapes (c :: written) (c :: text)
  | drop {c : Char} {written text : List Char} (escapable : isEscapable c = true) :
      Unescapes (c :: written) text → Unescapes ('\\' :: c :: written) text

namespace Unescapes

variable {written written' text text' : List Char}

theorem refl (text : List Char) : Unescapes text text := by
  induction text with
  | nil => exact .nil
  | cons c text ih => exact .char c ih

theorem append (first : Unescapes written text) (second : Unescapes written' text') :
    Unescapes (written ++ written') (text ++ text') := by
  induction first with
  | nil => exact second
  | char c _ ih => exact .char c ih
  | drop escapable _ ih => exact .drop escapable ih

/-- Of the character in front, only a backslash can be left out. -/
theorem head {c d : Char} (unescapes : Unescapes (c :: written) (d :: text)) :
    c = d ∨ c = '\\' ∧ isEscapable d = true := by
  generalize first : c :: written = whole at unescapes
  generalize second : d :: text = shown at unescapes
  induction unescapes generalizing c written with
  | nil => cases first
  | char =>
      cases first
      cases second
      exact .inl rfl
  | drop escapable _ ih =>
      cases first
      rcases ih rfl second with rfl | ⟨-, shown⟩
      · exact .inr ⟨rfl, escapable⟩
      · exact .inr ⟨rfl, shown⟩

theorem trans {shown : List Char} (first : Unescapes written text) (second : Unescapes text shown) :
    Unescapes written shown := by
  induction first generalizing shown with
  | nil => exact second
  | drop escapable _ ih => exact .drop escapable (ih second)
  | @char c written text rest ih =>
      cases second with
      | char _ second => exact .char c (ih second)
      | @drop d text _ escapable second =>
          -- what stands for the escaped character starts with it, or with a backslash
          cases written with
          | nil => cases rest
          | cons e written =>
              refine .drop ?_ (ih second)
              rcases rest.head with rfl | ⟨rfl, -⟩
              · exact escapable
              · rfl

/-- What is left in two parts is written in two parts. -/
theorem split {front back : List Char} (unescapes : Unescapes written (front ++ back)) :
    ∃ first second, written = first ++ second ∧ Unescapes first front ∧ Unescapes second back := by
  generalize whole : front ++ back = text at unescapes
  induction unescapes generalizing front with
  | nil =>
      obtain ⟨rfl, rfl⟩ := List.append_eq_nil_iff.mp whole
      exact ⟨[], [], rfl, .nil, .nil⟩
  | @char c written text rest ih =>
      cases front with
      | nil =>
          cases whole
          exact ⟨[], c :: written, rfl, .nil, .char c rest⟩
      | cons d front =>
          cases whole
          obtain ⟨first, second, rfl, left, right⟩ := ih rfl
          exact ⟨c :: first, second, rfl, .char c left, right⟩
  | @drop c written text escapable rest ih =>
      cases front with
      | nil =>
          cases whole
          exact ⟨[], '\\' :: c :: written, rfl, .nil, .drop escapable rest⟩
      | cons d front =>
          obtain ⟨first, second, same, left, right⟩ := ih whole
          cases first with
          | nil => cases left
          | cons e first =>
              cases same
              exact ⟨'\\' :: c :: first, second, rfl, .drop escapable left, right⟩

/-- A text without escapable characters is written as it is. -/
theorem eq_append {name rest : List Char} (unescapes : Unescapes written (name ++ rest))
    (plain : ∀ c ∈ name, isEscapable c = false) : ∃ more, written = name ++ more := by
  induction name generalizing written with
  | nil => exact ⟨written, rfl⟩
  | cons c name ih =>
      obtain ⟨first, others⟩ := List.forall_mem_cons.mp plain
      cases unescapes with
      | char _ unescapes =>
          obtain ⟨more, rfl⟩ := ih unescapes others
          exact ⟨more, rfl⟩
      | drop escapable unescapes =>
          rcases unescapes.head with rfl | ⟨-, shown⟩
          · cases first.symm.trans escapable
          · cases first.symm.trans shown

/-! ## Positions -/

/-- What is left takes as many lines as what is written, and no more columns. -/
theorem along (unescapes : Unescapes written text) {pos outer : Position}
    (abreast : pos.line = outer.line ∧ pos.column ≤ outer.column) :
    (pos.along text).line = (outer.along written).line ∧ (pos.along text).column ≤
      (outer.along written).column := by
  induction unescapes generalizing pos outer with
  | nil => exact abreast
  | char c _ ih =>
      refine ih ?_
      unfold Position.after
      split
      · exact ⟨congrArg (· + 1) abreast.1, Int.le_refl _⟩
      · exact ⟨abreast.1, Int.add_le_add_right abreast.2 1⟩
  | drop _ _ ih => exact ih ⟨abreast.1, Int.le_trans abreast.2 (Int.le_of_lt (Int.lt_succ _))⟩

/-- Behind a newline, the column in front of it does not matter. -/
theorem along_eq_of_newline {first second : Position} (same : first.line = second.line)
    (text : List Char) (newline : '\n' ∈ text) : first.along text = second.along text := by
  induction text generalizing first second with
  | nil => cases newline
  | cons c text ih =>
      rw [Position.along_cons, Position.along_cons]
      by_cases ends : c = '\n'
      · simp only [Position.after, ends, if_true, same]
      · refine ih ?_ ((List.mem_cons.mp newline).resolve_left (Ne.symm ends))
        simp only [Position.after, if_neg ends, same]

/-- What is left ends where what is written does, unless a backslash is left out on the last
line. -/
theorem along_eq_or (unescapes : Unescapes written text) (pos : Position) :
    pos.along text = pos.along written ∨ ∃ front c back,
      written = front ++ '\\' :: c :: back ∧ isEscapable c = true ∧ '\n' ∉ back := by
  induction unescapes generalizing pos with
  | nil => exact .inl rfl
  | char c _ ih =>
      refine (ih (pos.after c)).imp_right ?_
      rintro ⟨front, d, back, rfl, holds⟩
      exact ⟨c :: front, d, back, rfl, holds⟩
  | @drop c written text escapable _ ih =>
      by_cases newline : '\n' ∈ written
      · refine (ih pos).imp ?_ ?_
        · intro same
          have level : pos.line = (pos.after '\\').line := rfl
          rw [same, Position.along_cons pos '\\']
          exact along_eq_of_newline level _ (List.mem_cons_of_mem c newline)
        · rintro ⟨front, d, back, same, holds⟩
          exact ⟨'\\' :: front, d, back, by rw [same]; rfl, holds⟩
      · exact .inr ⟨[], c, written, rfl, escapable, newline⟩

end Unescapes

/-- The text in backquotes is what stands in front of the closing one, without backslashes. -/
theorem unescapes_of_backquoteText? {text rest inside : List Char} {length stop : Nat}
    (found : backquoteText? text length rest = some (inside, stop)) :
    ∃ written back more, rest = written ++ back ∧ inside = text.reverse ++ more ∧
    Unescapes written more := by
  fun_induction backquoteText? text length rest with
  | case1 => cases found
  | case2 text length rest =>
      cases found
      exact ⟨[], _, [], rfl, (List.append_nil _).symm, .nil⟩
  | case3 text length c rest special ih =>
      obtain ⟨written, back, more, rfl, rfl, unescapes⟩ := ih found
      exact ⟨'\\' :: c :: written, back, c :: more, rfl, by simp, .drop special (.char c unescapes)⟩
  | case4 text length c rest plain ih =>
      obtain ⟨written, back, more, same, rfl, unescapes⟩ := ih found
      exact ⟨'\\' :: written, back, '\\' :: more, by rw [same]; rfl, by simp, .char '\\' unescapes⟩
  | case5 text length c rest _ _ ih =>
      obtain ⟨written, back, more, rfl, rfl, unescapes⟩ := ih found
      exact ⟨c :: written, back, c :: more, rfl, by simp, .char c unescapes⟩

/-! ## Excerpts -/

/-- Where a text that is read at a position comes from: it stands there in the source, or it and the
text between a backquote and the position are what is left of what is written. -/
inductive Traced (source : List Char) : Position → List Char → Prop
  | written {pos : Position} {text back : List Char} (stands : Stands source pos text back) :
    Traced source pos text
  | undone {outer inner shown raw text back : List Char}
    (whole : source = outer ++ '\x60' :: inner ++ (raw ++ back))
      (before : Unescapes inner shown) (inside : Unescapes raw text) :
      Traced source (Position.start.along (outer ++ '\x60' :: shown)) text

namespace Traced

variable {source text rest : List Char} {pos : Position}

theorem front (traced : Traced source pos (text ++ rest)) : Traced source pos text := by
  cases traced with
  | written stands => exact .written stands.front
  | undone whole before inside =>
      obtain ⟨first, second, rfl, left, -⟩ := inside.split
      rw [List.append_assoc first] at whole
      exact .undone whole before left

theorem behind (traced : Traced source pos (text ++ rest)) :
    Traced source (pos.along text) rest := by
  cases traced with
  | written stands => exact .written stands.behind
  | @undone outer inner shown _ _ back whole before inside =>
      obtain ⟨first, second, rfl, left, right⟩ := inside.split
      have whole : source = outer ++ '\x60' :: (inner ++ first) ++ (second ++ back) := by
        simpa only [List.append_assoc, List.cons_append] using whole
      rw [← Position.along_append, List.append_assoc, List.cons_append]
      exact .undone whole (before.append left) right

theorem unescaped {length : Nat} (traced : Traced source pos ('\x60' :: rest))
    (closed : backquoteText? [] 0 rest = some (text, length)) :
    Traced source (pos.after '\x60') text := by
  obtain ⟨written, more, _, rfl, rfl, unescapes⟩ := unescapes_of_backquoteText? closed
  cases traced with
  | @written _ _ back stands =>
      obtain ⟨front, whole, rfl⟩ := stands
      have whole : source = front ++ '\x60' :: [] ++ (written ++ (more ++ back)) := by
        simpa only [List.append_assoc, List.cons_append, List.nil_append] using whole
      rw [show (Position.start.along front).after '\x60' =
        Position.start.along (front ++ ['\x60']) by simp]
      exact .undone whole .nil unescapes
  | @undone outer inner shown _ _ back whole before inside =>
      obtain ⟨opening, _, rfl, first, inside⟩ :=
        Unescapes.split (show Unescapes _ (['\x60'] ++ _) from inside)
      obtain ⟨raw, others, rfl, left, -⟩ := inside.split
      have whole : source = outer ++ '\x60' :: (inner ++ opening) ++ (raw ++ (others ++ back)) := by
        simpa only [List.append_assoc, List.cons_append] using whole
      rw [show (Position.start.along (outer ++ '\x60' :: shown)).after '\x60' =
        Position.start.along (outer ++ '\x60' :: (shown ++ ['\x60'])) by simp]
      exact .undone whole (before.append first) (left.trans unescapes)

/-- The text is what is left of a part of the source. -/
theorem exists_infix (traced : Traced source pos text) : ∃ raw, raw <:+: source ∧
    Unescapes raw text := by
  cases traced with
  | @written _ _ back stands =>
      obtain ⟨front, rfl, -⟩ := stands
      exact ⟨text, ⟨front, back, List.append_assoc ..⟩, .refl text⟩
  | @undone outer inner _ raw _ back whole _ inside =>
      exact ⟨raw, ⟨outer ++ '\x60' :: inner, back, by rw [whole, List.append_assoc]⟩, inside⟩

end Traced

theorem Excerpt.traced {source text : List Char} {pos : Position}
    (excerpt : Excerpt source pos text) :
    Traced source pos text := by
  induction excerpt with
  | whole => exact .written ⟨[], (List.append_nil _).symm, rfl⟩
  | behind _ ih => exact ih.behind
  | front _ ih => exact ih.front
  | unescaped _ closed ih => exact ih.unescaped closed

/-- The position is on the line of a text in the source but left of it, and on that line a backslash
that can be left out stands between a backquote and the text. -/
def Shifted (source : List Char) (pos : Position) (text : List Char) : Prop :=
  ∃ front back outer inner c between,
    source = front ++ (text ++ back) ∧ front = outer ++ '\x60' :: (inner ++ '\\' :: c :: between) ∧
    isEscapable c = true ∧ '\n' ∉ between ∧
    pos.line = (Position.start.along front).line ∧ pos.column < (Position.start.along front).column

/-- A text without escapable characters stands where it is read, or right of it on the same line. -/
theorem Traced.occurs_or_shifted {source text rest : List Char} {pos : Position}
    (traced : Traced source pos (text ++ rest)) (plain : ∀ c ∈ text, isEscapable c = false) :
    Occurs source pos text ∨ Shifted source pos text := by
  cases traced with
  | written stands => exact .inl ⟨_, stands.front⟩
  | @undone outer inner shown _ _ back whole before inside =>
      obtain ⟨more, rfl⟩ := inside.eq_append plain
      rw [List.append_assoc text] at whole
      let opened := (Position.start.along outer).after '\x60'
      have along (text : List Char) : Position.start.along (outer ++ '\x60' :: text) =
          opened.along text :=
        Position.along_append ..
      rw [along]
      by_cases same : opened.along shown = opened.along inner
      · rw [same, ← along]
        exact .inl ⟨_, _, whole, rfl⟩
      · obtain ⟨front, c, between, cut, holds⟩ := (before.along_eq_or opened).resolve_left same
        have ⟨lines, columns⟩ := before.along (⟨rfl, Int.le_refl _⟩ : opened.line = opened.line ∧ _)
        have left : (opened.along shown).column ≠ (opened.along inner).column := fun columns =>
          same (congrArg₂ Position.mk lines columns)
        rw [← along inner] at lines columns left
        exact .inr ⟨_, _, outer, front, c, between,
          whole, by rw [cut], holds.1, holds.2, lines, by omega⟩

namespace Script

/-- The variable of every assignment and iteration stands at the position of its node, at any depth
of backquotes, unless a backslash is left out between a backquote and the variable on its line. -/
theorem parse_assigned {name : String} {text : List Char} {limit : NestingLimit} {script : Script}
    (read : parse name text limit = .ok script) {node : Node}
    (member : node ∈ (Node.script script).preorder) {id : String} (set : node.assigned? = some id) :
    Occurs text node.pos id.toList ∨ Shifted text node.pos id.toList := by
  obtain ⟨named, rest, excerpt⟩ := (sourced_of_mem_preorder read member).stands id set
  exact excerpt.traced.occurs_or_shifted fun c member => isEscapable_of_isNameChar (named c member)

/-- An assignment two backquotes deep, on a line of its own. -/
theorem parse_assigned_nested : ∃ script node,
    parse "" "\x60a \\\x60\ny=2\\\x60\x60".toList = .ok script ∧
    node ∈ (Node.script script).preorder ∧
    node.assigned? = some "y" ∧ (Occurs "\x60a \\\x60\ny=2\\\x60\x60".toList node.pos "y".toList ∨
      Shifted "\x60a \\\x60\ny=2\\\x60\x60".toList node.pos "y".toList) := by
  have found : (parse "" "\x60a \\\x60\ny=2\\\x60\x60".toList).toOption.any (fun script =>
      decide (∃ node ∈ (Node.script script).preorder, node.assigned? = some "y")) = true := by
    decide +kernel
  obtain ⟨script, read, holds⟩ := Recipe.exists_of_any found
  obtain ⟨node, member, set⟩ := of_decide_eq_true holds
  exact ⟨script, node, read, member, set, parse_assigned read member set⟩

/-- Behind an escaped dollar sign, the position of an assignment in backquotes is that of the blank
in front of it. -/
theorem parse_assigned_shifted : ∃ script node,
    parse "" "\x60: \\$a; y=1\x60".toList = .ok script ∧ node ∈ (Node.script script).preorder ∧
    node.assigned? = some "y" ∧ ¬Occurs "\x60: \\$a; y=1\x60".toList node.pos "y".toList := by
  have found : (parse "" "\x60: \\$a; y=1\x60".toList).toOption.any (fun script =>
      decide (∃ node ∈ (Node.script script).preorder, node.assigned? = some "y" ∧
        node.pos = ⟨1, 8⟩)) = true := by
    decide +kernel
  obtain ⟨script, read, holds⟩ := Recipe.exists_of_any found
  obtain ⟨node, member, set, pos⟩ := of_decide_eq_true holds
  refine ⟨script, node, read, member, set, ?_⟩
  rintro ⟨rest, stands⟩
  have blank : Stands "\x60: \\$a; y=1\x60".toList ⟨1, 8⟩ [' '] "y=1\x60".toList :=
    ⟨"\x60: \\$a;".toList, by decide, by decide⟩
  rw [pos] at stands
  cases stands.unique blank

end Script
end RecipeLint
