import Mathlib.Data.List.Infix
import RecipeLint.Proofs.Heads

/-!
# The patterns of assignments and redirections

The two heads that have parts are described by patterns with numbered groups.  A pattern is tried
with backtracking: `Pattern.attempts` lists the ways to take a front of a text in the order in which
they are tried, and the first one counts.  The recognisers find the same front and the same groups
without ever going back.
-/

namespace RecipeLint

/-- A pattern of the front of a text. -/
inductive Pattern where
  /-- One character of a class. -/
  | one (accepts : Char → Bool)
  /-- Characters of a class, as many as there are unless what follows needs some of them. -/
  | many (accepts : Char → Bool)
  /-- One of some texts, the first of them that fits. -/
  | oneOf (texts : List String)
  | nothing
  | sequence (first second : Pattern)
  | choice (first second : Pattern)
  | group (number : Nat) (inner : Pattern)

/-- What a pattern takes of a text, and what its groups take of that. -/
structure Match where
  taken : List Char
  groups : List (Nat × List Char)

namespace Pattern

/-- The ways in which a pattern takes a front of a text, in the order in which they are tried. -/
def attempts : Pattern → List Char → List Match
  | one _, [] => []
  | one accepts, c :: _ => if accepts c then [⟨[c], []⟩] else []
  | many accepts, text => (text.takeWhile accepts).inits.reverse.map fun run => ⟨run, []⟩
  | oneOf texts, text =>
      (texts.filter (·.toList.isPrefixOf text)).map fun front => ⟨front.toList, []⟩
  | nothing, _ => [⟨[], []⟩]
  | sequence first second, text =>
      (first.attempts text).flatMap fun front =>
        (second.attempts (text.drop front.taken.length)).map fun back =>
          ⟨front.taken ++ back.taken, front.groups ++ back.groups⟩
  | choice first second, text => first.attempts text ++ second.attempts text
  | group number inner, text =>
      (inner.attempts text).map fun it => ⟨it.taken, (number, it.taken) :: it.groups⟩

def match? (pattern : Pattern) (text : List Char) : Option Match :=
  (pattern.attempts text).head?

/-- A name, an index in brackets or none, and an operator. -/
def assignment : Pattern :=
  .sequence (.group 1 (.sequence (.one isNameStart) (.many isNameChar))) behind
where
  behind : Pattern :=
    .sequence (.choice bracketed .nothing) operator
  bracketed : Pattern :=
    .group 2 (.sequence (.one (· = '['))
      (.sequence (.many fun c => c ≠ ']' && c ≠ '\n') (.one (· = ']'))))
  operator : Pattern :=
    .group 3 (.sequence (.choice (.one (· = '+')) .nothing) (.one (· = '=')))

/-- A descriptor or none and an operator, or an operator for both outputs. -/
def redirection : Pattern :=
  .choice described (.group 3 (.oneOf ["&>>", "&>"]))
where
  described : Pattern :=
    .sequence (.group 1 (.many Text.isDecimal)) (.group 2 (.oneOf signs))
  signs : List String :=
    ["<<-", "<<<", "<<", "<>", "<&", ">>", ">&", ">|", "<", ">"]

/-- If what follows cannot start with a character of the class, nothing of a run is given back. -/
theorem flatMap_inits {accepts : Char → Bool} {text : List Char} {further : List Char → List α}
    (refuses : ∀ front c back, text = front ++ c :: back → accepts c = true → further front = []) :
    (text.takeWhile accepts).inits.reverse.flatMap further = further (text.takeWhile accepts) := by
  induction text generalizing further with
  | nil => simp
  | cons c text ih =>
      by_cases accepted : accepts c = true
      · have nothing : further [] = [] := refuses [] c text rfl accepted
        have later := @ih (fun run => further (c :: run)) fun front d back shape =>
          refuses (c :: front) d back (congrArg (c :: ·) shape)
        rw [List.takeWhile_cons_of_pos accepted, ← later]
        simp [nothing, List.flatMap_append, List.flatMap_map, ← List.map_reverse]
      · simp [accepted]

end Pattern

open Pattern

/-! ## Assignments -/

namespace AssignHead

variable {c : Char}

theorem attempts_operator (text : List Char) : assignment.operator.attempts text =
    (operator? text).toList.map fun append =>
      let operator := if append then ['+', '='] else ['=']
      ⟨operator, [(3, operator)]⟩ := by
  cases text with
  | nil => rfl
  | cons c text =>
      rcases eq_or_ne c '=' with rfl | equal
      · rfl
      · rcases eq_or_ne c '+' with rfl | plus
        · cases text with
          | nil => rfl
          | cons d text =>
              rcases eq_or_ne d '=' with rfl | other
              · rfl
              · simp [assignment.operator, attempts, operator?, other, other.symm]
        · simp [assignment.operator, attempts, operator?, equal, equal.symm, plus, plus.symm]

theorem index?_of_ne (other : c ≠ '[') (text : List Char) : index? (c :: text) = none := by
  unfold index?
  split
  next same => exact absurd (List.cons.inj same).1 other
  next => rfl

theorem attempts_bracketed (text : List Char) : assignment.bracketed.attempts text =
    (index? text).toList.map fun index =>
      let bracketed := '[' :: index ++ [']']
      ⟨bracketed, [(2, bracketed)]⟩ := by
  cases text with
  | nil => rfl
  | cons c text =>
      rcases eq_or_ne c '[' with rfl | other
      · simp only [assignment.bracketed, attempts, List.flatMap_map, decide_true, if_true,
          List.flatMap_singleton, List.length_singleton, List.drop_one, List.tail_cons]
        rw [flatMap_inits]
        · simp only [index?, ← List.head?_drop]
          cases text.drop (text.takeWhile fun c => c ≠ ']' && c ≠ '\n').length with
          | nil => simp [attempts]
          | cons d rest => by_cases closed : d = ']' <;> simp [attempts, closed]
        · rintro front d back rfl inside
          simp_all [attempts]
      · simp [assignment.bracketed, attempts, index?_of_ne other, other]

/-- What follows a name stands at no character that could belong to the name. -/
theorem attempts_behind_of_isNameChar (inside : isNameChar c = true) (text : List Char) :
    assignment.behind.attempts (c :: text) = [] := by
  have other : c ≠ '[' := by rintro rfl; cases inside
  have equal : '=' ≠ c := by rintro rfl; cases inside
  have plus : '+' ≠ c := by rintro rfl; cases inside
  have operator : operator? (c :: text) = none := by simp [operator?, equal, plus]
  simp [assignment.behind, attempts, attempts_bracketed, attempts_operator, index?_of_ne other,
    operator]

/-- The head with its groups: the name, the index in its brackets and the operator. -/
def asMatch (head : AssignHead) : Match where
  taken := head.text
  groups := (1, head.name) :: ((head.indexText.map ((2, ·))).toList ++ [(3, head.operator)])

/-- Behind a name an index is skipped if there is one; at its bracket there is no operator. -/
theorem attempts_behind (name text : List Char) :
    (assignment.behind.attempts text).map (fun back =>
        (⟨name ++ back.taken, (1, name) :: back.groups⟩ : Match)) =
      (match index? text with
        | some index => (operator? (text.drop (index.length + 2))).map (mk name (some index))
        | none => (operator? text).map (mk name none)).toList.map asMatch := by
  simp only [assignment.behind, attempts, attempts_bracketed, attempts_operator]
  cases found : index? text with
  | none =>
      simp [asMatch, AssignHead.text, indexText, operator, Function.comp_def, Option.toList_map]
  | some index =>
      have bracket : operator? text = none := by
        rw [(index_of_index? found).1]
        rfl
      simp [asMatch, AssignHead.text, indexText, operator, Function.comp_def, Option.toList_map,
        bracket]

/-- There is at most one way to take an assignment apart, and the recogniser finds it. -/
theorem attempts_assignment (text : List Char) :
    assignment.attempts text = (of? text).toList.map asMatch := by
  cases text with
  | nil => rfl
  | cons c text =>
      by_cases start : isNameStart c = true
      · have run : nameRun (c :: text) = c :: text.takeWhile isNameChar := by
          simp [nameRun, start, isNameChar_of_isNameStart start]
        have named : assignment.attempts (c :: text) =
            (text.takeWhile isNameChar).inits.reverse.flatMap fun run =>
              (assignment.behind.attempts (text.drop run.length)).map fun back =>
                ⟨c :: run ++ back.taken, (1, c :: run) :: back.groups⟩ := by
          simp [assignment, attempts, start, List.flatMap_map, - List.map_reverse]
        rw [named, flatMap_inits]
        · rw [attempts_behind, of?, run]
          rfl
        · rintro front d back rfl inside
          simp [attempts_behind_of_isNameChar inside]
      · have run : nameRun (c :: text) = [] := by simp [nameRun, start]
        simp [assignment, attempts, of?, run, start]

end AssignHead

/-! ## Redirections -/

namespace RedirectHead

/-- The head with its groups: the descriptor and the operator, or the operator for both outputs. -/
def asMatch (head : RedirectHead) : Match where
  taken := head.text
  groups := match head.descriptor with
    | some digits => [(1, digits), (2, head.op.text.toList)]
    | none => [(3, head.op.text.toList)]

/-- Of some operators the first that stands in front of a text is tried first. -/
theorem head?_attempts_oneOf (ops : List RedirectOp) (text : List Char) :
    ((oneOf (ops.map RedirectOp.text)).attempts text).head? =
      (ops.find? (·.text.toList.isPrefixOf text)).map fun op => ⟨op.text.toList, []⟩ := by
  simp [attempts, List.filter_map, Function.comp_def]

/-- The digits in front of an operator are all taken, because no operator stands at a digit. -/
theorem attempts_described (text : List Char) : redirection.described.attempts text =
    let digits := text.takeWhile Text.isDecimal
    ((oneOf redirection.signs).attempts (text.drop digits.length)).map fun back =>
      ⟨digits ++ back.taken, (1, digits) :: (2, back.taken) :: back.groups⟩ := by
  have refuses {c : Char} (digit : Text.isDecimal c = true) (text : List Char) :
      (oneOf redirection.signs).attempts (c :: text) = [] := by
    have less : '<' ≠ c := by rintro rfl; cases digit
    have greater : '>' ≠ c := by rintro rfl; cases digit
    simp [attempts, redirection.signs, less, greater]
  rw [redirection.described]
  generalize oneOf redirection.signs = operator at refuses ⊢
  simp only [attempts, List.flatMap_map, List.map_map]
  rw [flatMap_inits]
  · simp [Function.comp_def]
  · rintro front c back rfl digit
    simp [refuses digit]

/-- What is tried first for a redirection is what the recogniser finds. -/
theorem match?_redirection (text : List Char) :
    redirection.match? text = (of? text).map asMatch := by
  have operated (text : List Char) : ((oneOf redirection.signs).attempts text).head? =
      (RedirectOp.of? text).map fun op => ⟨op.text.toList, []⟩ :=
    head?_attempts_oneOf [.hereDocTabs, .hereString, .hereDoc, .readWrite, .duplicateInput, .append,
      .duplicateOutput, .clobber, .input, .output] text
  have both : ((oneOf ["&>>", "&>"]).attempts text).head? =
      (RedirectOp.both? text).map fun op => ⟨op.text.toList, []⟩ :=
    head?_attempts_oneOf [.appendBoth, .outputBoth] text
  rw [match?, redirection, attempts, attempts_described, attempts, List.head?_append,
    List.head?_map, List.head?_map, operated, both, of?]
  cases RedirectOp.of? (text.drop (text.takeWhile Text.isDecimal).length) with
  | some op => simp [asMatch, RedirectHead.text]
  | none => cases RedirectOp.both? text <;> simp [asMatch, RedirectHead.text]

end RedirectHead

/-- The recognisers find what the patterns match, and its groups. -/
theorem heads_match (text : List Char) :
    assignment.match? text = (AssignHead.of? text).map AssignHead.asMatch ∧
      redirection.match? text = (RedirectHead.of? text).map RedirectHead.asMatch := by
  constructor
  · rw [match?, AssignHead.attempts_assignment, List.head?_map, Option.head?_toList]
  · exact RedirectHead.match?_redirection _

end RecipeLint
