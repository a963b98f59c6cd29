import Mathlib.Data.List.TakeWhile
import RecipeLint.Proofs.Consumption

/-!
# How far recognisers look

A dollar sign is part of no operator, and a newline ends every token unless a backslash escapes it.
So what is recognised in front of a text does not depend on what follows such a mark.
-/

namespace RecipeLint

/-- A character that ends what is recognised in the text in front of it. -/
structure Marks (mark : Char) (front : List Char) : Prop where
  marked : mark = '$' ∨ mark = '\n'
  unescaped : mark = '\n' → front.getLast? ≠ some '\\'

/-- A recogniser that looks no further than a mark. -/
def Sighted (recognise : List Char → α) : Prop :=
  ∀ {mark front} (first second : List Char), Marks mark front →
    recognise (front ++ mark :: first) = recognise (front ++ mark :: second)

namespace Marks

variable {mark : Char} {front : List Char}

theorem tail {c : Char} (marks : Marks mark (c :: front)) : Marks mark front where
  marked := marks.marked
  unescaped newline last := marks.unescaped newline (by
    rw [List.getLast?_cons, last]
    rfl)

theorem drop (marks : Marks mark front) (count : Nat) : Marks mark (front.drop count) := by
  induction count generalizing front with
  | zero => exact marks
  | succ count ih =>
      cases front with
      | nil => exact marks
      | cons c front => exact ih marks.tail

end Marks

theorem head?_sighted : Sighted (List.head? : List Char → Option Char) := by
  intro mark front first second _
  cases front <;> rfl

theorem blankRun_of_not_blank {c : Char} {text : List Char} (other : c ∉ [' ', '\t', '\r'])
    (escape : c = '\\' → text.head? ≠ some '\n') : blankRun (c :: text) = 0 := by
  unfold blankRun
  split <;> simp_all

/-- Blanks in front of a mark. -/
theorem blankRun_append_mark {mark : Char} (first second : List Char) :
    ∀ {front : List Char}, Marks mark front →
      blankRun (front ++ mark :: first) = blankRun (front ++ mark :: second)
  | [], marks => by rcases marks.marked with rfl | rfl <;> rfl
  | c :: front, marks => by
      have tail := blankRun_append_mark first second marks.tail
      by_cases blank : c ∈ [' ', '\t', '\r']
      · simp only [List.mem_cons, List.not_mem_nil, or_false] at blank
        rcases blank with rfl | rfl | rfl <;> simpa [blankRun] using tail
      match front with
      | [] =>
          have escape : c = '\\' → mark ≠ '\n' := by
            rintro rfl rfl
            exact marks.unescaped rfl rfl
          have short (rest : List Char) : blankRun ([c] ++ mark :: rest) = 0 :=
            blankRun_of_not_blank blank (by simpa using escape)
          rw [short, short]
      | d :: front =>
          by_cases escape : c = '\\' ∧ d = '\n'
          · obtain ⟨rfl, rfl⟩ := escape
            have tail := blankRun_append_mark first second marks.tail.tail
            simpa [blankRun] using tail
          · have short (rest : List Char) : blankRun (c :: d :: front ++ mark :: rest) = 0 :=
              blankRun_of_not_blank blank (by simpa using escape)
            rw [short, short]

theorem blankRun_sighted : Sighted blankRun :=
  fun first second marks => blankRun_append_mark first second marks

/-- The characters of a kind that no mark is of. -/
theorem takeWhile_append_mark {p : Char → Bool} {mark : Char} {front : List Char}
    (other : p mark = false) (rest : List Char) :
    (front ++ mark :: rest).takeWhile p = front.takeWhile p := by
  induction front with
  | nil => simp [other]
  | cons c front ih => by_cases holds : p c <;> simp [holds, ih]

theorem takeWhile_sighted {p : Char → Bool} (dollar : p '$' = false) (newline : p '\n' = false) :
    Sighted (List.takeWhile p) := by
  intro mark front first second marks
  have other : p mark = false := by rcases marks.marked with rfl | rfl <;> assumption
  rw [takeWhile_append_mark other, takeWhile_append_mark other]

theorem nameRun_sighted : Sighted nameRun := by
  intro mark front first second marks
  unfold nameRun
  rw [head?_sighted first second marks, takeWhile_sighted (by decide) (by decide)
    first second marks]

/-- Words in which a mark stands at most at the end. -/
def Unmarked (word : List Char) : Prop :=
  '$' ∉ word.dropLast ∧ '\n' ∉ word.dropLast

instance (word : List Char) : Decidable (Unmarked word) :=
  inferInstanceAs (Decidable ('$' ∉ word.dropLast ∧ '\n' ∉ word.dropLast))

theorem isPrefixOf_sighted {word : List Char} (unmarked : Unmarked word) :
    Sighted word.isPrefixOf := by
  intro mark front first second marks
  induction word generalizing front with
  | nil => simp
  | cons c word ih =>
      cases front with
      | nil =>
          cases word with
          | nil => simp [List.isPrefixOf]
          | cons d word =>
              have other : c ≠ mark := by
                rintro rfl
                rcases marks.marked with rfl | rfl
                · exact unmarked.1 (by simp)
                · exact unmarked.2 (by simp)
              simp only [List.nil_append, List.isPrefixOf_cons_cons, beq_false_of_ne other,
                Bool.false_and]
      | cons d front =>
          have longer {e : Char} (member : e ∈ word.dropLast) : e ∈ (c :: word).dropLast := by
            cases word with
            | nil => cases member
            | cons f word => exact .tail c member
          have shorter : Unmarked word := ⟨mt longer unmarked.1, mt longer unmarked.2⟩
          simp only [List.cons_append, List.isPrefixOf_cons_cons, ih shorter marks.tail]

theorem find?_sighted {written : α → List Char} {values : List α}
    (unmarked : ∀ value ∈ values, Unmarked (written value)) :
    Sighted fun text => values.find? fun value => (written value).isPrefixOf text := by
  intro mark front first second marks
  induction values with
  | nil => rfl
  | cons value values ih =>
      have later := ih fun other member => unmarked other (by simp [member])
      simp only [List.find?_cons] at later ⊢
      rw [isPrefixOf_sighted (unmarked value (by simp)) first second marks, later]

theorem any_sighted {words : List (List Char)} (unmarked : ∀ word ∈ words, Unmarked word) :
    Sighted fun text => words.any fun word => word.isPrefixOf text := by
  intro mark front first second marks
  induction words with
  | nil => rfl
  | cons word words ih =>
      have later := ih fun other member => unmarked other (by simp [member])
      simp only [List.any_cons] at later ⊢
      rw [isPrefixOf_sighted (unmarked word (by simp)) first second marks, later]

theorem isEmpty_sighted : Sighted (List.isEmpty : List Char → Bool) := by
  intro mark front first second _
  cases front <;> rfl

theorem take_one_sighted : Sighted (List.take 1 : List Char → List Char) := by
  intro mark front first second _
  cases front <;> rfl

theorem pipe?_sighted : Sighted Connective.pipe? := by
  intro mark front first second marks
  unfold Connective.pipe?
  rw [isPrefixOf_sighted (by decide) first second marks]
  congr 1
  exact find?_sighted (by decide) first second marks

theorem logical?_sighted : Sighted Connective.logical? :=
  find?_sighted (by decide)

theorem closesCaseItem_sighted : Sighted closesCaseItem :=
  any_sighted (by decide)

theorem negates_sighted : Sighted negates :=
  any_sighted (by decide)

theorem asksForNames_sighted : Sighted asksForNames :=
  any_sighted (by decide)

theorem testOperator?_sighted : Sighted testOperator? :=
  @find?_sighted _ id _ (by decide)

theorem operandOperator?_sighted : Sighted operandOperator? :=
  @find?_sighted _ id _ (by decide)

theorem caseEnd?_sighted : Sighted CaseEnd.of? :=
  find?_sighted (by decide)

theorem redirectHead_of?_sighted : Sighted RedirectHead.of? := by
  intro mark front first second marks
  have other : Text.isDecimal mark = false := by rcases marks.marked with rfl | rfl <;> decide
  have short : (front.takeWhile Text.isDecimal).length ≤ front.length :=
    (List.takeWhile_prefix _).length_le
  have dropped (rest : List Char) :
      (front ++ mark :: rest).drop (front.takeWhile Text.isDecimal).length =
        front.drop (front.takeWhile Text.isDecimal).length ++ mark :: rest :=
    List.drop_append_of_le_length short
  have op : Sighted RedirectOp.of? := find?_sighted (by decide)
  have both : Sighted RedirectOp.both? := find?_sighted (by decide)
  simp only [RedirectHead.of?, takeWhile_append_mark other, dropped]
  rw [op first second (marks.drop _), both first second marks]

theorem starting?_sighted : Sighted RedirectHead.starting? := by
  intro mark front first second marks
  have process := @any_sighted [['<', '('], ['>', '(']] (by decide) mark front first second marks
  simp only at process
  rw [RedirectHead.starting?, RedirectHead.starting?, process,
    redirectHead_of?_sighted first second marks]

theorem parameterRun_sighted : Sighted parameterRun := by
  intro mark front first second marks
  cases front with
  | nil => rcases marks.marked with rfl | rfl <;> rfl
  | cons c front =>
      have named := @takeWhile_sighted isNameChar (by decide) (by decide) _ _ first second marks
      have counted := @takeWhile_sighted Char.isDigit (by decide) (by decide) _ _ first second marks
      simp only [List.cons_append] at named counted
      simp only [List.cons_append, parameterRun, named, counted]

theorem question?_sighted : Sighted Question.of? := by
  intro mark front first second marks
  cases front with
  | nil => rcases marks.marked with rfl | rfl <;> rfl
  | cons c front =>
      simp only [List.cons_append, Question.of?, head?_sighted first second marks.tail]

/-- A word without marks that stands in front of a text ends before the first mark. -/
theorem length_le_of_isPrefixOf {mark : Char} {word front rest : List Char}
    (plain : mark ∉ word) (starts : word.isPrefixOf (front ++ mark :: rest) = true) :
    word.length ≤ front.length := by
  induction word generalizing front with
  | nil => simp
  | cons c word ih =>
      cases front with
      | nil =>
          simp only [List.nil_append, List.isPrefixOf_cons_cons, Bool.and_eq_true,
            beq_iff_eq] at starts
          exact absurd starts.1 (by rintro rfl; simp at plain)
      | cons d front =>
          simp only [List.cons_append, List.isPrefixOf_cons_cons, Bool.and_eq_true] at starts
          have later := ih (fun member => plain (by simp [member])) starts.2
          simpa using later

theorem getElem?_append_mark {mark : Char} {front : List Char} {place : Nat}
    (inside : place ≤ front.length) (rest : List Char) :
    (front ++ mark :: rest)[place]? = (front ++ [mark])[place]? := by
  rw [List.append_cons, List.getElem?_append_left (by simp; omega)]

/-- Whether a word stands on its own in front of a text. -/
theorem atWord_sighted {word : String} (plain : '$' ∉ word.toList ∧ '\n' ∉ word.toList) :
    Sighted fun text =>
      word.toList.isPrefixOf text && (text[word.length]?).all wordDelimiters.contains := by
  intro mark front first second marks
  have kept {c : Char} : c ∈ word.toList.dropLast → c ∈ word.toList :=
    fun member => (List.dropLast_sublist _).subset member
  have unmarked : Unmarked word.toList := ⟨mt kept plain.1, mt kept plain.2⟩
  have found := isPrefixOf_sighted unmarked first second marks
  simp only [found]
  cases starts : word.toList.isPrefixOf (front ++ mark :: second) with
  | false => rfl
  | true =>
      have absent : mark ∉ word.toList := by
        rcases marks.marked with rfl | rfl
        · exact plain.1
        · exact plain.2
      have inside := length_le_of_isPrefixOf absent starts
      rw [String.length_toList] at inside
      rw [getElem?_append_mark inside first, getElem?_append_mark inside second]

namespace AssignHead

/-- A text that ends inside the brackets of an assignment's head. -/
structure Open (front name inside : List Char) : Prop where
  front_eq : front = name ++ '[' :: inside
  name_eq : nameRun front = name
  named : name ≠ []
  unclosed : ∀ c ∈ inside, c ≠ ']' ∧ c ≠ '\n'

theorem nameRun_append_mark {mark : Char} {front : List Char} (marks : Marks mark front)
    (rest : List Char) : nameRun (front ++ mark :: rest) = nameRun front := by
  have start : isNameStart mark = false := by rcases marks.marked with rfl | rfl <;> decide
  have other : isNameChar mark = false := by rcases marks.marked with rfl | rfl <;> decide
  unfold nameRun
  rw [takeWhile_append_mark other]
  cases front with
  | nil => simp [start]
  | cons c front => rfl

theorem operator?_sighted : Sighted operator? := by
  intro mark front first second marks
  unfold operator?
  rw [isPrefixOf_sighted (by decide) first second marks,
    isPrefixOf_sighted (by decide) first second marks]

/-- Up to an index that is still open, the head of an assignment ends before a mark. -/
theorem index?_append_mark {mark : Char} {front : List Char} (marks : Marks mark front)
    (first second : List Char) :
    (index? (front ++ mark :: first) = index? (front ++ mark :: second) ∧
      ∀ index, index? (front ++ mark :: first) = some index → index.length + 2 ≤ front.length) ∨
    mark = '$' ∧ ∃ inside, front = '[' :: inside ∧ ∀ c ∈ inside, c ≠ ']' ∧ c ≠ '\n' := by
  match front, marks with
  | [], marks => rcases marks.marked with rfl | rfl <;> exact .inl ⟨rfl, nofun⟩
  | c :: tail, marks =>
      by_cases bracket : c = '['
      · subst bracket
        by_cases unclosed : ∀ c ∈ tail, c ≠ ']' ∧ c ≠ '\n'
        · rcases marks.marked with rfl | rfl
          · exact .inr ⟨rfl, tail, rfl, unclosed⟩
          · have stopped (rest : List Char) : index? ('[' :: tail ++ '\n' :: rest) = none := by
              have taken : (tail ++ '\n' :: rest).takeWhile (fun c => c ≠ ']' && c ≠ '\n') =
                  tail := by
                rw [takeWhile_append_mark (by decide), List.takeWhile_eq_self_iff.mpr]
                simpa using unclosed
              simp only [List.cons_append, index?, taken]
              simp
            exact .inl ⟨by rw [stopped, stopped], fun index found =>
              absurd ((stopped first).symm.trans found) nofun⟩
        · have shorter : (tail.takeWhile fun c => c ≠ ']' && c ≠ '\n').length < tail.length := by
            refine Nat.lt_of_le_of_ne (List.takeWhile_prefix _).length_le fun same => unclosed ?_
            have whole := (List.takeWhile_prefix _).eq_of_length same
            simpa using List.takeWhile_eq_self_iff.mp whole
          have taken (rest : List Char) :
              (tail ++ rest).takeWhile (fun c => c ≠ ']' && c ≠ '\n') =
                tail.takeWhile fun c => c ≠ ']' && c ≠ '\n' := by
            rw [List.takeWhile_append, if_neg (Nat.ne_of_lt shorter)]
          have closed (rest : List Char) : index? ('[' :: tail ++ rest) = index? ('[' :: tail) := by
            simp only [List.cons_append, index?, taken, List.getElem?_append_left shorter]
          refine .inl ⟨by rw [closed, closed], fun index found => ?_⟩
          rw [closed] at found
          simp only [index?] at found
          split at found
          · cases found
            simp only [List.length_cons]
            omega
          · cases found
      · have none (rest : List Char) : index? (c :: rest) = none := by
          unfold index?
          split
          · simp_all
          · rfl
        exact .inl ⟨by simp [none], by simp [none]⟩

theorem operator_isPrefixOf {append : Bool} {text : List Char}
    (found : operator? text = some append) (name : List Char) (index : Option (List Char)) :
    (AssignHead.mk name index append).operator.isPrefixOf text = true := by
  unfold operator? at found
  split at found
  next starts =>
    cases found
    exact starts
  next =>
    split at found
    next starts =>
      cases found
      exact starts
    next => cases found

/-- The head of an assignment is recognised in front of a mark, or the mark stands in its index. -/
theorem of?_append_mark {mark : Char} {front : List Char} (marks : Marks mark front)
    (first second : List Char) :
    (of? (front ++ mark :: first) = of? (front ++ mark :: second) ∧
      ∀ head, of? (front ++ mark :: first) = some head → head.text.length ≤ front.length) ∨
    mark = '$' ∧ ∃ name inside, Open front name inside := by
  have shorter : (nameRun front).length ≤ front.length := by
    unfold nameRun
    split
    · exact (List.takeWhile_prefix _).length_le
    · simp
  have dropped (rest : List Char) : (front ++ mark :: rest).drop (nameRun front).length =
      front.drop (nameRun front).length ++ mark :: rest := List.drop_append_of_le_length shorter
  have later := marks.drop (nameRun front).length
  have absent (head : AssignHead) : mark ∉ head.operator := by
    unfold operator
    rcases marks.marked with rfl | rfl <;> split <;> decide
  simp only [of?, nameRun_append_mark marks, dropped]
  by_cases unnamed : (nameRun front).isEmpty = true
  · simp [unnamed]
  simp only [if_neg unnamed]
  rcases index?_append_mark later first second with ⟨same, inside⟩ | ⟨dollar, inside,
    front_eq, unclosed⟩
  · left
    rw [← same]
    cases found : index? (front.drop (nameRun front).length ++ mark :: first) with
    | none =>
        simp only [operator?_sighted first second later, true_and]
        intro head recognised
        obtain ⟨append, operated, rfl⟩ := Option.map_eq_some_iff.mp recognised
        have fits := length_le_of_isPrefixOf (absent _)
          (operator_isPrefixOf operated (nameRun front) none)
        rw [length_text]
        simp only [indexText, Option.map_none, Option.getD_none, List.length_nil, List.length_drop]
          at fits ⊢
        omega
    | some index =>
        have fits := inside index found
        simp only [List.drop_append_of_le_length fits,
          operator?_sighted first second (later.drop _), true_and]
        intro head recognised
        obtain ⟨append, operated, rfl⟩ := Option.map_eq_some_iff.mp recognised
        have ends := length_le_of_isPrefixOf (absent _)
          (operator_isPrefixOf operated (nameRun front) (some index))
        rw [length_text]
        simp only [indexText, Option.map_some, Option.getD_some, List.length_drop,
          List.length_append, List.length_cons, List.length_nil] at fits ends ⊢
        omega
  · refine .inr ⟨dollar, nameRun front, inside, ?_, rfl, by simpa using unnamed, unclosed⟩
    rw [← front_eq]
    exact nameRun_append_drop front

end AssignHead

end RecipeLint
