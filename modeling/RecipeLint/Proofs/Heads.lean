import RecipeLint.Source.Lexeme

/-!
# Heads stand where they are recognised

A recogniser that succeeds in front of a text has found the head's own text there.  The characters
of a head never include a newline, except in the index of an assignment, which excludes it as well.
-/

namespace RecipeLint

variable {text : List Char}

/-- What holds of the characters of a text is decided along the text, not by going through all
characters. -/
instance decidableForallChars {holds : Char → Prop} [DecidablePred holds] (text : List Char) :
    Decidable (∀ c ∈ text, holds c) :=
  List.decidableBAll holds text

theorem takeWhile_prefix_drop (p : Char → Bool) (text : List Char) :
    text = text.takeWhile p ++ text.drop (text.takeWhile p).length := by
  induction text with
  | nil => rfl
  | cons c text ih =>
      by_cases holds : p c
      · simpa [holds] using ih
      · simp [holds]

theorem take_length_takeWhile (p : Char → Bool) (text : List Char) :
    text.take (text.takeWhile p).length = text.takeWhile p :=
  (List.prefix_iff_eq_take.mp (List.takeWhile_prefix p)).symm

theorem isNameChar_of_isNameStart {c : Char} (start : isNameStart c = true) :
    isNameChar c = true := by
  simp only [isNameStart, isNameChar, Char.isAlphanum, Bool.or_eq_true] at start ⊢
  rcases start with alpha | underscore
  · exact .inl (.inl alpha)
  · exact .inr underscore

theorem nameRun_append_drop (text : List Char) :
    text = nameRun text ++ text.drop (nameRun text).length := by
  unfold nameRun
  split
  · exact takeWhile_prefix_drop isNameChar text
  · rfl

theorem isName_nameRun (filled : nameRun text ≠ []) : isName (nameRun text) = true := by
  unfold nameRun at filled ⊢
  split
  next start =>
    cases text with
    | nil => cases start
    | cons c text =>
        have part : isNameChar c = true := isNameChar_of_isNameStart start
        rw [isName, List.takeWhile_cons_of_pos part, List.all_cons, part, List.all_takeWhile]
        simpa using start
  next other => exact absurd (if_neg other) filled

theorem isNameChar_of_isName (named : isName text = true) : ∀ c ∈ text, isNameChar c = true :=
  List.all_eq_true.mp (Bool.and_eq_true_iff.mp named).2

theorem ne_nil_of_isName (named : isName text = true) : text ≠ [] := by
  rintro rfl
  cases named

/-- A recognised text stands in front. -/
theorem front_of_isPrefixOf {front : List Char} (starts : front.isPrefixOf text = true) :
    ∃ rest, text = front ++ rest := by
  obtain ⟨rest, eq⟩ := List.isPrefixOf_iff_prefix.mp starts
  exact ⟨rest, eq.symm⟩

theorem front_of_find? (written : α → List Char) {values : List α} {value : α}
    (found : values.find? (fun value => (written value).isPrefixOf text) = some value) :
    ∃ rest, text = written value ++ rest :=
  front_of_isPrefixOf (by simpa using List.find?_some found)

namespace AssignHead

variable {text : List Char}

theorem operator_of_operator? {append : Bool} (found : operator? text = some append) :
    ∃ rest, text = (if append then ['+', '='] else ['=']) ++ rest := by
  unfold operator? at found
  split at found
  next starts =>
    cases found
    exact front_of_isPrefixOf starts
  next =>
    split at found
    next starts =>
      cases found
      exact front_of_isPrefixOf starts
    next => cases found

/-- A recognised index stands in brackets on one line. -/
theorem index_of_index? {index : List Char} (found : index? text = some index) :
    text = '[' :: index ++ [']'] ++ text.drop (index.length + 2) ∧ ']' ∉ index ∧ '\n' ∉ index := by
  unfold index? at found
  split at found
  next rest =>
    simp only at found
    split at found
    next closed =>
      cases found
      have inside {c : Char} (member : c ∈ rest.takeWhile fun c => c ≠ ']' && c ≠ '\n') : c ≠ ']' ∧
          c ≠ '\n' := by
        simpa using List.all_eq_true.mp List.all_takeWhile c member
      refine ⟨?_, fun member => (inside member).1 rfl, fun member => (inside member).2 rfl⟩
      have front := takeWhile_prefix_drop (fun c => c ≠ ']' && c ≠ '\n') rest
      obtain ⟨inside, last⟩ := List.getElem?_eq_some_iff.mp closed
      rw [List.drop_eq_getElem_cons inside, last] at front
      simpa using front
    next => cases found
  next => cases found

/-- The text starts with the head: a name, an index on one line or none, and an operator. -/
structure Starts (head : AssignHead) (text : List Char) : Prop where
  named : isName head.name = true
  indexed : ∀ index ∈ head.index, ']' ∉ index ∧ '\n' ∉ index
  written : ∃ rest, text = head.text ++ rest

/-- A recognised head stands in front of the text. -/
theorem starts_of_of? {head : AssignHead} (found : of? text = some head) : head.Starts text := by
  unfold of? at found
  simp only at found
  split at found
  · cases found
  next filled =>
    have named : isName (nameRun text) = true := isName_nameRun (by simpa using filled)
    have name := nameRun_append_drop text
    split at found
    next index indexed =>
      obtain ⟨append, operated, rfl⟩ := Option.map_eq_some_iff.mp found
      obtain ⟨rest, operator⟩ := operator_of_operator? operated
      obtain ⟨bracketed, closed⟩ := index_of_index? indexed
      rw [operator] at bracketed
      refine ⟨named, by rintro _ ⟨⟩; exact closed, rest, name.trans ?_⟩
      rw [bracketed]
      simp [AssignHead.text, indexText, AssignHead.operator]
    next =>
      obtain ⟨append, operated, rfl⟩ := Option.map_eq_some_iff.mp found
      obtain ⟨rest, operator⟩ := operator_of_operator? operated
      refine ⟨named, nofun, rest, name.trans ?_⟩
      rw [operator]
      simp [AssignHead.text, indexText, AssignHead.operator]

theorem length_text (head : AssignHead) :
    head.text.length =
      head.name.length + ((head.indexText.getD []).length + head.operator.length) := by
  simp [AssignHead.text]

end AssignHead

namespace RedirectOp

theorem text_of_of? {text : List Char} {op : RedirectOp} (found : of? text = some op) :
    ∃ rest, text = op.text.toList ++ rest :=
  front_of_find? (fun op : RedirectOp => op.text.toList) found

theorem text_of_both? {text : List Char} {op : RedirectOp} (found : both? text = some op) :
    ∃ rest, text = op.text.toList ++ rest :=
  front_of_find? (fun op : RedirectOp => op.text.toList) found

end RedirectOp

namespace RedirectHead

/-- A recognised head stands in front of the text. -/
theorem text_of_of? {text : List Char} {head : RedirectHead} (found : of? text = some head) :
    ∃ rest, text = head.text ++ rest := by
  unfold of? at found
  simp only at found
  split at found
  next op operated =>
    cases found
    obtain ⟨rest, operator⟩ := RedirectOp.text_of_of? operated
    refine ⟨rest, ?_⟩
    have digits := takeWhile_prefix_drop Text.isDecimal text
    rw [operator] at digits
    simpa [RedirectHead.text] using digits
  next =>
    obtain ⟨op, operated, rfl⟩ := Option.map_eq_some_iff.mp found
    simpa [RedirectHead.text] using RedirectOp.text_of_both? operated

theorem text_ne_nil (head : RedirectHead) : head.text ≠ [] := by
  obtain ⟨descriptor, op⟩ := head
  have operator : op.text.toList ≠ [] := by cases op <;> decide
  simp [text, operator]

theorem text_of_starting? {text : List Char} {head : RedirectHead}
    (found : starting? text = some head) : ∃ rest, text = head.text ++ rest := by
  unfold starting? at found
  split at found
  · cases found
  · exact text_of_of? found

end RedirectHead

end RecipeLint
