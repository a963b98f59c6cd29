import RecipeLint.Proofs.Faithful
import RecipeLint.Proofs.Forward
import RecipeLint.Proofs.Lookahead

/-!
# Parameters with and without braces

A plain parameter is read with its braces and without them, as long as the character behind it
cannot belong to its name.  Neither spelling has a character that ends one of the texts it can stand
in: not a bracket that closes an index, and not a line that closes a here-document.  The latter is
because the delimiter of a here-document that is not quoted has no dollar sign in front of a
character that a parameter starts with. -/

namespace RecipeLint

/-- Whether a character behind a dollar sign is the start of a parameter. -/
def startsParameter (c : Char) : Bool :=
  c = '{' || isNameStart c || c.isDigit || specialParameters.contains c

theorem startsParameter_ne {c : Char} (starts : startsParameter c = true) :
    c ≠ '\n' ∧ c ≠ '\r' ∧ c ≠ '\t' := by
  refine ⟨?_, ?_, ?_⟩ <;>
  · rintro rfl
    revert starts
    decide

namespace IsParameter

variable {name back : List Char}

/-- The three kinds of names. -/
theorem cases (parameter : IsParameter name) :
    (∃ c rest, name = c :: rest ∧ isNameStart c = true ∧ ∀ d ∈ name, isNameChar d = true) ∨
      (∃ c rest, name = c :: rest ∧ isNameStart c = false ∧ c.isDigit = true ∧
        ∀ d ∈ name, d.isDigit = true) ∨
      ∃ c ∈ specialParameters, name = [c] := by
  obtain ⟨filled, whole⟩ := parameter
  cases name with
  | nil => exact absurd rfl filled
  | cons c rest =>
      rw [parameterRun] at whole
      split at whole
      next start =>
        exact .inl ⟨c, rest, rfl, start, List.takeWhile_eq_self_iff.mp whole⟩
      next other =>
        split at whole
        next digit =>
          exact .inr
            (.inl ⟨c, rest, rfl, by simpa using other, digit, List.takeWhile_eq_self_iff.mp whole⟩)
        next =>
          split at whole
          next special => exact .inr (.inr ⟨c, by simpa using special, whole.symm⟩)
          next => cases whole

theorem isNameChar_of_isDigit {c : Char} (digit : c.isDigit = true) : isNameChar c = true := by
  simp [isNameChar, Char.isAlphanum, digit]

/-- The characters of a name. -/
theorem mem (parameter : IsParameter name) {c : Char} (member : c ∈ name) :
    isNameChar c = true ∨ c ∈ specialParameters := by
  rcases parameter.cases with ⟨_, _, -, -, all⟩ | ⟨_, _, -, -, -, all⟩ | ⟨_, special, rfl⟩
  · exact .inl (all c member)
  · exact .inl (isNameChar_of_isDigit (all c member))
  · exact .inr (List.mem_singleton.mp member ▸ special)

/-- No name has a character that ends a line, an index or a pair of braces. -/
theorem not_mem (parameter : IsParameter name) {c : Char} (other : c ∈ ['\n', '[', ']', '{', '}']) :
    c ∉ name := by
  intro member
  have allowed := parameter.mem member
  revert allowed
  simp only [List.mem_cons, List.not_mem_nil, or_false] at other
  rcases other with rfl | rfl | rfl | rfl | rfl <;> decide

/-- A name starts with a character that can follow a dollar sign. -/
theorem starts (parameter : IsParameter name) :
    ∃ c rest, name = c :: rest ∧ startsParameter c = true := by
  rcases parameter.cases with ⟨c, rest, shape, start, -⟩ | ⟨c, rest, shape, -, digit, -⟩ |
    ⟨c, special, shape⟩
  · exact ⟨c, rest, shape, by simp [startsParameter, start]⟩
  · exact ⟨c, rest, shape, by simp [startsParameter, digit]⟩
  · exact ⟨c, [], shape, by simp [startsParameter, special]⟩

theorem parameterRun_append (parameter : IsParameter name) (back : List Char) :
    parameterRun (name ++ '}' :: back) = name := by
  rcases parameter.cases with ⟨c, rest, rfl, start, all⟩ | ⟨c, rest, rfl, other, digit, all⟩ |
    ⟨c, special, rfl⟩
  · rw [List.cons_append, parameterRun, if_pos start, ← List.cons_append,
      takeWhile_append_of_stop all (by simp; decide)]
  · rw [List.cons_append, parameterRun, if_neg (by simp [other]), if_pos digit, ← List.cons_append,
      takeWhile_append_of_stop all (by simp)]
  · revert special
    simp only [specialParameters, List.mem_cons, List.not_mem_nil, or_false]
    rintro (rfl | rfl | rfl | rfl | rfl | rfl | rfl) <;> rfl

/-- No question starts with a character of a name. -/
theorem question?_eq_none {c : Char} (named : isNameChar c = true) (text : List Char) :
    Question.of? (c :: text) = none := by
  have signs : c ≠ '#' ∧ c ≠ '!' ∧ c ≠ '%' := by
    refine ⟨?_, ?_, ?_⟩ <;>
    · rintro rfl
      revert named
      decide
  simp [Question.of?, signs]

/-- The sign of a parameter is not taken for a question. -/
theorem question?_append (parameter : IsParameter name) (back : List Char) :
    Question.of? (name ++ '}' :: back) = none := by
  rcases parameter.cases with ⟨c, rest, rfl, -, all⟩ | ⟨c, rest, rfl, -, digit,
    -⟩ | ⟨c, special, rfl⟩
  · exact question?_eq_none (all c (by simp)) _
  · exact question?_eq_none (isNameChar_of_isDigit digit) _
  · revert special
    simp only [specialParameters, List.mem_cons, List.not_mem_nil, or_false]
    rintro (rfl | rfl | rfl | rfl | rfl | rfl | rfl) <;> rfl

end IsParameter

/-- A parameter as it is written in braces. -/
def bracedText (name : List Char) : List Char :=
  '$' :: '{' :: name ++ ['}']

/-- A parameter as it is written without braces. -/
def simpleText (name : List Char) : List Char :=
  '$' :: name

namespace IsParameter

variable {name : List Char}

theorem not_mem_bracedText (parameter : IsParameter name) {c : Char}
    (other : c ∈ ['\n', '[', ']']) :
    c ∉ bracedText name := by
  have absent : c ∉ name := parameter.not_mem (List.mem_append_left ['{', '}'] other)
  simp only [List.mem_cons, List.not_mem_nil, or_false] at other
  rcases other with rfl | rfl | rfl <;> simp [bracedText, absent]

theorem not_mem_simpleText (parameter : IsParameter name) {c : Char}
    (other : c ∈ ['\n', '[', ']']) :
    c ∉ simpleText name := by
  have absent := parameter.not_mem_bracedText other
  simp only [bracedText, simpleText, List.cons_append, List.mem_cons, List.mem_append,
    not_or] at absent ⊢
  exact ⟨absent.1, absent.2.2.1⟩

theorem expands_bracedText (name : List Char) :
    ∃ c, startsParameter c = true ∧ ['$', c] <:+: bracedText name :=
  ⟨'{', rfl, [], name ++ ['}'], by simp [bracedText]⟩

theorem expands_simpleText (parameter : IsParameter name) :
    ∃ c, startsParameter c = true ∧ ['$', c] <:+: simpleText name := by
  obtain ⟨c, rest, rfl, starts⟩ := parameter.starts
  exact ⟨c, starts, [], rest, rfl⟩

end IsParameter

/-- A parameter whose braces can be left out in front of some text. -/
structure Trivial (name back : List Char) : Prop where
  parameter : IsParameter name
  short : isLongNumber (String.ofList name) = false
  ends : ∀ c ∈ back.head?, isNameChar c = false

namespace Trivial

variable {name back : List Char}

theorem take (trivial : Trivial name back) (count : Nat) : Trivial name (back.take count) where
  parameter := trivial.parameter
  short := trivial.short
  ends c member := by
    cases count with
    | zero => cases member
    | succ count =>
        cases back with
        | nil => cases member
        | cons d back => exact trivial.ends c member

end Trivial

namespace Reading

variable {inner : Inner} {state : ReadState} {name back : List Char}

/-- A plain parameter in braces. -/
theorem expansion_braced (quoted : Bool) (parameter : IsParameter name)
    (shape : state.cursor.rest = bracedText name ++ back) :
    expansion inner quoted state =
      .ok (some (.braced state.cursor.position .value (String.ofList name) none none),
        state.skip (name.length + 3)) := by
  replace shape : state.cursor.rest = '$' :: '{' :: (name ++ '}' :: back) := by
    simp [shape, bracedText]
  have inside : (state.skip 2).cursor.rest = name ++ '}' :: back := by simp [shape]
  have closed : ((state.skip 2).skip name.length).cursor.rest = '}' :: back := by
    rw [ReadState.skip_cursor, Cursor.advance_rest, inside, List.drop_left]
  have asked : question (state.skip 2) = .ok (.value, state.skip 2) := by
    simp only [question, rest_bind, inside, parameter.question?_append]
    rfl
  have named : parameterName (state.skip 2) =
      .ok (String.ofList name, (state.skip 2).skip name.length) := by
    have filled : ¬name.isEmpty = true := by simpa using parameter.1
    simp only [parameterName, rest_bind, inside, parameter.parameterRun_append, if_neg filled]
    rfl
  have moved : state.skip (name.length + 3) = ((state.skip 2).skip name.length).skip 1 := by
    rw [← ReadState.skip_add, ← ReadState.skip_add]
    congr 1
    omega
  rw [moved]
  generalize (state.skip 2).skip name.length = middle at closed named
  have unindexed : optionalIndex inner middle = .ok (none, middle) := by
    simp only [optionalIndex, current_bind, closed]
    rfl
  have unchanged : operation inner middle = .ok (none, middle) := by
    have other : operandOperator? ('}' :: back) = none := rfl
    simp only [operation, here_bind, rest_bind, closed, other]
    rfl
  have read : braced inner state =
      .ok (.braced state.cursor.position .value (String.ofList name) none none, middle.skip 1) := by
    rw [braced, here_bind, skip_bind, bind_ok asked, bind_ok named, bind_ok unindexed]
    have unmarked : namesMark .value middle = .ok ((), middle) := rfl
    rw [bind_ok unmarked, bind_ok unchanged, current_bind, closed]
    rfl
  unfold expansion
  simp only [here_bind, rest_bind, shape, List.drop_succ_cons, List.drop_zero]
  rw [if_neg (by simp), if_neg (by simp), if_neg (by decide), if_neg (by decide), if_pos trivial,
    map_eq_bind, bind_ok read]
  rfl

/-- A parameter without braces. -/
theorem expansion_simple (quoted : Bool) (trivial : Trivial name back)
    (shape : state.cursor.rest = simpleText name ++ back) :
    expansion inner quoted state =
      .ok (some (.simple state.cursor.position (String.ofList name)),
        state.skip (name.length + 1)) := by
  obtain ⟨parameter, short, ends⟩ := trivial
  simp only [expansion, here_bind, rest_bind, shape, simpleText, List.cons_append,
    List.drop_succ_cons, List.drop_zero]
  rcases parameter.cases with ⟨c, rest, rfl, start, all⟩ | ⟨c, rest, rfl, other, digit, all⟩ |
    ⟨c, special, rfl⟩
  · have signs : c ≠ '\'' ∧ c ≠ '"' ∧ c ≠ '(' ∧ c ≠ '[' ∧ c ≠ '{' := by
      refine ⟨?_, ?_, ?_, ?_, ?_⟩ <;>
      · rintro rfl
        revert start
        decide
    have taken := takeWhile_append_of_stop all ends
    rw [List.cons_append] at taken
    simp only [List.cons_append, signs, start, taken, decide_false, Bool.false_and,
      Bool.false_eq_true, if_false, if_true]
    rfl
  · have single : rest = [] := by
      rw [isLongNumber, String.toList_ofList, List.all_eq_true.mpr all,
        String.length_ofList] at short
      simpa using short
    subst single
    have signs : c ≠ '\'' ∧ c ≠ '"' ∧ c ≠ '(' ∧ c ≠ '[' ∧ c ≠ '{' := by
      refine ⟨?_, ?_, ?_, ?_, ?_⟩ <;>
      · rintro rfl
        revert digit
        decide
    simp only [List.cons_append, signs, other, digit, decide_false, Bool.false_and,
      Bool.false_eq_true, if_false, Bool.true_or, if_true]
    rfl
  · revert special
    simp only [specialParameters, List.mem_cons, List.not_mem_nil, or_false]
    rintro (rfl | rfl | rfl | rfl | rfl | rfl | rfl) <;> rfl

end Reading

/-! ## Texts that a parameter stands in -/

namespace AssignHead

/-- The head of an assignment in front of a text, where its index is open at a parameter. -/
theorem of?_open {front name inside : List Char} (opened : Open front name inside)
    {text : List Char}
    (dollar : text.head? = some '$') (neutral : ∀ c ∈ text, c ≠ ']' ∧ c ≠ '\n') (back : List Char) :
    of? (front ++ (text ++ back)) =
      let index := back.takeWhile fun c => c ≠ ']' && c ≠ '\n'
      if back[index.length]? = some ']' then
        (operator? (back.drop (index.length + 1))).map
        ({ name, index := some (inside ++ text ++ index), append := · })
      else none := by
  obtain ⟨rfl, named, filled, unclosed⟩ := opened
  obtain ⟨rest, rfl⟩ := List.head?_eq_some_iff.mp dollar
  have run : nameRun (name ++ '[' :: inside ++ ('$' :: rest ++ back)) = name := by
    rw [List.cons_append, nameRun_append_mark ⟨.inl rfl, fun newline => by cases newline⟩, named]
  have dropped : (name ++ '[' :: inside ++ ('$' :: rest ++ back)).drop name.length =
      '[' :: (inside ++ '$' :: rest ++ back) := by simp
  have passed : ∀ c ∈ inside ++ '$' :: rest, (c ≠ ']' && c ≠ '\n') = true := by
    intro c member
    rcases List.mem_append.mp member with first | second
    · simpa using unclosed c first
    · simpa using neutral c second
  have taken : (inside ++ '$' :: rest ++ back).takeWhile (fun c => c ≠ ']' && c ≠ '\n') =
      inside ++ '$' :: rest ++ back.takeWhile fun c => c ≠ ']' && c ≠ '\n' :=
    List.takeWhile_append_of_pos passed
  simp only [of?, run, dropped, List.isEmpty_iff, if_neg filled, index?, taken]
  generalize back.takeWhile (fun c => c ≠ ']' && c ≠ '\n') = index
  generalize inside ++ '$' :: rest = before
  rw [List.length_append, List.getElem?_append_right (by omega), Nat.add_sub_cancel_left]
  by_cases closed : back[index.length]? = some ']'
  · have left : ('[' :: (before ++ back)).drop (before.length + index.length + 2) =
        back.drop (index.length + 1) := by
      rw [show before.length + index.length + 2 = before.length + (index.length + 1) + 1 by omega,
        List.drop_succ_cons, List.drop_length_add_append]
    rw [if_pos closed, if_pos closed]
    simp only [List.length_append, left]
  · rw [if_neg closed, if_neg closed]
    rfl

end AssignHead

/-! ## Lines of here-documents -/

/-- A text in which no parameter follows a dollar sign. -/
def Unexpanding (text : List Char) : Prop :=
  ∀ c, startsParameter c = true → ¬['$', c] <:+: text

theorem infix_dropWhile {c d : Char} {text : List Char} {p : Char → Bool} (other : p c = false)
    (inside : [c, d] <:+: text) : [c, d] <:+: text.dropWhile p := by
  obtain ⟨front, back, rfl⟩ := inside
  rw [List.append_assoc, List.dropWhile_append]
  split
  · exact ⟨[], back, by simp [other]⟩
  · exact ⟨front.dropWhile p, back, by simp⟩

/-- A parameter does not stand in a line that closes a here-document. -/
theorem Awaited.not_closedBy {awaited : Awaited} (unexpanding : Unexpanding awaited.delimiter)
    {line : List Char} {c : Char} (starts : startsParameter c = true)
    (inside : ['$', c] <:+: line) :
    ¬awaited.closedBy line = true := by
  intro closed
  rw [closedBy, decide_eq_true_iff] at closed
  refine unexpanding c starts (closed ▸ ?_)
  have trimmed : ['$', c] <:+: (if awaited.tabs then line.dropWhile (· = '\t') else line) := by
    split
    · exact infix_dropWhile (by decide) inside
    · exact inside
  have behind : [c, '$'] <:+: (if awaited.tabs then line.dropWhile (· = '\t') else line).reverse :=
    List.reverse_infix.mpr trimmed
  exact List.reverse_infix.mpr (infix_dropWhile (by simp [(startsParameter_ne starts).2.1]) behind)

/-- A line with a parameter in it goes on with the lines below it. -/
theorem Awaited.lines_parameter {awaited : Awaited} (unexpanding : Unexpanding awaited.delimiter)
    {text : List Char} (plain : '\n' ∉ text)
    (parameter : ∃ c, startsParameter c = true ∧ ['$', c] <:+: text) (back : List Char) :
    awaited.lines (text ++ back) =
      let below := awaited.lines (back.drop ((lineRun back).length + 1))
      (text ++ back.take ((lineRun back).length + 1 + below.1.length), below.2) := by
  obtain ⟨c, starts, inside⟩ := parameter
  have line : lineRun (text ++ back) = text ++ lineRun back := lineRun_append_of_not_mem plain back
  have filled : text ++ back ≠ [] := by
    intro empty
    rw [(List.append_eq_nil_iff.mp empty).1] at inside
    simpa using inside.length_le
  have further : ¬awaited.closedBy (lineRun (text ++ back)) = true :=
    awaited.not_closedBy unexpanding starts (line ▸ inside.trans (List.prefix_append ..).isInfix)
  have past : (lineRun (text ++ back)).length + 1 = text.length + ((lineRun back).length + 1) := by
    rw [line, List.length_append, Nat.add_assoc]
  rw [lines_further filled further, past, List.take_length_add_append, List.drop_length_add_append]
  dsimp only
  generalize (lineRun back).length + 1 = count
  rw [List.take_add, take_lines, List.append_assoc]

/-- A parameter in the lines of a here-document may be put in place of another. -/
theorem Awaited.lines_swap {awaited : Awaited} (unexpanding : Unexpanding awaited.delimiter)
    {first second front back : List Char} (plain₁ : '\n' ∉ first) (plain₂ : '\n' ∉ second)
    (parameter₁ : ∃ c, startsParameter c = true ∧ ['$', c] <:+: first)
    (parameter₂ : ∃ c, startsParameter c = true ∧ ['$', c] <:+: second)
    (reached : front.length < (awaited.lines (front ++ (first ++ back))).1.length +
      (awaited.lines (front ++ (first ++ back))).2.length) :
    ∃ count closing,
      awaited.lines (front ++ (first ++ back)) = (front ++ (first ++ back.take count), closing) ∧
      awaited.lines (front ++ (second ++ back)) =
        (front ++ (second ++ back.take count), closing) := by
  by_cases broken : '\n' ∈ front
  · have shorter := length_lineRun_lt broken
    have further : ¬awaited.closedBy (lineRun front) = true := by
      intro closed
      rw [lines_closed_append broken _ closed] at reached
      simp only [List.length_nil, List.length_take] at reached
      omega
    have below := fun rest => lines_further_append broken rest further
    have later : (front.drop ((lineRun front).length + 1)).length <
        (awaited.lines (front.drop ((lineRun front).length + 1) ++ (first ++ back))).1.length +
          (awaited.lines (front.drop ((lineRun front).length + 1) ++
            (first ++ back))).2.length := by
      rw [below] at reached
      simp only [List.length_append, List.length_take, List.length_drop] at reached ⊢
      omega
    obtain ⟨count, closing, lines, lines'⟩ :=
      awaited.lines_swap unexpanding plain₁ plain₂ parameter₁ parameter₂ later
    refine ⟨count, closing, ?_, ?_⟩
    · rw [below, lines, ← List.append_assoc, List.take_append_drop]
    · rw [below, lines', ← List.append_assoc, List.take_append_drop]
  · have single {text : List Char} (plain : '\n' ∉ text)
        (parameter : ∃ c, startsParameter c = true ∧ ['$', c] <:+: text) :
        awaited.lines (front ++ (text ++ back)) =
          let below := awaited.lines (back.drop ((lineRun back).length + 1))
          (front ++ (text ++ back.take ((lineRun back).length + 1 + below.1.length)), below.2) := by
      have whole : '\n' ∉ front ++ text := by simp [broken, plain]
      have line :=
        awaited.lines_parameter unexpanding whole (parameter.imp fun _ ⟨starts, inside⟩ =>
        ⟨starts, inside.trans (List.suffix_append ..).isInfix⟩) back
      simpa only [List.append_assoc] using line
    exact ⟨_, _, single plain₁ parameter₁, single plain₂ parameter₂⟩
termination_by front.length
decreasing_by
  have := List.length_pos_iff.mpr (List.ne_nil_of_mem broken)
  simp only [List.length_drop]
  omega

/-! ## Delimiters of here-documents -/

/-- A part that quotes the delimiter it belongs to. -/
def Part.Quotes (part : Part) : Prop :=
  part.delimiter.2 = true

/-- A level at which a dollar sign is taken literally only where nothing follows that it could
expand. -/
structure Inner.Expanding (inner : Inner) : Prop where
  taken : ∀ {quoted state part after}, inner.expansion quoted state = .ok (some part, after) →
    part.Quotes
  left : ∀ {quoted state after}, inner.expansion quoted state = .ok (none, after) →
    after = state ∧ ∀ c, (state.cursor.rest.drop 1).head? = some c → startsParameter c = false

namespace Reading

variable {inner : Inner} {state : ReadState}

/-- A reading that gives parts which quote. -/
def Quoting (outcome : Outcome Part) : Prop :=
  Ends (fun _ => True) (fun part _ => part.Quotes) outcome

theorem singleQuoted_quotes (pos : Position) (dollar : Bool) (state : ReadState) :
    Quoting (singleQuoted pos dollar state) := by
  unfold singleQuoted
  simp only [here_bind, skip_bind, rest_bind]
  cases singleEnd? dollar 0 (state.skip 1).cursor.rest with
  | none => trivial
  | some length => rfl

theorem doubleQuoted_quotes (inner : Inner) (pos : Position) (dollar : Bool) (state : ReadState) :
    Quoting (doubleQuoted inner pos dollar state) := by
  unfold doubleQuoted
  simp only [here_bind, skip_bind]
  refine (Ends.trivial _).bind fun parts after _ => ?_
  simp only [current_bind]
  split
  · rfl
  · trivial

theorem backquoted_quotes (inner : Inner) (state : ReadState) :
    Quoting (backquoted inner state) := by
  unfold backquoted
  simp only [here_bind, skip_bind, rest_bind]
  cases backquoteText? [] 0 (state.skip 1).cursor.rest with
  | none => trivial
  | some found =>
      simp only [skip_bind]
      exact (Ends.trivial _).bind fun _ _ _ => rfl

theorem glob_quotes (mark : Char) (state : ReadState) : Quoting (glob mark state) := by
  unfold glob
  simp only [here_bind, skip_bind, rest_bind]
  cases bracketEnd? '(' ')' 0 1 (state.skip 2).cursor.rest with
  | none => trivial
  | some length => rfl

theorem braced_quotes (inner : Inner) (state : ReadState) : Quoting (braced inner state) := by
  unfold braced
  simp only [here_bind, skip_bind]
  refine (Ends.trivial _).bind fun _ _ _ => (Ends.trivial _).bind fun _ _ _ =>
    (Ends.trivial _).bind fun _ _ _ => (Ends.trivial _).bind fun _ _ _ =>
      (Ends.trivial _).bind fun _ _ _ => ?_
  simp only [current_bind]
  split
  · rfl
  · trivial

/-- What a dollar sign introduces quotes, or nothing follows that it could expand. -/
theorem expansion_quotes (inner : Inner) (quoted : Bool) (state : ReadState) :
    Ends (fun _ => True)
      (fun part after => (∀ it ∈ part, it.Quotes) ∧ (part = none → after = state ∧
        ∀ c, (state.cursor.rest.drop 1).head? = some c → startsParameter c = false))
      (expansion inner quoted state) := by
  have found {part : Part} {after : ReadState} (quotes : part.Quotes) :
      (∀ it ∈ some part, it.Quotes) ∧ (some part = none → after = state ∧
        ∀ c, (state.cursor.rest.drop 1).head? = some c → startsParameter c = false) :=
    ⟨fun _ same => Option.some.inj same ▸ quotes, nofun⟩
  unfold expansion
  simp only [here_bind, rest_bind]
  generalize state.cursor.rest.drop 1 = text at found ⊢
  cases text with
  | nil => exact ⟨nofun, fun _ => ⟨rfl, nofun⟩⟩
  | cons c text =>
      simp only
      split
      · rw [skip_bind, map_eq_bind]
        exact (singleQuoted_quotes _ _ _).bind fun _ _ quotes => found quotes
      split
      · rw [skip_bind, map_eq_bind]
        exact (doubleQuoted_quotes _ _ _ _).bind fun _ _ quotes => found quotes
      split
      · split
        · rw [skip_bind]
          exact (Ends.trivial _).bind fun _ _ _ => found rfl
        · exact (Ends.trivial _).bind fun _ _ _ => found rfl
      split
      · rw [skip_bind]
        exact (Ends.trivial _).bind fun _ _ _ => found rfl
      split
      · rw [map_eq_bind]
        exact (braced_quotes _ _).bind fun _ _ quotes => found quotes
      split
      · exact found rfl
      split
      · exact found rfl
      next unopened unnamed unsigned =>
        refine ⟨nofun, fun _ => ⟨rfl, ?_⟩⟩
        rintro _ ⟨⟩
        simpa [startsParameter, unopened, unnamed] using unsigned

theorem level_expanding (rounds depth : Nat) : (Inner.level rounds depth).Expanding := by
  cases depth with
  | zero => exact ⟨nofun, nofun⟩
  | succ depth =>
      refine ⟨fun {quoted state part after} run => ?_, fun {quoted state after} run => ?_⟩
      · exact ((expansion_quotes _ quoted state).of_ok run).1 part rfl
      · exact ((expansion_quotes _ quoted state).of_ok run).2 rfl

end Reading

namespace Pieces

variable {pieces : Pieces}

/-- A word that is being read and of which something is quoted. -/
def Quoted (pieces : Pieces) : Prop :=
  (∃ part ∈ pieces.parts, part.Quotes) ∨ '\\' ∈ pieces.run

theorem Quoted.push (quoted : pieces.Quoted) (pos : Position) (chars : List Char) :
    (pieces.push pos chars).Quoted :=
  quoted.imp_right fun member => List.mem_append_right _ member

theorem Quoted.flush (quoted : pieces.Quoted) : ∃ part ∈ pieces.flush.parts, part.Quotes := by
  unfold Pieces.flush
  rcases quoted with ⟨part, member, quotes⟩ | escaped
  · split
    · exact ⟨part, member, quotes⟩
    · exact ⟨part, List.mem_cons_of_mem _ member, quotes⟩
  · rw [if_neg (by simp [List.ne_nil_of_mem escaped])]
    exact ⟨_, List.mem_cons_self, by simp [Part.Quotes, Part.delimiter, escaped]⟩

theorem quoted_add {part : Part} (quotes : part.Quotes) : (pieces.add part).Quoted :=
  .inl ⟨part, List.mem_cons_self, quotes⟩

/-- A word that is being read and consists of literal characters, none of which could have been
expanded.  No newline is escaped in the rest. -/
structure Literal (pieces : Pieces) (rest : List Char) : Prop where
  alone : pieces.parts = []
  unescaped : '\\' ∉ pieces.run
  unexpanding : Unexpanding pieces.run.reverse
  ahead : pieces.run.head? = some '$' → ∀ c, rest.head? = some c → startsParameter c = false
  unfolded : ¬['\\', '\n'] <:+: rest

theorem Literal.empty (pos : Position) {rest : List Char} (unfolded : ¬['\\', '\n'] <:+: rest) :
    (Pieces.empty pos).Literal rest where
  alone := rfl
  unescaped := nofun
  unexpanding _ _ inside := absurd inside.length_le (by simp [Pieces.empty])
  ahead := nofun
  unfolded

theorem Literal.push {c : Char} {rest : List Char} (literal : pieces.Literal (c :: rest))
    (plain : c ≠ '\\') (ahead : c = '$' → ∀ d, rest.head? = some d → startsParameter d = false)
    (pos : Position) : (pieces.push pos [c]).Literal rest where
  alone := literal.alone
  unescaped := by simpa [Pieces.push, plain.symm] using literal.unescaped
  unexpanding d starts inside := by
    simp only [Pieces.push, List.reverse_append, List.reverse_reverse] at inside
    rcases List.infix_concat_iff.mp inside with ⟨front, last⟩ | earlier
    · have last : front ++ ['$'] ++ [d] = pieces.run.reverse ++ [c] := by simpa using last
      obtain ⟨run, same⟩ := List.append_inj' last rfl
      have first : pieces.run.head? = some '$' := by
        rw [← List.getLast?_reverse, ← run, List.getLast?_concat]
      simp [literal.ahead first d (by simp [List.cons.inj same])] at starts
    · exact literal.unexpanding d starts earlier
  ahead first := ahead (by simpa [Pieces.push] using first)
  unfolded inside := literal.unfolded (inside.trans (List.suffix_cons c rest).isInfix)

end Pieces

/-- Parts of which one quotes, or that have no parameter in the delimiter they stand for. -/
def Delimits (parts : List Part) : Prop :=
  (∃ part ∈ parts, part.Quotes) ∨ Unexpanding (parts.flatMap (·.delimiter.1))

theorem Pieces.Quoted.finish {pieces : Pieces} (quoted : pieces.Quoted) :
    Delimits pieces.finish := by
  obtain ⟨part, member, quotes⟩ := quoted.flush
  exact .inl ⟨part, List.mem_reverse.mpr member, quotes⟩

theorem Pieces.Literal.finish {pieces : Pieces} {rest : List Char} (literal : pieces.Literal rest) :
    Delimits pieces.finish := by
  have text : pieces.finish.flatMap (·.delimiter.1) = pieces.run.reverse := by
    have unescaped : ∀ c ∈ pieces.run, ¬c = '\\' := fun c member same =>
      literal.unescaped (same ▸ member)
    unfold Pieces.finish Pieces.flush
    split
    next empty => simp [literal.alone, List.isEmpty_iff.mp empty]
    next => simpa [literal.alone, Part.delimiter] using unescaped
  exact .inr (text ▸ literal.unexpanding)

namespace Reading

variable {inner : Inner}

theorem wordRound_delimits (expanding : inner.Expanding) (delimiters : List Char) (pieces : Pieces)
    (state : ReadState) (known : pieces.Quoted ∨ pieces.Literal state.cursor.rest) :
    Ends (fun _ => True)
      (Round.elim (fun pieces after => pieces.Quoted ∨ pieces.Literal after.cursor.rest)
        fun parts _ => Delimits parts)
      (wordRound inner delimiters pieces state) := by
  have finished : Delimits pieces.finish := known.elim (·.finish) (·.finish)
  have added {part : Part} (quotes : part.Quotes) (after : ReadState) :
      (pieces.add part).Quoted ∨ (pieces.add part).Literal after.cursor.rest :=
    .inl (Pieces.quoted_add quotes)
  unfold wordRound
  simp only [here_bind, rest_bind]
  generalize shape : state.cursor.rest = text at known
  cases text with
  | nil => exact finished
  | cons c text =>
      have behind : (state.skip 1).cursor.rest = text := by simp [shape]
      simp only
      split
      next escape =>
        simp only [skip_bind]
        split
        next newline =>
          refine .inl (known.resolve_right fun literal => literal.unfolded ?_)
          obtain ⟨rest, rfl⟩ := List.head?_eq_some_iff.mp newline
          exact ⟨[], rest, by simp [escape]⟩
        next => exact .inl (.inr (by simp [Pieces.push, escape]))
      next plain =>
        have pushed (ahead : c = '$' → ∀ d, text.head? = some d → startsParameter d = false) :
            (pieces.push state.cursor.position [c]).Quoted ∨
              (pieces.push state.cursor.position [c]).Literal (state.skip 1).cursor.rest :=
          known.imp (·.push _ _) fun literal => behind ▸ literal.push plain ahead _
        split
        · refine (Ends.trivial _).bind fun items after _ => ?_
          exact added (by rfl : (Part.process state.cursor.position c items).Quotes) after
        split
        · exact finished
        split
        · exact (glob_quotes _ _).bind fun _ after quotes => added quotes after
        split
        · exact (singleQuoted_quotes _ _ _).bind fun _ after quotes => added quotes after
        split
        · exact (doubleQuoted_quotes _ _ _ _).bind fun _ after quotes => added quotes after
        split
        · exact (backquoted_quotes _ _).bind fun _ after quotes => added quotes after
        split
        next dollar =>
          rcases run : inner.expansion false state with _ | ⟨_ | part, after⟩
          · rw [bind_error run]
            trivial
          · obtain ⟨rfl, unexpanded⟩ := expanding.left run
            rw [bind_ok run]
            exact pushed fun _ => by simpa [shape] using unexpanded
          · rw [bind_ok run]
            exact added (expanding.taken run) after
        next other => exact pushed fun dollar => absurd dollar other

/-- The delimiter that a word stands for is quoted, or it has no parameter in it. -/
theorem word_delimits (expanding : inner.Expanding) {state after : ReadState} {target : Word}
    (unfolded : ¬['\\', '\n'] <:+: state.cursor.rest)
    (run : word inner state = .ok (target, after)) :
    Delimits target.parts := by
  have ends : Ends (fun _ => True) (fun word _ => Delimits word.parts) (word inner state) := by
    unfold word wordUpTo
    rw [here_bind]
    refine Ends.bind (.iterate _ (fun _ => trivial) (wordRound_delimits expanding _) _ _ _
      (.inr (.empty _ unfolded))) fun parts after delimits => ?_
    split
    · rw [current_bind]
      cases after.cursor.rest.head? with
      | none | some c => trivial
    · exact delimits
  exact ends.of_ok run

end Reading

/-- A here-document that is not quoted is not closed by a line with a parameter in it. -/
theorem Awaited.unexpanding_ofRedirect {redirect : Redirect}
    (delimits : Delimits redirect.target.parts)
    (unquoted : (Awaited.ofRedirect redirect).quoted = false) :
    Unexpanding (Awaited.ofRedirect redirect).delimiter := by
  rcases delimits with ⟨part, member, quotes⟩ | unexpanding
  · simp only [ofRedirect, List.any_map, List.any_eq_false] at unquoted
    exact absurd quotes (unquoted part member)
  · simpa [ofRedirect, List.flatMap_map] using unexpanding

end RecipeLint
