import RecipeLint.Proofs.Canonical.RoundTrip
import RecipeLint.Proofs.Occurrences
import RecipeLint.Proofs.Parameters

/-!
# Reading parameters in braces

Every expansion in braces has a spelling: a mark, the parameter, an index and what is done with the
value.  The spelling is read back as the expansion, field by field.  What follows each field starts
with a sign that cannot belong to it: the name of a parameter has no sign at all, and an operator is
not longer than it is written because no operand starts with a sign. -/

namespace RecipeLint

namespace Canonical

open Reading

variable {c : Char} {text stops : List Char}

/-! ## Spelling -/

/-- The characters that mean something in braces. -/
def signs : List Char :=
  ['\\', '\'', '"', '\x60', '$', '{', '}', '[', ']', ':', '/', '-', '=', '?', '+',
    '%', '#', '^', ',']

/-- Whether a character stands for itself in braces. -/
def isUnsigned (c : Char) : Bool :=
  !signs.contains c

example : ∀ c ∈ "azAZ09_.é".toList, isUnsigned c = true := by decide

/-- An operand that is a literal. -/
structure Operand where
  chars : List Char
  filled : chars ≠ []
  unsigned : ∀ c ∈ chars, isUnsigned c = true

/-- The operand with its text. -/
def Operand.form (operand : Operand) : Form RecipeLint.Word where
  text := operand.chars
  tree pos := { pos, parts := [.literal pos (String.ofList operand.chars)] }

/-- The parts of a text in which nothing is special. -/
def literalParts (pos : Position) (text : List Char) : List Part :=
  if text = [] then [] else [.literal pos (String.ofList text)]

/-- A form that may be missing. -/
def Form.optional {α : Type} : Option (Form α) → Form (Option α)
  | none => { text := [], tree := fun _ => none }
  | some form => { text := form.text, tree := fun pos => some (form.tree pos) }

/-- An operand behind a separator; both may be missing. -/
def Form.further (separator : Char) (operand : Option Operand) : Form (Option RecipeLint.Word) :=
  .optional (operand.map fun operand => operand.form.behind [separator])

/-- The operators that take an operand up to the closing brace. -/
def operandOperators : List String :=
  [":-", ":+", ":=", ":?", "-", "+", "=", "?", "%", "%%", "#", "##", "^", "^^", ",", ",,"]

/-- What is done with the value of a parameter. -/
inductive Modifier where
  /-- An operator and its operand: `${name:-word}`. -/
  | expand (op : String) (known : op ∈ operandOperators) (operand : Option Operand)
  /-- A part of the value: `${name:offset:length}`. -/
  | slice (offset : Operand) (length : Option Operand)
  /-- The replacement of a pattern, once or everywhere: `${name/pattern/word}`,
  `${name//pattern/word}`. -/
  | replace (everywhere : Bool) (pattern : Operand) (replacement : Option Operand)

namespace Modifier

/-- The sign in front of the operands. -/
def sign : Modifier → List Char
  | expand op _ _ => op.toList
  | slice .. => [':']
  | replace everywhere .. => if everywhere then ['/', '/'] else ['/']

/-- The operands with their text. -/
def operands : Modifier → Form (Option RecipeLint.Word × Option RecipeLint.Word)
  | expand _ _ operand =>
      let only := Form.optional (operand.map Operand.form)
      { text := only.text, tree := fun pos => (only.tree pos, none) }
  | slice first second => pair ':' first second
  | replace _ first second => pair '/' first second
where
  /-- An operand and one that may follow it. -/
  pair (separator : Char) (first : Operand) (second : Option Operand) :
      Form (Option RecipeLint.Word × Option RecipeLint.Word) :=
    let further := Form.further separator second
    { text := first.form.text ++ further.text
      tree := fun pos => (some (first.form.tree pos), further.tree (pos.along first.form.text)) }

/-- What the modifier means with its operands. -/
def operation (pos : Position) (words : Option RecipeLint.Word × Option RecipeLint.Word) :
    Modifier → Operation
  | expand op _ _ => .expand pos op words.1
  | slice .. => .slice pos words.1 words.2
  | replace everywhere .. => .replace pos everywhere words.1 words.2

/-- The modifier with its text. -/
def form (modifier : Modifier) : Form Operation where
  text := modifier.sign ++ modifier.operands.text
  tree pos := modifier.operation pos (modifier.operands.tree (pos.along modifier.sign))

end Modifier

/-- A parameter that is a variable or stands for an argument. -/
structure Parameter where
  chars : List Char
  shaped : isName chars = true ∨ chars ≠ [] ∧ ∀ c ∈ chars, c.isDigit = true

/-- A parameter in braces. -/
structure Expansion where
  /-- What is asked of the parameter. -/
  question : Question
  parameter : Parameter
  /-- Only variables have a width. -/
  sized : question = .width → isName parameter.chars = true
  index : Option Operand
  /-- What is done with the value. -/
  modifier : Option Modifier

namespace Expansion

/-- The index in brackets with its text. -/
def indexForm (index : Option Operand) : Form (Option RecipeLint.Word) :=
  .optional (index.map fun index =>
    { text := ['['] ++ (index.chars ++ [']']), tree := fun pos =>
      index.form.tree (pos.along ['[']) })

/-- The modifier with its text; it may be missing. -/
def modifierForm (modifier : Option Modifier) : Form (Option Operation) :=
  .optional (modifier.map Modifier.form)

/-- The text in front of the index. -/
def head (expansion : Expansion) : List Char :=
  ['$', '{'] ++ (expansion.question.mark ++ expansion.parameter.chars)

/-- The expansion with its text. -/
def form (expansion : Expansion) : Form Part where
  text := expansion.head ++
    ((indexForm expansion.index).text ++ ((modifierForm expansion.modifier).text ++ ['}']))
  tree pos :=
    .braced pos expansion.question (String.ofList expansion.parameter.chars)
      ((indexForm expansion.index).tree (pos.along expansion.head))
      ((modifierForm expansion.modifier).tree
        ((pos.along expansion.head).along (indexForm expansion.index).text))

end Expansion

variable {rounds : Nat} {pos : Position} {back : List Char} {inner : Inner}

/-! ## Operands -/

theorem ne_of_isUnsigned {d : Char} (unsigned : isUnsigned c = true) (sign : d ∈ signs) :
    c ≠ d := by
  rintro rfl
  rw [isUnsigned, List.contains_iff_mem.mpr sign] at unsigned
  cases unsigned

theorem operandRound_pushes (stopping : ∀ c ∈ stops, c ∈ signs) (pieces : Pieces)
    (pos : Position) (c : Char) (behind : List Char) (unsigned : isUnsigned c = true) :
    Reads rounds (operandRound inner stops { pieces, depth := 0 }) pos [c] behind
      (.again { pieces := pieces.push pos [c], depth := 0 }) := by
  have inside : stops.contains c = false := by
    rw [← Bool.not_eq_true, List.contains_iff_mem]
    exact fun member => ne_of_isUnsigned unsigned (stopping c member) rfl
  have other {d : Char} (sign : d ∈ signs) : c ≠ d := ne_of_isUnsigned unsigned sign
  refine .here (.rest ?_)
  simp only [List.cons_append, inside, Bool.and_false, Bool.false_eq_true, if_false,
    other (d := '\\') (by decide), other (d := '\'') (by decide), other (d := '"') (by decide),
    other (d := '\x60') (by decide), other (d := '$') (by decide), other (d := '{') (by decide),
    other (d := '}') (by decide)]
  exact .bindLast (.skipped [c]) (.pure _)

theorem operandRound_ends (stop : c ∈ stops) (pieces : Pieces) :
    Reads rounds (operandRound inner stops { pieces, depth := 0 }) pos [] (c :: back)
      (.done pieces.finish) := by
  refine .here (.rest ?_)
  simp only [List.nil_append, List.contains_iff_mem.mpr stop, decide_true, Bool.and_self, if_true]
  exact .pure _

/-- An operand is read up to the sign that ends it. -/
theorem operand_reads (operand : Operand) (bounded : inner.rounds = rounds)
    (stopping : ∀ c ∈ stops, c ∈ signs) (stop : c ∈ stops) :
    Reads rounds (Reading.operand inner stops) pos operand.form.text (c :: back)
      (some (operand.form.tree pos)) := by
  have finish : ((Pieces.empty pos).push pos operand.chars).finish =
      [.literal pos (String.ofList operand.chars)] := Pieces.finish_push rfl operand.filled pos
  have runs : Runs rounds (operandRound inner stops) { pieces := .empty pos, depth := 0 } pos
      (operand.chars ++ []) (c :: back) [.literal pos (String.ofList operand.chars)] := by
    refine runs_literal (fun pieces => ({ pieces, depth := 0 } : Nested Nat))
      (operandRound_pushes stopping)
      operand.filled operand.unsigned (.done ?_)
    rw [← finish]
    exact operandRound_ends stop _
  rw [List.append_nil] at runs
  refine .here ?_
  rw [bounded]
  exact .bindLast runs.iterate (.pure _)

theorem optionalOperand_reads (operand : Option Operand) (bounded : inner.rounds = rounds) :
    Reads rounds (Reading.operand inner ['}']) pos (Form.optional (operand.map Operand.form)).text
      ('}' :: back) ((Form.optional (operand.map Operand.form)).tree pos) := by
  cases operand with
  | none =>
      refine .here ?_
      rw [bounded]
      exact .bindLast (Runs.done (operandRound_ends List.mem_cons_self _)).iterate (.pure _)
  | some operand => exact operand_reads operand bounded (by decide) List.mem_cons_self

theorem furtherOperand_reads (operand : Option Operand) (bounded : inner.rounds = rounds)
    {separator : Char} (other : separator ≠ '}') :
    Reads rounds (furtherOperand inner separator) pos (Form.further separator operand).text
      ('}' :: back)
      ((Form.further separator operand).tree pos) := by
  refine .current ?_
  cases operand with
  | none =>
      rw [if_neg (by simpa [Form.further, Form.optional] using other.symm)]
      exact .pure _
  | some operand =>
      have head : ((Form.further separator (some operand)).text ++ '}' :: back).head? =
        some separator := rfl
      rw [if_pos head]
      exact .skip [separator] (operand_reads operand bounded (by decide) List.mem_cons_self)

/-- The operands of a slice or a replacement. -/
theorem pair_reads (separator : Char) (first : Operand) (second : Option Operand)
    (bounded : inner.rounds = rounds) (sign : separator ∈ signs) (other : separator ≠ '}')
    {α : Type} (make : Option RecipeLint.Word → Option RecipeLint.Word → α) :
    Reads rounds (do
      let one ← Reading.operand inner [separator, '}']
      return make one (← furtherOperand inner separator)) pos
      (Modifier.operands.pair separator first second).text ('}' :: back)
      (make ((Modifier.operands.pair separator first second).tree pos).1
        ((Modifier.operands.pair separator first second).tree pos).2) := by
  have stopping : ∀ c ∈ [separator, '}'], c ∈ signs := by
    simp only [List.forall_mem_cons, List.not_mem_nil, false_implies, implies_true, and_true]
    exact ⟨sign, by decide⟩
  have start : Reads rounds (Reading.operand inner [separator, '}']) pos first.form.text
      ((Form.further separator second).text ++ '}' :: back) (some (first.form.tree pos)) := by
    cases second with
    | none => exact operand_reads first bounded stopping (by simp)
    | some second => exact operand_reads first bounded stopping List.mem_cons_self
  exact .bind start (.bindLast (furtherOperand_reads second bounded other) (.pure _))

/-! ## Modifiers -/

theorem Operand.exists_head (operand : Operand) :
    ∃ c rest, operand.chars = c :: rest ∧ isUnsigned c = true := by
  obtain ⟨c, rest, shape⟩ := List.exists_cons_of_ne_nil operand.filled
  exact ⟨c, rest, shape, operand.unsigned c (by rw [shape]; exact List.mem_cons_self)⟩

/-- No sign but the closing brace follows the sign of a modifier. -/
theorem Modifier.exists_operands (modifier : Modifier) (back : List Char) :
    ∃ c tail, modifier.operands.text ++ '}' :: back = c :: tail ∧ ∀ d ∈ signs, d ≠ '}' → d ≠ c := by
  have filled (operand : Operand) (more : List Char) : ∃ c tail, operand.chars ++ more = c :: tail ∧
      ∀ d ∈ signs, d ≠ '}' → d ≠ c := by
    obtain ⟨c, rest, shape, unsigned⟩ := operand.exists_head
    exact ⟨c, rest ++
      more, by rw [shape]; rfl, fun d sign _ => (ne_of_isUnsigned unsigned sign).symm⟩
  have paired (separator : Char) (first : Operand) (second : Option Operand) :
      ∃ c tail, (operands.pair separator first second).text ++ '}' :: back = c :: tail ∧
        ∀ d ∈ signs, d ≠ '}' → d ≠ c := by
    rw [operands.pair, List.append_assoc]
    exact filled first _
  cases modifier with
  | expand op known operand =>
      cases operand with
      | none => exact ⟨'}', back, rfl, fun _ _ other => other⟩
      | some operand => exact filled operand _
  | slice first second => exact paired ':' first second
  | replace everywhere first second => exact paired '/' first second

/-- The operator in front of an operand is the whole one. -/
theorem operandOperator?_append {op : String} (known : op ∈ operandOperators)
    (apart : ∀ d ∈ signs, d ≠ '}' → d ≠ c) (tail : List Char) :
    operandOperator? (op.toList ++ c :: tail) = some op.toList := by
  have percent := apart '%' (by decide) (by decide)
  have hash := apart '#' (by decide) (by decide)
  have caret := apart '^' (by decide) (by decide)
  have comma := apart ',' (by decide) (by decide)
  simp only [operandOperators, List.mem_cons, List.not_mem_nil, or_false] at known
  rcases known with rfl | rfl | rfl | rfl | rfl | rfl | rfl | rfl | rfl | rfl | rfl | rfl | rfl |
      rfl | rfl | rfl <;>
    simp [operandOperator?, List.isPrefixOf, percent, hash, caret, comma]

/-- A colon is no operator in front of an operand. -/
theorem operandOperator?_colon (apart : ∀ d ∈ signs, d ≠ '}' → d ≠ c) (tail : List Char) :
    operandOperator? (':' :: c :: tail) = none := by
  have minus := apart '-' (by decide) (by decide)
  have equals := apart '=' (by decide) (by decide)
  have asks := apart '?' (by decide) (by decide)
  have plus := apart '+' (by decide) (by decide)
  simp [operandOperator?, List.isPrefixOf, minus, equals, asks, plus]

theorem operandOperator?_slash (tail : List Char) : operandOperator? ('/' :: tail) = none := by
  simp [operandOperator?, List.isPrefixOf]

/-- The slashes in front of a pattern. -/
theorem replace_reads (everywhere : Bool) (pattern : Operand) (replacement : Option Operand)
    (bounded : inner.rounds = rounds) :
    Reads rounds (Reading.replace inner pos)
      pos (Modifier.replace everywhere pattern replacement).form.text
      ('}' :: back) (some ((Modifier.replace everywhere pattern replacement).form.tree pos)) := by
  have operands (start : Position) : Reads rounds _ start _ ('}' :: back) _ :=
    pair_reads '/' pattern replacement bounded (by decide) (by decide) fun one other =>
      some (Operation.replace pos everywhere one other)
  cases everywhere with
  | true =>
      have second : Reads rounds (skipIf fun c => c = '/' || c = '#' || c = '%')
        (pos.along ['/']) ['/']
          ((Modifier.operands.pair '/' pattern replacement).text ++ '}' :: back) () :=
        .current (.skipped ['/'])
      exact .skip ['/'] (.current (.bind second (operands _)))
  | false =>
      obtain ⟨c, tail, shape, apart⟩ :=
        (Modifier.replace false pattern replacement).exists_operands back
      have slash : c ≠ '/' := (apart '/' (by decide) (by decide)).symm
      have hash : c ≠ '#' := (apart '#' (by decide) (by decide)).symm
      have percent : c ≠ '%' := (apart '%' (by decide) (by decide)).symm
      have none : Reads rounds (skipIf fun c => c = '/' || c = '#' || c = '%') (pos.along ['/']) []
          ((Modifier.replace false pattern replacement).operands.text ++ '}' :: back) () := by
        refine .current ?_
        rw [shape, if_neg (by simp [slash, hash, percent])]
        exact .pure _
      have once : decide (some c = some '/') = false := by simpa using slash
      refine .skip ['/'] (.current ?_)
      rw [shape, List.head?_cons, once]
      exact .bindFirst none (operands _)

/-- What is done with the value is read up to the closing brace. -/
theorem operation_reads (modifier : Option Modifier) (bounded : inner.rounds = rounds) :
    Reads rounds (Reading.operation inner) pos (Expansion.modifierForm modifier).text ('}' :: back)
      ((Expansion.modifierForm modifier).tree pos) := by
  refine .here (.rest ?_)
  cases modifier with
  | none =>
      have none : operandOperator? ('}' :: back) =
          none := by simp [operandOperator?, List.isPrefixOf]
      rw [Expansion.modifierForm, Option.map_none, Form.optional, List.nil_append, none]
      exact .rest (.pure _)
  | some modifier =>
      obtain ⟨c, tail, shape, apart⟩ := modifier.exists_operands back
      have text : (Expansion.modifierForm (some modifier)).text ++ '}' :: back =
          modifier.sign ++ c :: tail := by
        rw [← shape, ← List.append_assoc]
        rfl
      rw [text]
      cases modifier with
      | expand op known operand =>
          rw [Modifier.sign, operandOperator?_append known apart]
          have read : Reads rounds (expand inner pos op.toList) pos
              (Modifier.expand op known operand).form.text ('}' :: back)
              (some (.expand pos (String.ofList op.toList) _)) :=
            .skip op.toList (.bindLast (optionalOperand_reads operand bounded) (.pure _))
          rw [String.ofList_toList] at read
          exact read
      | slice offset length =>
          rw [Modifier.sign, List.cons_append, List.nil_append, operandOperator?_colon apart]
          refine .rest ?_
          rw [text]
          exact .skip [':'] (pair_reads ':' offset length bounded (by decide)
            (by decide) fun one other =>
            some (Operation.slice pos one other))
      | replace everywhere pattern replacement =>
          have first : ∃ rest, (Modifier.replace everywhere pattern replacement).sign ++ c :: tail =
              '/' :: rest := by
            cases everywhere <;> exact ⟨_, rfl⟩
          obtain ⟨rest, slashed⟩ := first
          rw [slashed, operandOperator?_slash]
          refine .rest ?_
          rw [text, slashed]
          exact replace_reads everywhere pattern replacement bounded

/-! ## Parameters -/

namespace Expansion

theorem modifierForm_head (modifier : Option Modifier) (back : List Char) :
    ∃ c tail, (modifierForm modifier).text ++ '}' :: back = c :: tail ∧ c ∈ signs ∧ c ≠ '[' := by
  have operators : ∀ op ∈ operandOperators, ∃ c ∈ op.toList.head?, c ∈ signs ∧ c ≠ '[' := by
    simp [operandOperators, signs]
  have signed (modifier : Modifier) : ∃ c ∈ modifier.sign.head?, c ∈ signs ∧ c ≠ '[' := by
    cases modifier with
    | expand op known operand => exact operators op known
    | slice offset length => exact ⟨':', rfl, by decide⟩
    | replace everywhere pattern replacement =>
        cases everywhere <;> exact ⟨'/', rfl, by decide⟩
  cases modifier with
  | none => exact ⟨'}', back, rfl, by decide⟩
  | some modifier =>
      obtain ⟨c, head, sign⟩ := signed modifier
      obtain ⟨rest, shape⟩ := List.head?_eq_some_iff.mp head
      refine ⟨c, rest ++ modifier.operands.text ++ '}' :: back, ?_, sign⟩
      rw [modifierForm, Option.map_some, Form.optional, Modifier.form, shape]
      rfl

theorem endsName_index (index : Option Operand) (modifier : Option Modifier) (back : List Char) :
    EndsName ((indexForm index).text ++ ((modifierForm modifier).text ++ '}' :: back)) := by
  cases index with
  | some index =>
      rintro c ⟨⟩
      decide
  | none =>
      obtain ⟨c, tail, shape, sign, -⟩ := modifierForm_head modifier back
      have named : ∀ c ∈ signs, isNameChar c = false := by decide
      have empty : (indexForm none).text = [] := rfl
      rw [empty, List.nil_append, shape]
      rintro d ⟨⟩
      exact named c sign

/-- The index between brackets is a text of its own, which may hold balanced brackets. -/
theorem index_reads {text : List Char} (balanced : Balances '[' ']' 0 text)
    (plain : ∀ c ∈ text, c ∉ ['\\', '\x60', '$']) (bounded : inner.rounds = rounds) :
    Reads rounds (Reading.index inner) pos (['['] ++ (text ++ [']'])) back
      { pos := pos.along ['['], parts := literalParts (pos.along ['[']) text } := by
  intro state awaited comments here shape enough
  have short : text.length < inner.rounds := by
    rw [bounded]
    simp only [List.length_append, List.length_cons, List.length_nil] at enough
    omega
  have word (start behind : Position) : Reads rounds (inlineWord inner text start) behind [] back
      { pos := start, parts := literalParts start text } :=
    fun _ _ _ _ _ _ => inlineWord_literal plain start short
  suffices reads : Reads rounds (Reading.index inner) pos (['['] ++ (text ++ [']'])) back _ from
    reads state awaited comments here shape enough
  refine .skip ['['] (.here (.rest ?_))
  rw [bracketEnd?_of_balances (by decide) balanced]
  have length : text.length + 1 = (text ++ [']']).length := by simp
  simp only [length, List.append_assoc, List.take_left]
  exact .bindLast (.skipped _) (word _ _)

theorem optionalIndex_reads (index : Option Operand) (modifier : Option Modifier)
    (bounded : inner.rounds = rounds) :
    Reads rounds (optionalIndex inner) pos (indexForm index).text
      ((modifierForm modifier).text ++ '}' :: back) ((indexForm index).tree pos) := by
  refine .current ?_
  cases index with
  | none =>
      obtain ⟨c, tail, shape, -, other⟩ := modifierForm_head modifier back
      have empty : (indexForm none).text = [] := rfl
      rw [empty, List.nil_append, shape, if_neg (by simpa using other)]
      exact .pure _
  | some index =>
      have free {c d : Char} (member : c ∈ index.chars) (sign : d ∈ signs) : c ≠ d :=
        ne_of_isUnsigned (index.unsigned c member) sign
      have balanced : Balances '[' ']' 0 index.chars := by
        have neutral : ∀ c ∈ index.chars, c ≠ '[' ∧ c ≠ ']' :=
          fun c member => ⟨free member (by decide), free member (by decide)⟩
        have empty := @balances_insert [] [] '[' ']' 0 (by decide) _ neutral
        rw [List.nil_append, List.append_nil] at empty
        exact empty.mpr (balances_nil.mpr rfl)
      have plain : ∀ c ∈ index.chars, c ∉ ['\\', '\x60', '$'] := by
        have sign : ∀ d ∈ ['\\', '\x60', '$'], d ∈ signs := by decide
        exact fun c member special => free member (sign c special) rfl
      have word : Reads rounds (Reading.index inner) pos (['['] ++ (index.chars ++ [']']))
          ((modifierForm modifier).text ++ '}' :: back) _ := index_reads balanced plain bounded
      rw [literalParts, if_neg index.filled] at word
      have head (text : List Char) : ((indexForm (some index)).text ++ text).head? = some '[' := rfl
      rw [if_pos (head _)]
      exact .map some word

end Expansion

namespace Parameter

theorem exists_head (parameter : Parameter) :
    ∃ c rest, parameter.chars = c :: rest ∧ isNameChar c = true := by
  rcases parameter.shaped with named | ⟨filled, digits⟩
  · obtain ⟨c, rest, shape, -⟩ := Name.exists_head ⟨parameter.chars, named⟩
    rw [isName, Bool.and_eq_true, List.all_eq_true] at named
    exact ⟨c, rest, shape, named.2 c (by rw [show parameter.chars = c :: rest from shape]; simp)⟩
  · obtain ⟨c, rest, shape⟩ := List.exists_cons_of_ne_nil filled
    exact ⟨c, rest, shape, IsParameter.isNameChar_of_isDigit (digits c (by rw [shape]; simp))⟩

theorem isNameStart_of_isDigit {c : Char} (digit : c.isDigit = true) : isNameStart c = false := by
  have other : c ≠ '_' := by
    rintro rfl
    revert digit
    decide
  simp only [Char.isDigit, UInt32.le_iff_toNat_le, Bool.and_eq_true, decide_eq_true_eq] at digit
  change 48 ≤ c.toNat ∧ c.toNat ≤ 57 at digit
  have upper : ¬ 65 ≤ c.toNat := by omega
  have lower : ¬ 97 ≤ c.toNat := by omega
  change (decide (65 ≤ c.val ∧ _) || (decide (97 ≤ c.val) && _) || decide (c = '_')) = false
  simp [UInt32.le_iff_toNat_le, other, upper, lower]

/-- The name is read up to what cannot belong to it. -/
theorem parameterRun_append (parameter : Parameter) (stop : EndsName back) :
    parameterRun (parameter.chars ++ back) = parameter.chars := by
  rcases parameter.shaped with named | ⟨filled, digits⟩
  · obtain ⟨c, rest, shape, start⟩ := Name.exists_head ⟨parameter.chars, named⟩
    rw [isName, Bool.and_eq_true, List.all_eq_true] at named
    have run : (parameter.chars ++ back).takeWhile isNameChar = parameter.chars :=
      takeWhile_append_of_stop named.2 stop
    change parameter.chars = c :: rest at shape
    rw [shape, List.cons_append] at run ⊢
    rw [parameterRun, if_pos start, run]
  · obtain ⟨c, rest, shape⟩ := List.exists_cons_of_ne_nil filled
    have digit : c.isDigit = true := digits c (by rw [shape]; simp)
    have ends : ∀ d ∈ back.head?, d.isDigit = false := by
      intro d head
      rw [← Bool.not_eq_true]
      intro another
      have named := IsParameter.isNameChar_of_isDigit another
      rw [stop d head] at named
      cases named
    have run : (parameter.chars ++ back).takeWhile Char.isDigit = parameter.chars :=
      takeWhile_append_of_stop digits ends
    rw [shape, List.cons_append] at run ⊢
    rw [parameterRun, if_neg (by simp [isNameStart_of_isDigit digit]), if_pos digit, run]

theorem parameterName_reads (parameter : Parameter) (stop : EndsName back) :
    Reads rounds parameterName pos parameter.chars back (String.ofList parameter.chars) := by
  have filled : parameter.chars.isEmpty = false := by
    obtain ⟨c, rest, shape, -⟩ := parameter.exists_head
    rw [shape]
    rfl
  refine .rest ?_
  simp only [parameter.parameterRun_append stop, filled, Bool.false_eq_true, if_false]
  exact .bindLast (.skipped _) (.pure _)

end Parameter

namespace Expansion

variable (expansion : Expansion)

theorem question_reads :
    Reads rounds Reading.question pos expansion.question.mark (expansion.parameter.chars ++ back)
      expansion.question := by
  obtain ⟨question, parameter, sized, index, modifier⟩ := expansion
  obtain ⟨c, rest, shape, named⟩ := parameter.exists_head
  have marked {mark : Char} {question : Question}
      (asked : Question.of? (mark :: c :: (rest ++ back)) = some question) :
      Reads rounds Reading.question pos [mark] (c :: (rest ++ back)) question := by
    refine .rest ?_
    rw [List.cons_append, List.nil_append, asked]
    exact .bindLast (.skipped [mark]) (.pure _)
  simp only [shape, List.cons_append]
  cases question with
  | value =>
      refine .rest ?_
      rw [Question.mark, List.nil_append, IsParameter.question?_eq_none named]
      exact .pure _
  | indirect | length => exact marked (by simp [Question.of?, named])
  | width =>
      have start : isNameStart c = true := by
        have whole := sized rfl
        rw [isName, shape, Bool.and_eq_true] at whole
        exact whole.1
      exact marked (by simp [Question.of?, start])

theorem namesMark_reads (question : Question) (modifier : Option Modifier) :
    Reads rounds (namesMark question) pos [] ((modifierForm modifier).text ++ '}' :: back) () := by
  obtain ⟨c, tail, shape, sign, -⟩ := modifierForm_head modifier back
  have others : ∀ c ∈ signs, '*' ≠ c ∧ '@' ≠ c := by decide
  have none : asksForNames (c :: tail) = false := by
    simp [asksForNames, List.isPrefixOf, others c sign]
  refine .rest ?_
  rw [List.nil_append, shape, none, Bool.and_false, if_neg Bool.false_ne_true]
  exact .pure _

/-- A parameter in braces is read field by field, whatever its index is. -/
theorem braced_of_index {first : Form (Option RecipeLint.Word)} (bounded : inner.rounds = rounds)
    (stop : EndsName (first.text ++ ((modifierForm expansion.modifier).text ++ '}' :: back)))
    (index : ∀ start, Reads rounds (optionalIndex inner) start first.text
      ((modifierForm expansion.modifier).text ++ '}' :: back) (first.tree start)) :
    Reads rounds (braced inner) pos
      (expansion.head ++ (first.text ++ ((modifierForm expansion.modifier).text ++ ['}']))) back
      (.braced pos expansion.question (String.ofList expansion.parameter.chars)
        (first.tree (pos.along expansion.head))
        ((modifierForm expansion.modifier).tree
          ((pos.along expansion.head).along first.text))) := by
  let second := modifierForm expansion.modifier
  have closing : second.text ++ ['}'] ++ back = second.text ++ '}' :: back :=
    List.append_cons .. |>.symm
  have name (start : Position) : Reads rounds parameterName start expansion.parameter.chars
      (first.text ++ (second.text ++ ['}']) ++ back) (String.ofList expansion.parameter.chars) := by
    rw [List.append_assoc, closing]
    exact expansion.parameter.parameterName_reads stop
  have question (start : Position) : Reads rounds Reading.question start expansion.question.mark
      (expansion.parameter.chars ++ (first.text ++ (second.text ++ ['}'])) ++ back)
      expansion.question := by
    rw [List.append_assoc]
    exact expansion.question_reads
  have indexed (start : Position) : Reads rounds (optionalIndex inner) start first.text
      (second.text ++ ['}'] ++ back) (first.tree start) := by
    rw [closing]
    exact index start
  have names (start : Position) : Reads rounds (namesMark expansion.question) start []
      (second.text ++ ['}'] ++ back) () := by
    rw [closing]
    exact namesMark_reads expansion.question expansion.modifier
  have operation (start : Position) : Reads rounds (Reading.operation inner) start second.text
      (['}'] ++ back) (second.tree start) :=
    operation_reads expansion.modifier bounded
  have place : pos.along expansion.head =
    ((pos.along ['$', '{']).along expansion.question.mark).along
      expansion.parameter.chars := by
    rw [head, Position.along_append, Position.along_append]
  rw [place, head, List.append_assoc, List.append_assoc]
  refine .here (.skip ['$', '{'] (.bind (question _) (.bind (name _) (.bind (indexed _)
    (.bindFirst (names _) (.bind (operation _) (.current ?_)))))))
  rw [List.cons_append, List.head?_cons, if_pos rfl]
  exact .bindLast (.skipped ['}']) (.pure _)

end Expansion

/-- A word that consists of one part, which is read in one round. -/
theorem word_of_part {part : Part} (bounded : inner.rounds = rounds) (filled : text ≠ [])
    (round : Reads rounds (wordRound inner wordDelimiters (.empty pos)) pos text back
      (.again ((Pieces.empty pos).add part)))
    (ends : endsWord back = true) : Reads rounds (Reading.word inner) pos text back
    { pos, parts := [part] } := by
  have ended (pieces : Pieces) (pos : Position) :
      Reads rounds (wordRound inner wordDelimiters pieces) pos [] back (.done pieces.finish) :=
    fun state _ _ _ shape _ => wordRound_ends (by rw [shape]; exact ends)
  have runs : Runs rounds (wordRound inner wordDelimiters) (.empty pos) pos (text ++ []) back
      ((Pieces.empty pos).add part).finish :=
    .again filled round (.done (ended _ _))
  rw [List.append_nil, Pieces.finish_add] at runs
  refine .here ?_
  rw [bounded]
  exact .bindLast runs.iterate (.pure _)

theorem wordRound_braced {part : Part}
    (reads : Reads rounds (braced inner) pos ('$' :: '{' :: text) back part) :
    Reads rounds (wordRound inner.around wordDelimiters (.empty pos)) pos ('$' :: '{' :: text) back
      (.again ((Pieces.empty pos).add part)) := by
  refine wordRound_expansion _ (.here (.rest ?_))
  rw [List.cons_append, List.cons_append, List.drop_one, List.tail_cons]
  simp only [show ('{' : Char) ≠ '\'' by decide, show ('{' : Char) ≠ '"' by decide,
    show ('{' : Char) ≠
      '(' by decide, show ('{' : Char) ≠ '[' by decide, decide_false, Bool.false_and,
    Bool.false_eq_true, if_false, if_true]
  exact .map some reads

/-- A word that consists of the expansion. -/
theorem Expansion.word_reads (expansion : Expansion) (bounded : inner.rounds = rounds)
    (ends : endsWord back = true) :
    Reads rounds (Reading.word inner.around) pos expansion.form.text back
      { pos, parts := [expansion.form.tree pos] } := by
  have braced : Reads rounds (Reading.braced inner) pos expansion.form.text back
      (expansion.form.tree pos) :=
    expansion.braced_of_index bounded (endsName_index expansion.index expansion.modifier back)
      fun start => optionalIndex_reads expansion.index expansion.modifier bounded
  exact word_of_part bounded (List.cons_ne_nil _ _) (wordRound_braced braced) ends

/-! ## Scripts of one command -/

/-- A simple command up to the end of the text is a list of its own. -/
theorem statements_call {stmt : Stmt} (bounded : inner.rounds = rounds)
    (simple : Simple (text ++ [])) (foreground : stmt.background = false)
    (reads : Reads rounds (Reading.call inner pos) pos text [] stmt) :
    Reads rounds (inner.around.statements []) pos text [] [.stmt stmt] := by
  have command : Reads rounds (Reading.command inner) pos text [] stmt :=
    .tight simple.opens.tight (.here (.bindFirst simple.compound? reads))
  have pipes : Reads rounds (Reading.pipes inner) pos text [] stmt := by
    have ended : Reads rounds (pipelineRound inner stmt) (pos.along text) [] [] (.done stmt) :=
      .tight rfl (.rest (.pure _))
    rw [Reading.pipes, bounded]
    exact .bindLast command (Runs.done ended).iterate
  have pipeline : Reads rounds (Reading.pipeline inner) pos text [] stmt := by
    refine .tight simple.opens.tight (.here (.rest ?_))
    rw [simple.affirms]
    exact pipes
  have logic : Reads rounds (Reading.logic inner) pos text [] stmt := by
    have ended : Reads rounds (logicRound inner stmt) (pos.along text) [] [] (.done stmt) :=
      .tight rfl (.rest (.pure _))
    rw [Reading.logic, bounded]
    exact .bindLast pipeline (Runs.done ended).iterate
  have statement : Reads rounds (Reading.statement inner []) pos text [] [.stmt stmt] := by
    have same : { stmt with background := false } = stmt := by
      cases stmt
      cases foreground
      rfl
    have ended : Reads rounds statementEnd (pos.along text) [] [] false :=
      .tight rfl (.rest (.current (.pure _)))
    have whole : Reads rounds (Reading.statement inner []) pos text []
        [.stmt { stmt with background := false }] :=
      .bindLast logic (.bind (.takeComments []) (.bindLast ended (.pure _)))
    rwa [same] at whole
  have filled : text ≠ [] := by
    obtain ⟨c, rest, shape, -⟩ := simple.head
    rw [List.append_nil] at shape
    rw [shape]
    exact List.cons_ne_nil _ _
  have runs : Runs rounds (statementRound inner []) [] pos (text ++ []) [] [.stmt stmt] :=
    .again filled (statementRound_opens simple.opens (.inl rfl) statement)
      (.done (statementRound_closes (.inl rfl) .finish))
  rw [List.append_nil] at runs
  have loop := runs.iterate
  rw [← bounded] at loop ⊢
  exact loop

/-- A simple command that is read in one round, up to the end of the text. -/
theorem call_of_round {draft : CallDraft} (bounded : inner.rounds = rounds) (filled : text ≠ [])
    (kept : draft.args ≠ [] ∨ draft.assigns ≠ [])
    (first : Reads rounds (callRound inner pos { assigns := [], args := [], redirects := [] })
      pos text []
      (.again draft)) :
    Reads rounds (Reading.call inner pos) pos text []
      (.ofDraft pos (some (.call pos draft.assigns.reverse draft.args.reverse))
        draft.redirects) := by
  have finished : Reads rounds (finishCall pos draft) (pos.along text) [] []
      (.ofDraft pos (some (.call pos draft.assigns.reverse draft.args.reverse))
        draft.redirects) := by
    rw [finishCall, if_neg (by simpa [or_iff_not_imp_left] using kept)]
    exact .pure _
  have ended : Reads rounds (callRound inner pos draft) (pos.along text) [] [] _ :=
    .tight rfl (.redirectAt (.current (.bindLast finished (.pure _))))
  have runs := Runs.again filled first (.done ended)
  rw [List.append_nil] at runs
  unfold Reading.call
  rw [bounded]
  exact runs.iterate

/-- The assignment of a word up to the end of the text. -/
theorem call_assign {assign : Assign} {value : Value} (bounded : inner.rounds = rounds)
    (valued : Reads rounds (Reading.value inner) (pos.along assign.head) text [] value) :
    Reads rounds (Reading.call inner pos) pos (assign.head ++ text) []
      (.ofDraft pos (some (.call pos
        [{ pos, name := String.ofList assign.name.chars, index := none, append := assign.append
           value }]
        [])) []) := by
  have filled : assign.head ++ text ≠ [] := by
    obtain ⟨c, rest, shape, -⟩ := assign.exists_head
    rw [shape]
    exact List.cons_ne_nil _ _
  exact call_of_round bounded filled (.inr (List.cons_ne_nil _ _))
    (callRound_assign (.inl rfl) rfl valued)

/-! ## The main result -/

/-- Every expansion in braces is read back from its spelling, behind an assignment to any variable:
the value is this one expansion, with the question, parameter, index and operation that were
written.  It is never taken for one without braces, and it is of more than a value just if one of
these was written. -/
theorem parse_assigned_expansion (name : String) (target : Name) (expansion : Expansion)
    (limit : NestingLimit) :
    let start := Position.start.along (target.chars ++ ['='])
    let part := expansion.form.tree start
    Script.parse name (target.chars ++ ['='] ++ expansion.form.text) limit =
        .ok { name, items := [.stmt (.ofDraft .start (some (.call .start
          [{ pos := .start, name := String.ofList target.chars, index := none, append := false,
             value := .scalar { pos := start, parts := [part] } }] [])) [])] } ∧
      part.isShort = false ∧
      (part.isModified = true ↔
        expansion.question ≠ .value ∨ expansion.index.isSome ∨ expansion.modifier.isSome) := by
  obtain ⟨depth, levels⟩ := limit.levels_eq
  intro start part
  refine ⟨?_, rfl, ?_⟩
  · let assign : Assign := { name := target, append := false, value := none }
    let text := assign.head ++ expansion.form.text
    let inner := Inner.level (text.length + 1) depth
    have bounded : inner.rounds = text.length + 1 := Inner.level_rounds _ _
    have around : inner.around.rounds = text.length + 1 := bounded
    have valued : Reads (text.length + 1) (Reading.value inner.around) start expansion.form.text []
        (.scalar { pos := start, parts := [part] }) :=
      Assign.value_scalar rfl (by decide) (expansion.word_reads bounded rfl)
    have call : Reads (text.length + 1) (Reading.call inner.around .start) .start
        (assign.head ++ expansion.form.text) [] _ := call_assign around valued
    have simple : Simple (text ++ []) := by
      rw [List.append_assoc]
      exact assign.simple _
    have reads := statements_call around simple rfl call
    rw [Script.parse, levels]
    exact parseWithin_of_reads reads (Nat.lt_succ_self _) name
  · obtain ⟨question, parameter, sized, index, modifier⟩ := expansion
    cases index <;> cases modifier <;>
    simp [part, Expansion.form, Part.isModified, Expansion.indexForm, Expansion.modifierForm,
      Form.optional]

/-- An element of an array with a default: the index and the operation are both there. -/
theorem parse_assigned_expansion_indexed :
    Script.parse "APKBUILD" "a=$\x7bb[0]:-c\x7d".toList = .ok
      { name := "APKBUILD"
        items := [.stmt (.ofDraft .start (some (.call .start
          [{ pos := .start, name := "a", index := none, append := false,
             value := .scalar ⟨⟨1, 3⟩, [.braced ⟨1, 3⟩ .value "b"
               (some ⟨⟨1, 7⟩, [.literal ⟨1, 7⟩ "0"]⟩)
               (some (.expand ⟨1, 9⟩ ":-" (some ⟨⟨1, 11⟩, [.literal ⟨1, 11⟩ "c"]⟩)))]⟩ }] []))
          [])] } :=
  (parse_assigned_expansion "APKBUILD" ⟨['a'], rfl⟩
    ⟨.value, ⟨['b'], .inl rfl⟩, nofun, some ⟨['0'], by decide, by decide⟩,
      some (.expand ":-" (by decide) (some ⟨['c'], by decide, by decide⟩))⟩ .usual).1

end Canonical
end RecipeLint
