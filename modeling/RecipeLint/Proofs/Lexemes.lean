import RecipeLint.Proofs.Forward

/-!
# What is recognised in front of a text

Assignments and redirections are told from other words by what they start with.  `heads_exact` says
that both recognisers accept exactly what the grammar describes.  A name or a run of digits is never
taken in part, because no character that may follow belongs to it, so there is one way to take the
text apart; of the operators of a redirection the longest one is taken. -/

namespace RecipeLint

/-! ## Assignments -/

namespace AssignHead

variable {text index : List Char} {head : AssignHead}

theorem operator?_operator (head : AssignHead) (rest : List Char) :
    operator? (head.operator ++ rest) = some head.append := by
  obtain ⟨name, index, append⟩ := head
  cases append <;> simp [operator, operator?, List.isPrefixOf]

theorem index?_operator (head : AssignHead) (rest : List Char) :
    index? (head.operator ++ rest) = none := by
  obtain ⟨name, index, append⟩ := head
  cases append <;> rfl

theorem index?_brackets (closed : ']' ∉ index) (straight : '\n' ∉ index) (rest : List Char) :
    index? ('[' :: index ++ [']'] ++ rest) = some index := by
  have inside : ∀ c ∈ index, (c ≠ ']' && c ≠ '\n') = true := by
    intro c member
    have apart : c ≠ ']' ∧ c ≠ '\n' :=
      ⟨fun same => closed (same ▸ member), fun same => straight (same ▸ member)⟩
    simp [apart]
  have run : (index ++ ']' :: rest).takeWhile (fun c => c ≠ ']' && c ≠ '\n') = index :=
    takeWhile_append_of_stop inside (by rintro _ ⟨⟩; decide)
  simp only [List.cons_append, List.append_assoc, List.nil_append, index?, run]
  simp

/-- A head in front of a text is recognised, and no other one is. -/
theorem of?_of_starts (starts : head.Starts text) : of? text = some head := by
  obtain ⟨rest, written⟩ := starts.written
  rw [AssignHead.text, List.append_assoc, List.append_assoc] at written
  have run : nameRun text = head.name := by
    rw [written]
    refine nameRun_append starts.named ?_
    obtain ⟨name, index, append⟩ := head
    cases index <;> cases append <;> rintro _ ⟨⟩ <;> decide
  have filled : ¬head.name.isEmpty = true := mt List.isEmpty_iff.mp (ne_nil_of_isName starts.named)
  have behind : text.drop head.name.length = head.indexText.getD [] ++ (head.operator ++ rest) := by
    rw [written, List.drop_left]
  simp only [of?, run, if_neg filled, behind]
  cases index : head.index with
  | none =>
      simp only [indexText, index, Option.map_none, Option.getD_none,
        List.nil_append, index?_operator, operator?_operator]
      rw [← index]
      rfl
  | some inside =>
      obtain ⟨closed, straight⟩ := starts.indexed inside index
      have length : inside.length + 2 = ('[' :: inside ++ [']']).length := by simp
      simp only [indexText, index, Option.map_some, Option.getD_some,
        index?_brackets closed straight, length, List.drop_left, operator?_operator]
      rw [← index]

theorem of?_eq_some_iff : of? text = some head ↔ head.Starts text :=
  ⟨starts_of_of?, of?_of_starts⟩

end AssignHead

/-! ## Redirections -/

/-- In a list that is sorted by length, the first text found in front of another one is the
longest. -/
theorem length_le_of_find? {α : Type} {written : α → List Char} {values : List α} {text : List Char}
    {value : α}
    (sorted : values.Pairwise fun first second => (written second).length ≤ (written first).length)
    (found : values.find? (fun value => (written value).isPrefixOf text) = some value) :
    ∀ other ∈ values, written other <+: text → (written other).length ≤ (written value).length := by
  obtain ⟨-, front, back, rfl, earlier⟩ := List.find?_eq_some_iff_append.mp found
  intro other member starts
  rcases List.mem_append.mp member with early | late
  · have fails := earlier other early
    rw [List.isPrefixOf_iff_prefix.mpr starts] at fails
    cases fails
  · rcases List.mem_cons.mp late with rfl | late
    · exact Nat.le_refl _
    · exact (List.pairwise_cons.mp (List.pairwise_append.mp sorted).2.1).1 other late

namespace RedirectHead

/-- The operators that a descriptor may precede. -/
def operators : List String :=
  ["<<", "<<-", "<<<", "<>", "<&", ">>", ">&", ">|", "<", ">"]

/-- The digits are all that there are in front of the text. -/
structure IsDigitRun (digits text : List Char) : Prop where
  front : digits <+: text
  decimal : ∀ c ∈ digits, Text.isDecimal c = true
  maximal : ∀ more, more <+: text → (∀ c ∈ more, Text.isDecimal c = true) →
    more.length ≤ digits.length

/-- The operator is the longest one in front of the text. -/
structure IsLongest (op : String) (text : List Char) : Prop where
  known : op ∈ operators
  front : op.toList <+: text
  longest : ∀ other ∈ operators, other.toList <+: text → other.length ≤ op.length

variable {text : List Char}

theorem isDigitRun_takeWhile (text : List Char) :
    IsDigitRun (text.takeWhile Text.isDecimal) text where
  front := List.takeWhile_prefix _
  decimal := List.all_eq_true.mp List.all_takeWhile
  maximal more front decimal := by
    obtain ⟨rest, rfl⟩ := front
    rw [List.takeWhile_append_of_pos decimal, List.length_append]
    exact Nat.le_add_right ..

/-- The operators are looked for one after the other, the longer ones first. -/
theorem exists_ops : ∃ ops : List RedirectOp,
    (∀ text, RedirectOp.of? text = ops.find? (·.text.toList.isPrefixOf text)) ∧
      (ops.Pairwise fun first second => second.text.toList.length ≤ first.text.toList.length) ∧
      (∀ op ∈ ops, op.text ∈ operators) ∧ ∀ other ∈ operators, ∃ op ∈ ops, op.text = other :=
  ⟨_, fun _ => rfl, by decide, by decide, by decide⟩

theorem isLongest_of_of? {op : RedirectOp} (found : RedirectOp.of? text = some op) :
    IsLongest op.text text := by
  obtain ⟨ops, lookup, sorted, known, written⟩ := exists_ops
  rw [lookup] at found
  refine ⟨known op (List.mem_of_find?_eq_some found), ?_, fun other listed front => ?_⟩
  · exact List.isPrefixOf_iff_prefix.mp (by simpa using List.find?_some found)
  · obtain ⟨other, member, rfl⟩ := written other listed
    have shorter := length_le_of_find? sorted found other member front
    rwa [String.length_toList, String.length_toList] at shorter

theorem isSome_of_operator {op : String} (listed : op ∈ operators) (rest : List Char) :
    (RedirectOp.of? (op.toList ++ rest)).isSome = true := by
  obtain ⟨ops, lookup, -, -, written⟩ := exists_ops
  obtain ⟨op, member, rfl⟩ := written op listed
  rw [lookup, List.find?_isSome]
  exact ⟨op, member, List.isPrefixOf_iff_prefix.mpr (List.prefix_append ..)⟩

theorem both?_eq (text : List Char) : RedirectOp.both? text =
    if "&>>".toList <+: text then some .appendBoth
    else if "&>".toList <+: text then some .outputBoth
    else none := by
  have tested {op : RedirectOp} : op.text.toList.isPrefixOf text = true ↔ op.text.toList <+: text :=
    List.isPrefixOf_iff_prefix
  unfold RedirectOp.both?
  rw [List.find?_cons, List.find?_cons]
  split
  next long => exact (if_pos (tested.mp long)).symm
  next other =>
    refine Eq.trans ?_ (if_neg (mt tested.mpr (Bool.eq_false_iff.mp other))).symm
    split
    next short => exact (if_pos (tested.mp short)).symm
    next other => exact (if_neg (mt tested.mpr (Bool.eq_false_iff.mp other))).symm

/-- What is recognised is described by the parts that are returned. -/
theorem parts_of_of? {head : RedirectHead} (found : of? text = some head) :
    (∃ digits, head.descriptor = some digits ∧ IsDigitRun digits text ∧
        IsLongest head.op.text (text.drop digits.length)) ∨
      head.descriptor = none ∧ "&>".toList <+: text ∧
        head.op.text = if "&>>".toList <+: text then "&>>" else "&>" := by
  unfold of? at found
  simp only at found
  split at found
  next op operated =>
    cases found
    exact .inl ⟨_, rfl, isDigitRun_takeWhile text, isLongest_of_of? operated⟩
  next =>
    obtain ⟨op, operated, rfl⟩ := Option.map_eq_some_iff.mp found
    rw [both?_eq] at operated
    refine .inr ⟨rfl, ?_⟩
    split at operated
    next long =>
      cases operated
      exact ⟨List.IsPrefix.trans ⟨['>'], rfl⟩ long, (if_pos long).symm⟩
    next other =>
      split at operated
      next short =>
        cases operated
        exact ⟨short, (if_neg other).symm⟩
      next => cases operated

theorem isSome_of?_iff : (of? text).isSome = true ↔
    (∃ digits op rest, (∀ c ∈ digits, Text.isDecimal c = true) ∧ op ∈ operators ∧
      text = digits ++ (op.toList ++ rest)) ∨ "&>".toList <+: text := by
  constructor
  · intro found
    obtain ⟨head, found⟩ := Option.isSome_iff_exists.mp found
    rcases parts_of_of? found with ⟨digits, -, run, longest⟩ | ⟨-, both, -⟩
    · obtain ⟨behind, rfl⟩ := run.front
      rw [List.drop_left] at longest
      obtain ⟨rest, rfl⟩ := longest.front
      exact .inl ⟨digits, _, rest, run.decimal, longest.known, rfl⟩
    · exact .inr both
  · rintro (⟨digits, op, rest, decimal, listed, rfl⟩ | both)
    · have run : (digits ++ (op.toList ++ rest)).takeWhile Text.isDecimal = digits := by
        refine takeWhile_append_of_stop decimal fun c first => ?_
        have signs : ∀ op ∈ operators, op.toList.head? = some '<' ∨
            op.toList.head? = some '>' := by decide
        rw [List.head?_append] at first
        rcases signs op listed with head | head <;>
        · rw [head] at first
          cases first
          decide
      obtain ⟨head, found⟩ := Option.isSome_iff_exists.mp (isSome_of_operator listed rest)
      simp only [of?, run, List.drop_left, found]
      rfl
    · unfold of?
      simp only
      split
      · rfl
      · rw [both?_eq, if_pos both, Option.isSome_map]
        split <;> rfl

end RedirectHead

/-- At every place of every text the recognisers accept exactly what the grammar describes.  A head
of an assignment is recognised if it stands there, and at most one does.  An operator of a
redirection is recognised if it stands there, behind digits or not, or if one for both outputs does.
Then the descriptor is the whole run of digits and the operator the longest one behind it. -/
theorem heads_exact (source : List Char) (offset : Nat) :
    let text := source.drop offset
    (∀ head : AssignHead, AssignHead.of? text = some head ↔ head.Starts text) ∧
      (∀ first second : AssignHead, first.Starts text → second.Starts text → first = second) ∧
      ((RedirectHead.of? text).isSome = true ↔
        (∃ digits op rest, (∀ c ∈ digits, Text.isDecimal c = true) ∧ op ∈ RedirectHead.operators ∧
          text = digits ++ (op.toList ++ rest)) ∨ "&>".toList <+: text) ∧
      ∀ head : RedirectHead, RedirectHead.of? text = some head →
        (∃ digits, head.descriptor = some digits ∧ RedirectHead.IsDigitRun digits text ∧
          RedirectHead.IsLongest head.op.text (text.drop digits.length)) ∨
        head.descriptor = none ∧ "&>".toList <+: text ∧
          head.op.text = if "&>>".toList <+: text then "&>>" else "&>" := by
  intro text
  refine ⟨fun head => AssignHead.of?_eq_some_iff, fun first second here there => ?_,
    RedirectHead.isSome_of?_iff,
    fun head => RedirectHead.parts_of_of?⟩
  exact Option.some.inj
    ((AssignHead.of?_of_starts here).symm.trans (AssignHead.of?_of_starts there))

/-- An element of an array is appended to, in only one way, and behind a descriptor stands the
longer operator. -/
theorem heads_exact_indexed :
    (∀ head : AssignHead, head.Starts ("x a[1]+=2".toList.drop 2) →
      head = ⟨['a'], some ['1'], true⟩) ∧
      RedirectHead.IsLongest ">>" ("x 12>>f".toList.drop 4) := by
  constructor
  · intro head starts
    obtain ⟨recognised, unique, -, -⟩ := heads_exact "x a[1]+=2".toList 2
    exact unique head _ starts ((recognised ⟨['a'], some ['1'], true⟩).mp (by decide))
  · have found : RedirectHead.of? ("x 12>>f".toList.drop 2) =
        some ⟨some ['1', '2'], .append⟩ := by decide
    obtain ⟨-, -, -, parts⟩ := heads_exact "x 12>>f".toList 2
    rcases parts _ found with ⟨digits, same, -, longest⟩ | ⟨none, -, -⟩
    · cases same
      exact longest
    · cases none

end RecipeLint
