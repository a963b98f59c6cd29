import RecipeLint.Proofs.Canonical.Words

/-!
# Reading canonical simple commands

Assignments and words are taken one by one until the command ends.  A word is neither a redirection
nor an assignment, and the first one is no keyword.
-/

namespace RecipeLint

namespace Canonical

open Reading

variable {rounds : Nat} {pos : Position} {back : List Char} {inner : Inner}

/-- What follows a command. -/
inductive Ending where
  /-- The end of the line. -/
  | line
  /-- The sign that runs a statement in the background. -/
  | background
  /-- A connective. -/
  | joint (connective : Connective)

namespace Ending

/-- The blank behind the command. -/
def blank : Ending → List Char
  | .line => []
  | _ => [' ']

/-- The text behind the blank. -/
def text : Ending → List Char
  | .line => ['\n']
  | .background => ['&', '\n']
  | .joint connective => connective.text.toList ++ [' ']

theorem starting?_text (ending : Ending) (back : List Char) :
    RedirectHead.starting? (ending.text ++ back) = none := by
  have line : Text.isDecimal '\n' = false := by decide
  have ampersand : Text.isDecimal '&' = false := by decide
  have bar : Text.isDecimal '|' = false := by decide
  cases ending with
  | line =>
      simp [text, RedirectHead.starting?, RedirectHead.of?, RedirectOp.of?, RedirectOp.both?,
        RedirectOp.text, line]
  | background =>
      simp [text, RedirectHead.starting?, RedirectHead.of?, RedirectOp.of?, RedirectOp.both?,
        RedirectOp.text, ampersand]
  | joint connective =>
      cases connective <;>
        simp [text, Connective.text, RedirectHead.starting?, RedirectHead.of?, RedirectOp.of?,
          RedirectOp.both?, RedirectOp.text, ampersand, bar]

/-- The text behind a command starts with a character that ends commands. -/
theorem exists_head (ending : Ending) :
    ∃ c rest, ending.text = c :: rest ∧ c ∈ ['\n', '&', '|'] := by
  cases ending with
  | line => exact ⟨'\n', [], rfl, by decide⟩
  | background => exact ⟨'&', ['\n'], rfl, by decide⟩
  | joint connective =>
      cases connective with
      | both => exact ⟨'&', ['&', ' '], rfl, by decide⟩
      | either => exact ⟨'|', ['|', ' '], rfl, by decide⟩
      | pipe => exact ⟨'|', [' '], rfl, by decide⟩
      | pipeAll => exact ⟨'|', ['&', ' '], rfl, by decide⟩

theorem tight (ending : Ending) (back : List Char) : isTight (ending.text ++ back) = true := by
  obtain ⟨c, rest, shape, member⟩ := ending.exists_head
  have none : ∀ c ∈ ['\n', '&', '|'], c ∉ [' ', '\t', '\r', '\\'] := by decide
  rw [shape]
  simpa [isTight] using none c member

theorem blanks (ending : Ending) (back : List Char) :
    Reads.Blank ending.blank (ending.text ++ back) := by
  refine ⟨?_, ending.tight back⟩
  cases ending with
  | line => exact .inl rfl
  | background | joint connective => exact .inr rfl

end Ending

/-- A blank, the end of the line or a semicolon is in front of a text. -/
def EndsToken (text : List Char) : Prop :=
  ∃ c ∈ text.head?, c ∈ [' ', '\n', ';']

theorem EndsToken.endsWord (ends : EndsToken back) : endsWord back = true := by
  obtain ⟨c, head, member⟩ := ends
  have among : ∀ c ∈ [' ', '\n', ';'], c ∈
      [' ', '\t', '\r', '\n', ';', '&', '|', '(', ')'] := by decide
  rw [RecipeLint.endsWord, Option.mem_def.mp head, Option.all_some, List.contains_iff_mem]
  exact among c member

theorem EndsToken.blank (text : List Char) : EndsToken (' ' :: text) :=
  ⟨' ', rfl, by decide⟩

theorem EndsToken.line (text : List Char) : EndsToken ('\n' :: text) :=
  ⟨'\n', rfl, by decide⟩

theorem Ending.endsToken (ending : Ending) (back : List Char) :
    EndsToken (ending.blank ++ (ending.text ++ back)) := by
  cases ending with
  | line => exact .line _
  | background | joint connective => exact .blank _

/-! ## The beginning of a word -/

/-- The text that a run of characters leaves starts inside of the front or right behind it. -/
theorem head_drop_takeWhile {p : Char → Bool} {front tail : List Char}
    (stop : ∀ c ∈ tail.head?, p c = false) :
    ∀ c ∈ ((front ++ tail).drop ((front ++ tail).takeWhile p).length).head?,
      c ∈ front ∨ c ∈ tail.head? := by
  induction front with
  | nil =>
      intro c head
      cases tail with
      | nil => simp at head
      | cons d tail =>
          rw [List.nil_append, List.takeWhile_cons_of_neg (by simp [stop d rfl])] at head
          exact .inr head
  | cons d front ih =>
      intro c head
      by_cases holds : p d = true
      · rw [List.cons_append, List.takeWhile_cons_of_pos holds, List.length_cons,
          List.drop_succ_cons] at head
        exact (ih c head).imp_left (List.mem_cons_of_mem d)
      · rw [List.cons_append, List.takeWhile_cons_of_neg holds] at head
        obtain rfl : d = c := by simpa using head
        exact .inl List.mem_cons_self

/-- The characters that only stand at the beginning of a part. -/
def partMarks : List Char :=
  ['\'', '"', '$']

/-- The literal that a word starts with, and the rest of the word. -/
structure Word.Split (word : Word) (front tail : List Char) : Prop where
  text_eq : word.form.text = front ++ tail
  solid : ∀ c ∈ front, isSolid c = true
  marked : ∀ c ∈ tail.head?, c ∈ partMarks
  literal : tail = [] → word.literal? = some front

theorem Piece.mark_of_text? {piece : Piece} (other : piece.text? = none) :
    ∃ c rest, piece.form.text = c :: rest ∧ c ∈ partMarks := by
  cases piece with
  | bare part =>
      cases part with
      | literal text => cases other
      | parameter name => exact ⟨'$', name.chars, rfl, by decide⟩
  | single text unquoted => exact ⟨'\'', _, rfl, by decide⟩
  | double parts apart => exact ⟨'"', _, rfl, by decide⟩

theorem Word.exists_split (word : Word) : ∃ front tail, word.Split front tail := by
  obtain ⟨first, rest, shape⟩ := List.exists_cons_of_ne_nil word.filled
  have text : word.form.text = first.form.text ++ (Form.sequence (rest.map Piece.form)).text := by
    rw [form, shape]
    rfl
  have chain := word.apart
  rw [shape] at chain
  cases kind : first.text? with
  | none =>
      obtain ⟨c, more, written, mark⟩ := Piece.mark_of_text? kind
      refine ⟨[], _, text, nofun, ?_, fun empty => ?_⟩
      · intro d head
        rw [written] at head
        cases head
        exact mark
      · rw [written] at empty
        cases empty
  | some literal =>
      obtain rfl : first = .bare (.literal literal) := by
        cases first with
        | bare part =>
            cases part with
            | literal other =>
                cases kind
                rfl
            | parameter name => cases kind
        | single other unquoted | double parts apart => cases kind
      refine ⟨literal.chars, _, text, literal.solid, ?_, fun empty => ?_⟩
      · cases rest with
        | nil => nofun
        | cons second rest =>
            have apart := (List.isChain_cons_cons.mp chain).1
            obtain ⟨c, more, written, mark⟩ :=
              Piece.mark_of_text? ((Piece.text?_of_precedes apart).resolve_left nofun)
            rw [List.map_cons, Form.sequence, written]
            rintro d ⟨⟩
            exact mark
      · cases rest with
        | nil => rw [literal?, shape]
        | cons second rest =>
            have apart := (List.isChain_cons_cons.mp chain).1
            obtain ⟨c, more, written, mark⟩ :=
              Piece.mark_of_text? ((Piece.text?_of_precedes apart).resolve_left nofun)
            rw [List.map_cons, Form.sequence, written] at empty
            cases empty

/-- The characters that may stand right behind a word of a command. -/
def tokenEnds : List Char :=
  [' ', '\n', ';', '(']

namespace Word

variable {word : Word}

theorem text_ne_nil (word : Word) : word.form.text ≠ [] := by
  obtain ⟨piece, rest, shape⟩ := List.exists_cons_of_ne_nil word.filled
  have first : piece.form.text ≠ [] := by
    cases kind : piece.text? with
    | none =>
        obtain ⟨c, more, written, -⟩ := Piece.mark_of_text? kind
        rw [written]
        exact List.cons_ne_nil _ _
    | some text =>
        have same : piece.form = (Bare.literal text).form := by
          cases piece with
          | bare part => exact Bare.form_of_text? kind
          | single other unquoted | double parts apart => cases kind
        rw [same]
        exact text.filled
  rw [form, shape]
  exact fun empty => first (List.append_eq_nil_iff.mp empty).1

variable {front tail : List Char}

/-- What follows the literal that a word starts with. -/
theorem Split.next (split : word.Split front tail) (ends : ∀ c ∈ back.head?, c ∈ tokenEnds) :
    ∀ c ∈ (tail ++ back).head?, c ∈ partMarks ++ tokenEnds := by
  intro c head
  cases tail with
  | nil => exact List.mem_append_right _ (ends c head)
  | cons d tail => exact List.mem_append_left _ (split.marked c head)

theorem unredirected (word : Word) (ends : ∀ c ∈ back.head?, c ∈ tokenEnds) :
    RedirectHead.starting? (word.form.text ++ back) = none := by
  obtain ⟨front, tail, split⟩ := word.exists_split
  have apart : ∀ c ∈ partMarks ++ tokenEnds, Text.isDecimal c = false ∧
      c ∉ ['<', '>', '&'] := by decide
  rw [split.text_eq, List.append_assoc]
  refine RedirectHead.starting?_eq_none fun c head => ?_
  rcases head_drop_takeWhile (fun d next => (apart d (split.next ends d next)).1)
    c head with inside | next
  · exact not_mem_of_isSolid (split.solid c inside) (by decide)
  · exact (apart c (split.next ends c next)).2

theorem unassigned (word : Word) (ends : ∀ c ∈ back.head?, c ∈ tokenEnds) :
    AssignHead.of? (word.form.text ++ back) = none := by
  obtain ⟨front, tail, split⟩ := word.exists_split
  have apart : ∀ c ∈ partMarks ++ tokenEnds, isNameChar c = false ∧ c ∉ ['=', '+', '['] := by decide
  rw [split.text_eq, List.append_assoc]
  refine AssignHead.of?_eq_none fun c head => ?_
  have place : c ∈ front ∨ c ∈ (tail ++ back).head? := by
    unfold nameRun at head
    split at head
    · exact head_drop_takeWhile (fun d next => (apart d (split.next ends d next)).1) c head
    · rw [List.length_nil, List.drop_zero, List.head?_append] at head
      cases front with
      | nil => exact .inr head
      | cons d front =>
          cases head
          exact .inl List.mem_cons_self
  rcases place with inside | next
  · exact not_mem_of_isSolid (split.solid c inside) (by decide)
  · exact (apart c (split.next ends c next)).2

/-- The characters that a word starts with. -/
theorem exists_head (word : Word) :
    ∃ c rest, word.form.text = c :: rest ∧ (isSolid c = true ∨ c ∈ partMarks) := by
  obtain ⟨front, tail, split⟩ := word.exists_split
  obtain ⟨c, rest, shape⟩ := List.exists_cons_of_ne_nil word.text_ne_nil
  refine ⟨c, rest, shape, ?_⟩
  rw [split.text_eq] at shape
  cases front with
  | nil =>
      rw [List.nil_append] at shape
      exact .inr (split.marked c (by rw [shape]; rfl))
  | cons d front =>
      obtain ⟨rfl, -⟩ := List.cons.inj shape
      exact .inl (split.solid d List.mem_cons_self)

theorem head_not_mem {c : Char} (starts : isSolid c = true ∨ c ∈ partMarks) {others : List Char}
    (apart : ∀ d ∈ others, isSolid d = false ∧ d ∉ partMarks) : c ∉ others := by
  intro member
  obtain ⟨solid, mark⟩ := apart c member
  rcases starts with yes | yes
  · simp [solid] at yes
  · exact mark yes

theorem tight (word : Word) (back : List Char) : isTight (word.form.text ++ back) = true := by
  obtain ⟨c, rest, shape, starts⟩ := word.exists_head
  have other : c ∉ [' ', '\t', '\r', '\\'] := head_not_mem starts (by decide)
  rw [shape]
  simpa [isTight] using other

/-- Only a word that is a literal has a text without quotes. -/
theorem literal?_of_tree {text : String} (found : text ∈ (word.form.tree pos).literal?) :
    ∃ chars, word.literal? = some chars ∧ text = String.ofList chars := by
  have kind {piece : Piece} {pos : Position} {text : String}
      (literal : (piece.form.tree pos).literal? = some text) :
      ∃ chars, piece = .bare (.literal chars) ∧ text = String.ofList chars.chars := by
    cases piece with
    | bare part =>
        cases part with
        | literal chars =>
            cases literal
            exact ⟨chars, rfl, rfl⟩
        | parameter name => cases literal
    | single text unquoted | double parts apart => cases literal
  have chain := word.apart
  obtain ⟨first, rest, shape⟩ := List.exists_cons_of_ne_nil word.filled
  rw [shape] at chain
  simp only [RecipeLint.Word.literal?, form, shape, List.map_cons, Form.sequence, List.isEmpty_cons,
    Bool.false_eq_true, if_false, Option.mem_def, Option.map_eq_some_iff, List.mapM_cons,
    Option.bind_eq_bind, Option.bind_eq_some_iff, Option.pure_def, Option.some.injEq] at found
  obtain ⟨texts, ⟨head, isHead, tail, isTail, rfl⟩, rfl⟩ := found
  obtain ⟨chars, rfl, rfl⟩ := kind isHead
  cases rest with
  | nil =>
      cases isTail
      exact ⟨chars.chars, by rw [literal?, shape], String.empty_append⟩
  | cons second rest =>
      have apart := (List.isChain_cons_cons.mp chain).1
      simp only [List.map_cons, Form.sequence, List.mapM_cons, Option.bind_eq_bind,
        Option.bind_eq_some_iff] at isTail
      obtain ⟨text, isNext, -⟩ := isTail
      obtain ⟨other, rfl, -⟩ := kind isNext
      exact apart.elim

/-- No keyword is recognised in front of an ordinary word. -/
theorem Ordinary.not_atWord (ordinary : word.Ordinary) {cursor : Cursor}
    (shape : cursor.rest = word.form.text ++ back) (ends : ∀ c ∈ back.head?, c ∈ wordDelimiters)
    {keyword : String} (member : keyword ∈ reserved) : cursor.atWord keyword = false := by
  obtain ⟨front, tail, split⟩ := word.exists_split
  have apart : ∀ keyword ∈ reserved, ∀ c ∈ partMarks ++ wordDelimiters,
      c ∉ keyword.toList := by decide
  have inside (c : Char) (within : c ∈ front) : c ∉ wordDelimiters :=
    not_mem_of_isSolid (split.solid c within) (by decide)
  have next : ∀ c ∈ (tail ++ back).head?, c ∈ partMarks ++ wordDelimiters := by
    intro c head
    cases tail with
    | nil => exact List.mem_append_right _ (ends c head)
    | cons d tail => exact List.mem_append_left _ (split.marked c head)
  rw [split.text_eq, List.append_assoc] at shape
  rw [← Bool.not_eq_true,
    Cursor.atWord_iff shape inside fun c head => apart keyword member c (next c head)]
  rintro ⟨same, ended⟩
  cases tail with
  | nil => exact ordinary front (split.literal rfl) (by rwa [← same, String.ofList_toList])
  | cons d tail =>
      have none : ∀ c ∈ partMarks, c ∉ wordDelimiters := by decide
      exact none d (split.marked d rfl) (by simpa using ended)

/-- The text of an ordinary word is no keyword. -/
theorem Ordinary.not_mem (ordinary : word.Ordinary) {text : String}
    (found : text ∈ (word.form.tree pos).literal?) : text ∉ reserved := by
  obtain ⟨chars, literal, rfl⟩ := literal?_of_tree found
  exact ordinary chars literal

end Word

/-! ## Words and assignments in their place -/

variable {start : Position} {draft : CallDraft} {blank : List Char}

theorem endsWord_of_tokenEnds (ends : ∀ c ∈ back.head?, c ∈ tokenEnds) : endsWord back = true := by
  have among : ∀ c ∈ tokenEnds, c ∈ [' ', '\t', '\r', '\n', ';', '&', '|', '(', ')'] := by decide
  cases shape : back.head? with
  | none => rw [endsWord, shape]; rfl
  | some c =>
      rw [endsWord, shape, Option.all_some, List.contains_iff_mem]
      exact among c (ends c shape)

theorem declarator_of_not_mem {text : String} (ordinary : text ∉ reserved) :
    Declarator.of? text = none := by
  rw [Declarator.of?, List.find?_eq_none]
  intro declarator member same
  refine ordinary ?_
  rw [reserved, List.mem_append, List.mem_append]
  exact .inl (.inr (List.mem_map.mpr ⟨declarator, member, by simpa using same⟩))

/-- A word of a simple command is taken. -/
theorem callRound_of_word {text : List Char} {read : RecipeLint.Word} {c : Char}
    (blanks : Reads.Blank blank (text ++ back))
    (unredirected : RedirectHead.starting? (text ++ back) = none)
    (head : (text ++ back).head? = some c) (further : c ∉ commandEnds) (closed : c ≠ '(')
    (unassigned : AssignHead.of? (text ++ back) = none)
    (word : Reads rounds (Reading.word inner) (pos.along blank) text back read)
    (ordinary : draft.args = [] → draft.assigns = [] → ∀ literal ∈ read.literal?,
      literal ∉ reserved) :
    Reads rounds (callRound inner start draft) pos (blank ++ text) back
      (.again { draft with args := read :: draft.args }) := by
  intro state awaited comments here shape enough
  rw [List.append_assoc] at shape enough
  have skipped := Reads.skippedBlanks blanks state awaited comments here shape enough
  have moved := ReadState.skip_rest shape
  have run :=
    word (state.skip blank.length) awaited comments
      (by rw [ReadState.skip_position shape, here]) moved
    (by rw [List.length_append] at enough; omega)
  rw [List.length_append, ReadState.skip_add]
  refine callRound_word (congrArg Prod.snd (Except.ok.inj skipped)) (moved ▸ unredirected)
    (moved ▸ head) further closed
    (fun _ => moved ▸ unassigned) run fun noArgs noAssigns literal found => ?_
  have free := ordinary noArgs noAssigns literal found
  refine ⟨declarator_of_not_mem free, ?_⟩
  rintro rfl
  exact free (by decide)

theorem callRound_reads {word : Word} (spaces : blank = [] ∨ blank = [' '])
    (expands : 0 < word.levels → Expands rounds inner) (bounded : inner.rounds = rounds)
    (ends : ∀ c ∈ back.head?, c ∈ tokenEnds) (ordinary : draft.args = [] → draft.assigns = [] →
      word.Ordinary) :
    Reads rounds (callRound inner start draft) pos (blank ++ word.form.text) back
      (.again { draft with args := word.form.tree (pos.along blank) :: draft.args }) := by
  obtain ⟨c, rest, shape, begins⟩ := word.exists_head
  have head : (word.form.text ++ back).head? = some c := by rw [shape]; rfl
  have closed : c ∉ ['('] := Word.head_not_mem begins (by decide)
  exact callRound_of_word ⟨spaces, word.tight back⟩ (word.unredirected ends) head
    (Word.head_not_mem begins (by decide)) (List.mem_singleton.not.mp closed) (word.unassigned ends)
    (word_reads expands bounded (endsWord_of_tokenEnds ends))
    fun noArgs noAssigns literal found => (ordinary noArgs noAssigns).not_mem found

namespace Assign

variable {assign : Assign}

theorem head_append (assign : Assign) (text : List Char) :
    AssignHead.of? (assign.head ++ text) =
      some { name := assign.name.chars, index := none, append := assign.append } := by
  have filled : assign.name.chars.isEmpty = false := by
    obtain ⟨c, rest, shape, -⟩ := assign.name.exists_head
    rw [shape]
    rfl
  have run : nameRun (assign.head ++ text) = assign.name.chars := by
    rw [head, List.append_assoc]
    refine nameRun_append assign.name.named fun c first => ?_
    split at first <;> cases first <;> decide
  unfold AssignHead.of?
  simp only [run, filled, Bool.false_eq_true, if_false]
  rw [head, List.append_assoc, List.drop_left]
  cases assign.append <;> rfl

/-- A word is assigned as it is read. -/
theorem value_scalar {text : List Char} {word : RecipeLint.Word} {c : Char}
    (head : (text ++ back).head? = some c) (inside : c ∉ wordDelimiters)
    (reads : Reads rounds (Reading.word inner) pos text back word) :
    Reads rounds (Reading.value inner) pos text back (.scalar word) := by
  have closed : c ≠ '(' := fun same => inside (by rw [same]; decide)
  refine .current ?_
  rw [head, if_neg (by simpa using closed)]
  refine .cursor fun cursor shape => ?_
  rw [if_neg (by
    rw [Cursor.wordEndsAt, Cursor.peek, shape, ← List.head?_eq_getElem?, head]
    simpa using inside)]
  exact .bindLast reads (.pure _)

theorem value_reads {word : Option Word} (expands : 0 < word.elim 0 Word.levels →
    Expands rounds inner)
    (bounded : inner.rounds = rounds) (ends : EndsToken back) :
    Reads rounds (Reading.value inner) pos (valueForm word).text back
      ((valueForm word).tree pos) := by
  cases word with
  | none =>
      have outside : back.head? ≠ some '(' ∧ back.head?.all wordDelimiters.contains = true := by
        obtain ⟨c, head, member⟩ := ends
        have among : ∀ c ∈ [' ', '\n', ';'], c ≠ '(' ∧ c ∈ wordDelimiters := by decide
        rw [Option.mem_def.mp head]
        simpa using among c member
      refine .current ?_
      rw [valueForm, List.nil_append, if_neg outside.1]
      refine .cursor fun cursor shape => ?_
      rw [if_pos
        (by rw [Cursor.wordEndsAt, Cursor.peek, shape, ← List.head?_eq_getElem?]; exact outside.2)]
      exact .pure _
  | some word =>
      obtain ⟨c, rest, written, begins⟩ := word.exists_head
      have head : (word.form.text ++ back).head? = some c := by rw [written]; rfl
      exact value_scalar head (Word.head_not_mem begins (by decide))
        (word_reads expands bounded ends.endsWord)

theorem assign_reads {text : List Char} {value : Value}
    (valued : Reads rounds (Reading.value inner) (pos.along assign.head) text back value) :
    Reads rounds (Reading.assign inner
      { name := assign.name.chars, index := none, append := assign.append })
        pos (assign.head ++ text) back
      { pos, name := String.ofList assign.name.chars, index := none, append := assign.append,
        value } := by
  have header : Reads rounds (assignHead inner
      { name := assign.name.chars, index := none, append := assign.append }) pos assign.head
      (text ++ back) none := by
    have index : Reads rounds (assignIndex inner
        { name := assign.name.chars, index := none, append := assign.append })
        (pos.along assign.name.chars) []
        ((if assign.append then ['+', '='] else ['=']) ++ (text ++ back)) none :=
      .pure _
    refine .skip assign.name.chars
      (.bind index (.bindLast (show Reads _ _ _ _ _ () from ?_) (.pure _)))
    simp only [AssignHead.indexText, AssignHead.operator, Option.map_none, Option.getD_none,
      List.length_nil, Nat.zero_add]
    exact .skipped _
  exact .here (.bind header (.bindLast valued (.pure _)))

theorem exists_head (assign : Assign) : ∃ c rest, assign.head = c :: rest ∧
    isNameStart c = true := by
  obtain ⟨c, rest, shape, start⟩ := assign.name.exists_head
  refine ⟨c, rest ++ (if assign.append then ['+', '='] else ['=']), ?_, start⟩
  rw [head, shape]
  rfl

/-- The name is followed by the operator. -/
theorem exists_operator (assign : Assign) (back : List Char) :
    ∃ c tail, assign.head ++ back = assign.name.chars ++ c :: tail ∧ c ∈ ['+', '='] := by
  cases append : assign.append with
  | false => exact ⟨'=', back, by simp [head, append], by decide⟩
  | true => exact ⟨'+', '=' :: back, by simp [head, append], by decide⟩

theorem not_mem_of_mem_name (assign : Assign) {c : Char} (member : c ∈ assign.name.chars)
    {others : List Char} (none : ∀ d ∈ others, isNameChar d = false) : c ∉ others :=
      fun inside => by
  have named := assign.name.named
  rw [isName, Bool.and_eq_true, List.all_eq_true] at named
  simpa [none c inside] using named.2 c member

theorem unredirected (assign : Assign) (back : List Char) :
    RedirectHead.starting? (assign.head ++ back) = none := by
  obtain ⟨d, tail, written, operator⟩ := assign.exists_operator back
  have apart : ∀ c ∈ ['+', '='], Text.isDecimal c = false ∧ c ∉ ['<', '>', '&'] := by decide
  have stop : ∀ c ∈ (d :: tail).head?, Text.isDecimal c = false ∧ c ∉ ['<', '>', '&'] := by
    rintro c ⟨⟩
    exact apart d operator
  rw [written]
  refine RedirectHead.starting?_eq_none fun c found => ?_
  rcases head_drop_takeWhile (fun c first => (stop c first).1) c found with inside | first
  · exact assign.not_mem_of_mem_name inside (by decide)
  · exact (stop c first).2

/-- No keyword is recognised in front of an assignment. -/
theorem not_atWord (assign : Assign) {cursor : Cursor} (shape : cursor.rest = assign.head ++ back)
    {keyword : String} (member : keyword ∈ reserved) : cursor.atWord keyword = false := by
  obtain ⟨d, tail, written, operator⟩ := assign.exists_operator back
  have apart : ∀ c ∈ ['+', '='], c ∉ wordDelimiters ∧ ∀ keyword ∈ reserved,
      c ∉ keyword.toList := by decide
  have follows : ∀ c ∈ (d :: tail).head?, c ∉ keyword.toList := by
    rintro c ⟨⟩
    exact (apart d operator).2 keyword member
  rw [← Bool.not_eq_true, Cursor.atWord_iff (shape.trans written)
    (fun c inside => assign.not_mem_of_mem_name inside (by decide)) follows]
  rintro ⟨-, ended⟩
  exact (apart d operator).1 (by simpa using ended)

end Assign

theorem not_mem_of_isNameStart {c : Char} (start : isNameStart c = true) {others : List Char}
    (none : ∀ d ∈ others, isNameStart d = false) : c ∉ others := fun member => by
  simp [none c member] at start

/-- An assignment in front of the program is taken. -/
theorem callRound_assign {assign : Assign} (spaces : blank = [] ∨ blank = [' ']) {text : List Char}
    {value : Value} (first : draft.args = [])
    (valued : Reads rounds (Reading.value inner) ((pos.along blank).along assign.head)
      text back value) :
    Reads rounds (callRound inner start draft) pos (blank ++ (assign.head ++ text)) back
      (.again { draft with assigns :=
        { pos := pos.along blank, name := String.ofList assign.name.chars, index := none,
          append := assign.append, value } :: draft.assigns }) := by
  obtain ⟨c, rest, shape, begins⟩ := assign.exists_head
  have head : (assign.head ++ text ++ back).head? = some c := by rw [shape]; rfl
  have tight : isTight (assign.head ++ text ++ back) = true := by
    have other : c ∉ [' ', '\t', '\r', '\\'] := not_mem_of_isNameStart begins (by decide)
    rw [shape]
    simpa [isTight] using other
  have further : c ∉ commandEnds := not_mem_of_isNameStart begins (by decide)
  have closed : c ∉ ['('] := not_mem_of_isNameStart begins (by decide)
  refine .skipBlanks ⟨spaces, tight⟩ (.redirectAt ?_)
  rw [List.append_assoc, assign.unredirected]
  refine .current ?_
  rw [head]
  simp only [List.contains_iff_mem, if_neg further,
    if_neg (List.mem_singleton.not.mp closed), first, List.isEmpty_nil, if_true]
  refine .rest ?_
  rw [List.append_assoc, assign.head_append]
  exact .bindLast (Assign.assign_reads valued) (.pure _)

/-- A simple command is complete in front of what follows it. -/
theorem callRound_ends (ending : Ending) (filled : draft.args ≠ [] ∨ draft.assigns ≠ []) :
    Reads rounds (callRound inner start draft) pos ending.blank (ending.text ++ back)
      (.done (.ofDraft start (some (.call start draft.assigns.reverse draft.args.reverse))
        draft.redirects)) := by
  obtain ⟨c, rest, shape, member⟩ := ending.exists_head
  have among : ∀ c ∈ ['\n', '&', '|'], c ∈ commandEnds := by decide
  have some : (draft.args.isEmpty && draft.assigns.isEmpty) = false := by
    rw [← Bool.not_eq_true, Bool.and_eq_true, List.isEmpty_iff, List.isEmpty_iff]
    rintro ⟨noArgs, noAssigns⟩
    exact filled.elim (· noArgs) (· noAssigns)
  have skip : Reads rounds (callRound inner start draft) pos (ending.blank ++ [])
    (ending.text ++ back)
      (.done (.ofDraft start (.some (.call start draft.assigns.reverse draft.args.reverse))
        draft.redirects)) := by
    refine .skipBlanks (ending.blanks back) (.redirectAt ?_)
    rw [List.nil_append, ending.starting?_text]
    refine .current ?_
    rw [List.nil_append, shape, List.cons_append, List.head?_cons]
    simp only [List.contains_iff_mem, if_pos (among c member)]
    refine .bindLast ?_ (.pure _)
    rw [finishCall, some]
    exact .pure _
  rwa [List.append_nil] at skip

/-! ## Whole commands -/

theorem tokenEnds_of_endsToken (ends : EndsToken back) : ∀ c ∈ back.head?, c ∈ tokenEnds := by
  obtain ⟨c, head, member⟩ := ends
  have among : ∀ c ∈ [' ', '\n', ';'], c ∈ tokenEnds := by decide
  intro d first
  obtain rfl := Option.some.inj (head.symm.trans first)
  exact among c member

theorem foldl_args (words : List RecipeLint.Word) (draft : CallDraft) :
    words.foldl (fun draft word => { draft with args := word :: draft.args }) draft =
      { draft with args := words.reverse ++ draft.args } := by
  induction words generalizing draft with
  | nil => rfl
  | cons word words ih => rw [List.foldl_cons, ih]; simp

theorem foldl_assigns (assigns : List RecipeLint.Assign) (draft : CallDraft) :
    assigns.foldl (fun draft assign => { draft with assigns := assign :: draft.assigns }) draft =
      { draft with assigns := assigns.reverse ++ draft.assigns } := by
  induction assigns generalizing draft with
  | nil => rfl
  | cons assign assigns ih => rw [List.foldl_cons, ih]; simp

theorem endsToken_spaced {α β : Type} {form : α → Form β} {values : List α}
    (ends : EndsToken back) :
    EndsToken ((Form.sequence (values.map fun value => (form value).behind [' '])).text ++
      back) := by
  cases values with
  | nil => exact ends
  | cons value values => exact .blank _

/-- The arguments behind the first token, up to the end of the command. -/
theorem runs_args {words : List Word} (expands : ∀ word ∈ words, 0 < word.levels →
    Expands rounds inner)
    (bounded : inner.rounds = rounds) (ending : Ending) (filled : draft.args ≠ [] ∨
      draft.assigns ≠ []) :
    Runs rounds (callRound inner start) draft pos ((Call.spaced words).text ++ ending.blank)
      (ending.text ++ back)
      (.ofDraft start (some (.call start draft.assigns.reverse
        (draft.args.reverse ++ (Call.spaced words).tree pos))) draft.redirects) := by
  refine runs_sequence (fun draft word => { draft with args := word :: draft.args })
    (fun draft => draft.args ≠ [] ∨ draft.assigns ≠ []) EndsToken filled
    (fun _ _ _ => .inl (List.cons_ne_nil _ _)) ?_ ?_ ?_ ?_ ?_
  · intro form member
    obtain ⟨word, -, rfl⟩ := List.mem_map.mp member
    exact List.cons_ne_nil _ _
  · intro form member behind
    obtain ⟨word, -, rfl⟩ := List.mem_map.mp member
    exact .blank _
  · exact ending.endsToken back
  · intro form member draft pos behind some follow
    obtain ⟨word, inside, rfl⟩ := List.mem_map.mp member
    refine callRound_reads (.inr rfl) (expands word inside) bounded
      (tokenEnds_of_endsToken follow) ?_
    exact fun noArgs noAssigns => absurd noArgs (some.resolve_right (· noAssigns))
  · rw [foldl_args]
    refine .done ?_
    have ended : Reads rounds (callRound inner start
        { draft with args := ((Call.spaced words).tree pos).reverse ++ draft.args })
        (pos.along (Call.spaced words).text) ending.blank (ending.text ++ back) _ :=
      callRound_ends ending (filled.imp_left fun some => List.append_ne_nil_of_right_ne_nil _ some)
    rw [List.reverse_append, List.reverse_reverse] at ended
    exact ended

/-- The assignments and arguments behind the first assignment, up to the end of the command. -/
theorem runs_assigns {assigns : List Assign} {words : List Word}
    (expands : ∀ assign ∈ assigns, 0 < assign.levels → Expands rounds inner)
    (expandsWords : ∀ word ∈ words, 0 < word.levels → Expands rounds inner)
    (bounded : inner.rounds = rounds) (ending : Ending) (none : draft.args = [])
    (filled : draft.assigns ≠ []) :
    Runs rounds (callRound inner start) draft pos
      ((Form.sequence (assigns.map fun assign => assign.form.behind [' '])).text ++
        ((Call.spaced words).text ++ ending.blank)) (ending.text ++ back)
      (.ofDraft start (some (.call start (draft.assigns.reverse ++
        (Form.sequence (assigns.map fun assign => assign.form.behind [' '])).tree pos)
        ((Call.spaced words).tree (pos.along
          (Form.sequence (assigns.map fun assign => assign.form.behind [' '])).text))))
        draft.redirects) := by
  refine runs_sequence (fun draft assign => { draft with assigns := assign :: draft.assigns })
    (fun draft => draft.args = []) EndsToken none (fun _ _ kept => kept) ?_ ?_ ?_ ?_ ?_
  · intro form member
    obtain ⟨assign, -, rfl⟩ := List.mem_map.mp member
    exact List.cons_ne_nil _ _
  · intro form member behind
    obtain ⟨assign, -, rfl⟩ := List.mem_map.mp member
    exact .blank _
  · rw [List.append_assoc]
    exact endsToken_spaced (ending.endsToken back)
  · intro form member draft pos behind none follow
    obtain ⟨assign, inside, rfl⟩ := List.mem_map.mp member
    exact callRound_assign (.inr rfl)
      none (Assign.value_reads (expands assign inside) bounded follow)
  · rw [foldl_assigns]
    generalize Form.sequence (assigns.map fun assign => assign.form.behind [' ']) = further
    have some : (further.tree pos).reverse ++ draft.assigns ≠ [] :=
      List.append_ne_nil_of_right_ne_nil _ filled
    have args : Runs rounds (callRound inner start)
        { draft with assigns := (further.tree pos).reverse ++ draft.assigns }
        (pos.along further.text)
        ((Call.spaced words).text ++ ending.blank) (ending.text ++ back) _ :=
      runs_args expandsWords bounded ending (.inr some)
    rw [List.reverse_append, List.reverse_reverse, none] at args
    rw [none]
    exact args

/-- A canonical simple command is read up to what follows it. -/
theorem call_reads {call : Call} (expands : 0 < call.levels → Expands rounds inner)
    (bounded : inner.rounds = rounds) (ending : Ending) :
    Reads rounds (Reading.call inner pos) pos (call.form.text ++ ending.blank) (ending.text ++ back)
      (call.form.tree pos) := by
  obtain ⟨assigns, args, filled, ordinary⟩ := call
  have assignLevels : ∀ assign ∈ assigns, 0 < assign.levels → Expands rounds inner :=
    fun assign member positive => expands (Nat.lt_of_lt_of_le positive
      (le_foldr_max (List.mem_append_left _ (List.mem_map_of_mem member))))
  have wordLevels : ∀ word ∈ args, 0 < word.levels → Expands rounds inner :=
    fun word member positive => expands (Nat.lt_of_lt_of_le positive
      (le_foldr_max (List.mem_append_right _ (List.mem_map_of_mem member))))
  unfold Reading.call
  rw [bounded]
  refine Runs.iterate ?_
  cases assigns with
  | nil =>
      cases args with
      | nil => exact absurd rfl (filled.resolve_left (· rfl))
      | cons word words =>
          have follow :
              EndsToken ((Call.spaced words).text ++ (ending.blank ++ (ending.text ++ back))) :=
            endsToken_spaced (ending.endsToken back)
          rw [← List.append_assoc] at follow
          have first :
            Reads rounds (callRound inner pos { assigns := [], args := [], redirects := [] }) pos
              word.form.text _ _ :=
            callRound_reads (.inl rfl) (wordLevels word List.mem_cons_self) bounded
              (tokenEnds_of_endsToken follow) fun _ _ => ordinary word rfl
          have later : Runs rounds (callRound inner pos)
              { assigns := [], args := [word.form.tree pos], redirects := [] }
              (pos.along word.form.text)
              _ (ending.text ++ back) _ :=
            runs_args (fun word member => wordLevels word (List.mem_cons_of_mem _ member))
              bounded ending
              (.inl (List.cons_ne_nil _ _))
          have whole := Runs.again word.text_ne_nil first later
          rw [← List.append_assoc] at whole
          exact whole
  | cons assign assigns =>
      let further : Form (List RecipeLint.Assign) :=
        .sequence (assigns.map fun assign => assign.form.behind [' '])
      have follow : EndsToken (further.text ++ ((Call.spaced args).text ++ ending.blank) ++
          (ending.text ++ back)) := by
        rw [List.append_assoc, List.append_assoc]
        exact endsToken_spaced (endsToken_spaced (ending.endsToken back))
      have filled : assign.form.text ≠ [] := by
        obtain ⟨c, rest, shape, -⟩ := assign.exists_head
        rw [Assign.form, shape]
        exact List.cons_ne_nil _ _
      have first : Reads rounds (callRound inner pos { assigns := [], args := [], redirects := [] })
        pos
          assign.form.text _ _ :=
        callRound_assign (.inl rfl) rfl
          (Assign.value_reads (assignLevels assign List.mem_cons_self) bounded follow)
      have later : Runs rounds (callRound inner pos)
          { assigns := [assign.form.tree pos], args := [], redirects := [] }
          (pos.along assign.form.text)
          (further.text ++ ((Call.spaced args).text ++ ending.blank)) (ending.text ++ back) _ :=
        runs_assigns (fun assign member => assignLevels assign (List.mem_cons_of_mem _ member))
          wordLevels
          bounded ending rfl (List.cons_ne_nil _ _)
      have whole := Runs.again filled first later
      rw [Call.form, List.append_assoc, List.append_assoc]
      exact whole

end Canonical
end RecipeLint
