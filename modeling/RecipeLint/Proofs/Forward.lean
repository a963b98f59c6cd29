import RecipeLint.Proofs.Heads
import RecipeLint.Proofs.Running

/-!
# Reading a known text

What a reading does in front of a text whose beginning is known.  A loop is followed round by round;
it comes to its end if every round leaves less to read.  Literal characters are pushed one by one,
which amounts to pushing their text.
-/

namespace RecipeLint

variable {front back text : List Char}

namespace ReadState

theorem skip_rest {state : ReadState} (shape : state.cursor.rest = front ++ back) :
    (state.skip front.length).cursor.rest = back := by
  rw [skip_cursor, Cursor.advance_rest, shape, List.drop_left]

theorem skip_position {state : ReadState} (shape : state.cursor.rest = front ++ back) :
    (state.skip front.length).cursor.position = state.cursor.position.along front := by
  rw [skip_cursor, Cursor.advance_position, shape, List.take_left]

theorem skipBlanks_of_rest {state : ReadState} {count : Nat}
    (blanks : blankRun state.cursor.rest = count) : state.skipBlanks = state.skip count := by
  rw [← blanks]
  rfl

theorem skip_zero (state : ReadState) : state.skip 0 = state := rfl

end ReadState

/-- Whether no blank stands in front of a text. -/
def isTight (text : List Char) : Bool :=
  text.head?.all fun c => !([' ', '\t', '\r', '\\'].contains c)

theorem blankRun_of_isTight (tight : isTight text = true) : blankRun text = 0 := by
  cases text with
  | nil => rfl
  | cons c text =>
      simp only [isTight, List.head?_cons, Option.all_some, List.contains_eq_mem, Bool.not_eq_true',
        decide_eq_false_iff_not, List.mem_cons, List.not_mem_nil, or_false, not_or] at tight
      simp [blankRun, tight]

namespace ReadState

theorem skipBlanks_of_isTight {state : ReadState} (tight : isTight state.cursor.rest = true) :
    state.skipBlanks = state :=
  skipBlanks_of_rest (blankRun_of_isTight tight)

theorem skipBlanks_of_space {state : ReadState}
    (shape : state.cursor.rest = ' ' :: back) (tight : isTight back = true) :
    state.skipBlanks = state.skip 1 := by
  refine skipBlanks_of_rest ?_
  rw [shape, blankRun, blankRun_of_isTight tight]

end ReadState

theorem takeWhile_append_of_stop {p : Char → Bool}
    (all : ∀ c ∈ text, p c = true) (stop : ∀ c ∈ back.head?, p c = false) :
    (text ++ back).takeWhile p = text := by
  rw [List.takeWhile_append_of_pos all]
  cases back with
  | nil => simp
  | cons c back => simp [stop c rfl]

theorem nameRun_append (named : isName text = true)
    (stop : ∀ c ∈ back.head?, isNameChar c = false) : nameRun (text ++ back) = text := by
  rw [isName, Bool.and_eq_true, List.all_eq_true] at named
  obtain ⟨start, all⟩ := named
  have first : (text ++ back).head?.any isNameStart = true := by
    cases text with
    | nil => cases start
    | cons c text => exact start
  rw [nameRun, if_pos first, takeWhile_append_of_stop all stop]

/-- No text is recognised in front of one that starts differently. -/
theorem find?_isPrefixOf_eq_none {α : Type} {written : α → List Char} {values : List α}
    (other : ∀ value ∈ values, ∃ c, (written value).head? = some c ∧ text.head? ≠ some c) :
    values.find? (fun value => (written value).isPrefixOf text) = none := by
  rw [List.find?_eq_none]
  intro value member starts
  obtain ⟨c, first, apart⟩ := other value member
  obtain ⟨rest, rfl⟩ := front_of_isPrefixOf starts
  rw [List.head?_append, first] at apart
  exact apart rfl

theorem RedirectHead.starting?_eq_none
    (other : ∀ c ∈ (text.drop (text.takeWhile Text.isDecimal).length).head?, c ∉ ['<', '>', '&']) :
    starting? text = none := by
  have single : RedirectOp.of? (text.drop (text.takeWhile Text.isDecimal).length) = none := by
    refine find?_isPrefixOf_eq_none fun op member => ?_
    have angles : ∀ op ∈ [RedirectOp.hereDocTabs, .hereString, .hereDoc,
        .readWrite, .duplicateInput, .append, .duplicateOutput, .clobber, .input, .output],
        op.text.toList.head? = some '<' ∨ op.text.toList.head? = some '>' := by decide
    rcases angles op member with first | first
    · exact ⟨'<', first, fun found => other _ found (by decide)⟩
    · exact ⟨'>', first, fun found => other _ found (by decide)⟩
  have both : RedirectOp.both? text = none := by
    refine find?_isPrefixOf_eq_none fun op member => ⟨'&', ?_, fun found => ?_⟩
    · have ampersands : ∀ op ∈ [RedirectOp.appendBoth, .outputBoth],
          op.text.toList.head? = some '&' := by decide
      exact ampersands op member
    · obtain ⟨rest, rfl⟩ := List.head?_eq_some_iff.mp found
      have digit : Text.isDecimal '&' = false := by decide
      exact other '&' (by simp [digit]) (by decide)
  unfold starting? of?
  split
  · rfl
  · simp only [single, both]
    rfl

theorem AssignHead.of?_eq_none (other : ∀ c ∈ (text.drop (nameRun text).length).head?,
    c ∉ ['=', '+', '[']) :
    of? text = none := by
  unfold of?
  simp only
  split
  · rfl
  generalize text.drop (nameRun text).length = rest at other
  have index : index? rest = none := by
    unfold index?
    split
    · exact absurd (by decide) (other '[' rfl)
    · rfl
  have operator : operator? rest = none := by
    unfold operator?
    split
    next starts =>
      obtain ⟨rest, rfl⟩ := front_of_isPrefixOf starts
      exact absurd (by decide) (other '=' rfl)
    next =>
      split
      next starts =>
        obtain ⟨rest, rfl⟩ := front_of_isPrefixOf starts
        exact absurd (by decide) (other '+' rfl)
      next => rfl
  rw [index, operator]
  rfl

/-- A word stands at a cursor on its own if it is the text up to a character that it does not
contain, and that character ends a word. -/
theorem Cursor.atWord_iff {cursor : Cursor} {word : String}
    (shape : cursor.rest = text ++ back) (inside : ∀ c ∈ text, c ∉ wordDelimiters)
    (apart : ∀ c ∈ back.head?, c ∉ word.toList) :
    cursor.atWord word = true ↔
      word.toList = text ∧ back.head?.all wordDelimiters.contains = true := by
  have behind (front : List Char) : (front ++ back)[front.length]? = back.head? := by
    rw [List.getElem?_append_right (Nat.le_refl _), Nat.sub_self, List.head?_eq_getElem?]
  simp only [atWord, startsWith, wordEndsAt, peek, Bool.and_eq_true,
    List.isPrefixOf_iff_prefix, shape, ← String.length_toList]
  constructor
  · rintro ⟨⟨left, whole⟩, ends⟩
    rcases List.append_eq_append_iff.mp whole with ⟨more, rfl, -⟩ | ⟨more, longer, ahead⟩
    · cases more with
      | nil =>
          rw [List.append_nil, behind] at ends
          exact ⟨(List.append_nil _).symm, ends⟩
      | cons c more =>
          have final : c ∈ wordDelimiters := by simpa using ends
          exact absurd final (inside c (by simp))
    · cases more with
      | nil =>
          rw [List.append_nil] at longer
          rw [longer, behind] at ends
          exact ⟨longer, ends⟩
      | cons c more => exact absurd (by simp [longer]) (apart c (by rw [ahead]; rfl))
  · rintro ⟨rfl, ends⟩
    rw [behind]
    exact ⟨List.prefix_append .., ends⟩

namespace Pieces

theorem push_push (pieces : Pieces) (pos pos' : Position) (c : Char) (text : List Char) :
    (pieces.push pos [c]).push pos' text = pieces.push pos (c :: text) := by
  simp [push]

end Pieces

namespace Reading

variable {α β : Type} {step : α → Reading (Round α β)}

/-- A loop that comes to its end, each of its rounds leaving less to read. -/
inductive Loops (step : α → Reading (Round α β)) : α → ReadState → β → ReadState → Prop
  | done {value : α} {state : ReadState} {result : β} {after : ReadState}
      (run : step value state = .ok (.done result, after)) : Loops step value state result after
  | again {value next : α} {state middle : ReadState} {result : β} {after : ReadState}
      (run : step value state = .ok (.again next, middle))
      (shorter : middle.cursor.rest.length < state.cursor.rest.length)
      (later : Loops step next middle result after) : Loops step value state result after

/-- With more rounds than characters the loop ends as it does. -/
theorem Loops.iterate {value : α} {state : ReadState} {result : β} {after : ReadState}
    (loops : Loops step value state result after) {rounds : Nat}
    (enough : state.cursor.rest.length < rounds) :
    Reading.iterate step rounds value state = .ok (result, after) := by
  induction loops generalizing rounds with
  | done run =>
      obtain ⟨rounds, rfl⟩ :=
        Nat.exists_eq_add_one_of_ne_zero (Nat.ne_of_gt (Nat.zero_lt_of_lt enough))
      exact iterate_done run rounds
  | again run shorter _ ih =>
      obtain ⟨rounds, rfl⟩ :=
        Nat.exists_eq_add_one_of_ne_zero (Nat.ne_of_gt (Nat.zero_lt_of_lt enough))
      rw [iterate_again run]
      exact ih (by omega)

/-- A round that moves past some text in front of the cursor. -/
theorem Loops.past {value next : α} {state : ReadState} {result : β}
    {after : ReadState} (shape : state.cursor.rest = front ++ back) (filled : front ≠ [])
    (run : step value state = .ok (.again next, state.skip front.length))
    (later : Loops step next (state.skip front.length) result after) :
    Loops step value state result after := by
  refine .again run ?_ later
  have := List.length_pos_iff.mpr filled
  rw [ReadState.skip_rest shape, shape, List.length_append]
  omega

/-- Rounds that push literal characters one by one push their text. -/
theorem Loops.literal {step : Pieces → Reading (Round Pieces (List Part))} {plain : Char → Prop}
    (pushes : ∀ (pieces : Pieces) (state : ReadState) c text, state.cursor.rest = c :: text →
      plain c →
      step pieces state = .ok (.again (pieces.push state.cursor.position [c]), state.skip 1))
    (filled : text ≠ []) (all : ∀ c ∈ text, plain c) {pieces : Pieces}
    {state after : ReadState} {result : List Part} (shape : state.cursor.rest = text ++ back)
    (later : Loops step (pieces.push state.cursor.position text) (state.skip text.length)
      result after) :
    Loops step pieces state result after := by
  induction text generalizing pieces state with
  | nil => exact absurd rfl filled
  | cons c text ih =>
      have first := pushes pieces state c (text ++ back) shape (all c (by simp))
      have split : state.cursor.rest = [c] ++ (text ++ back) := shape
      refine .past split (by simp) first ?_
      cases text with
      | nil => exact later
      | cons d text =>
          refine ih (by simp) (fun e member => all e (List.mem_cons_of_mem c member))
            (ReadState.skip_rest split) ?_
          rw [Pieces.push_push, ← ReadState.skip_add]
          rw [List.length_cons, Nat.add_comm] at later
          exact later

end Reading

/-! ## Words -/

/-- Whether a character of an unquoted word stands for itself. -/
def isPlain (c : Char) : Bool :=
  !(['\\', '?', '*', '+', '@', '!', '\'', '"', '\x60', '$'] ++ wordDelimiters).contains c

theorem isPlain_of_isNameChar {c : Char} (part : isNameChar c = true) : isPlain c = true := by
  have none : ∀ d ∈ ['\\', '?', '*', '+', '@', '!', '\'', '"', '\x60', '$'] ++ wordDelimiters,
      isNameChar d = false := by decide
  rw [isPlain, Bool.not_eq_true', ← Bool.not_eq_true, List.contains_iff_mem]
  intro special
  simp [none c special] at part

/-- Whether a word ends in front of a text in which no redirection starts. -/
def endsWord (text : List Char) : Bool :=
  text.head?.all [' ', '\t', '\r', '\n', ';', '&', '|', '(', ')'].contains

namespace Reading

variable {inner : Inner} {state after : ReadState} {pieces : Pieces}

theorem wordRound_plain (pieces : Pieces) (state : ReadState) (c : Char) (text : List Char)
    (shape : state.cursor.rest = c :: text) (plain : isPlain c = true) :
    wordRound inner wordDelimiters pieces state =
      .ok (.again (pieces.push state.cursor.position [c]), state.skip 1) := by
  simp only [isPlain, wordDelimiters, List.contains_eq_mem, Bool.not_eq_true',
    decide_eq_false_iff_not,
    List.mem_append, List.mem_cons, List.not_mem_nil, or_false, not_or] at plain
  simp only [wordRound, here_bind, rest_bind, shape]
  simp [plain, wordDelimiters]

theorem wordRound_ends (ends : endsWord state.cursor.rest = true) :
    wordRound inner wordDelimiters pieces state = .ok (.done pieces.finish, state) := by
  simp only [wordRound, here_bind, rest_bind]
  cases shape : state.cursor.rest with
  | nil => rfl
  | cons c text =>
      simp only [endsWord, shape, List.head?_cons, Option.all_some, List.contains_eq_mem,
        decide_eq_true_eq, List.mem_cons, List.not_mem_nil, or_false] at ends
      rcases ends with rfl | rfl | rfl | rfl | rfl | rfl | rfl | rfl | rfl <;> rfl

/-- A word is what its loop comes to, unless that is nothing. -/
theorem word_of_loops {parts : List Part}
    (loops : Loops (wordRound inner wordDelimiters) (.empty state.cursor.position)
      state parts after)
    (filled : parts ≠ []) (enough : state.cursor.rest.length < inner.rounds) :
    word inner state = .ok (⟨state.cursor.position, parts⟩, after) := by
  simp only [word, wordUpTo, here_bind]
  rw [bind_ok (loops.iterate enough)]
  simp [filled]

theorem singleEnd?_of_not_mem (absent : '\'' ∉ text) (length : Nat) (back : List Char) :
    singleEnd? false length (text ++ '\'' :: back) = some (length + text.length) := by
  induction text generalizing length with
  | nil => rfl
  | cons c text ih =>
      have other : c ≠ '\'' := fun same => absent (by simp [same])
      have later := ih (fun member => absent (List.mem_cons_of_mem c member)) (length + 1)
      have step (rest : List Char) :
          singleEnd? false length (c :: rest) = singleEnd? false (length + 1) rest := by
        by_cases escaped : c = '\\'
        · subst escaped
          cases rest <;> simp [singleEnd?]
        · simp [singleEnd?, escaped]
      rw [List.cons_append, step, later, List.length_cons]
      congr 1
      omega

theorem singleQuoted_reads (absent : '\'' ∉ text)
    (shape : state.cursor.rest = '\'' :: text ++ ['\''] ++ back) (pos : Position) :
    singleQuoted pos false state =
      .ok (.single pos (String.ofList text) false, state.skip ('\'' :: text ++ ['\'']).length) := by
  have opened : (state.skip 1).cursor.rest = text ++ '\'' :: back := by
    rw [ReadState.skip_cursor, Cursor.advance_rest, shape]
    simp
  simp only [singleQuoted, here_bind, skip_bind, rest_bind, opened,
    singleEnd?_of_not_mem absent, pure_apply, Nat.zero_add, List.take_left, ← ReadState.skip_add]
  simp only [List.length_append, List.length_cons, List.length_nil]
  congr 3
  omega

theorem wordRound_single (absent : '\'' ∉ text)
    (shape : state.cursor.rest = '\'' :: text ++ ['\''] ++ back) :
    wordRound inner wordDelimiters pieces state =
      .ok (.again (pieces.add (.single state.cursor.position (String.ofList text) false)),
        state.skip ('\'' :: text ++ ['\'']).length) := by
  have quoted := singleQuoted_reads absent shape state.cursor.position
  simp only [wordRound, here_bind, rest_bind, shape, List.cons_append]
  rw [if_neg (by decide), if_neg (by simp), if_neg (by decide), if_neg (by simp), if_pos trivial,
    bind_ok quoted]
  rfl

/-- The characters behind a word. -/
theorem mem_of_endsWord (ends : endsWord text = true) :
    ∀ c ∈ text.head?, c ∈ [' ', '\t', '\r', '\n', ';', '&', '|', '(', ')'] := by
  intro c head
  rw [endsWord, Option.mem_def.mp head, Option.all_some, List.contains_iff_mem] at ends
  exact ends

theorem word_literal (shape : state.cursor.rest = text ++ back)
    (filled : text ≠ []) (plain : ∀ c ∈ text, isPlain c = true) (ends : endsWord back = true)
    (enough : state.cursor.rest.length < inner.rounds) :
    word inner state = .ok (⟨state.cursor.position,
      [.literal state.cursor.position (String.ofList text)]⟩, state.skip text.length) := by
  refine word_of_loops (.literal wordRound_plain filled plain shape (.done ?_)) (by simp) enough
  rw [wordRound_ends (by rwa [ReadState.skip_rest shape])]
  simp [Pieces.finish, Pieces.flush, Pieces.push, Pieces.empty, filled]

theorem quotedRound_plain (stop : Option Char) (pieces : Pieces) (state : ReadState) (c : Char)
    (text : List Char) (shape : state.cursor.rest = c :: text)
    (plain : c ∉ ['\\', '\x60', '$'] ∧ stop ≠ some c) :
    quotedRound inner stop pieces state =
      .ok (.again (pieces.push state.cursor.position [c]), state.skip 1) := by
  simp only [List.mem_cons, List.not_mem_nil, or_false, not_or] at plain
  simp only [quotedRound, here_bind, rest_bind, shape]
  simp [plain]

theorem quotedRound_ends (ended : state.cursor.rest = []) (stop : Option Char) :
    quotedRound inner stop pieces state = .ok (.done pieces.finish, state) := by
  simp only [quotedRound, here_bind, rest_bind, ended]
  rfl

/-- A text without special characters is a single literal. -/
theorem inlineWord_literal (plain : ∀ c ∈ text, c ∉ ['\\', '\x60', '$'])
    (pos : Position) (enough : text.length < inner.rounds) :
    inlineWord inner text pos state =
      .ok (⟨pos, if text = [] then [] else [.literal pos (String.ofList text)]⟩, state) := by
  have parts : quotedParts inner none (.ofText text pos) = .ok (if text = [] then []
      else [.literal pos (String.ofList text)], (ReadState.ofText text pos).skip text.length) := by
    unfold quotedParts
    rw [here_bind]
    refine Loops.iterate ?_ enough
    split
    next empty =>
      subst empty
      exact .done (quotedRound_ends rfl none)
    next filled =>
      have shape : (ReadState.ofText text pos).cursor.rest = text ++ [] :=
        (List.append_nil text).symm
      refine .literal (quotedRound_plain none)
        filled (fun c member => ⟨plain c member, nofun⟩) shape
        (.done ?_)
      rw [quotedRound_ends (ReadState.skip_rest shape)]
      simp [Pieces.finish, Pieces.flush, Pieces.push, Pieces.empty, filled,
        ReadState.ofText, Cursor.ofText]
  have read : within text pos (quotedParts inner none) state =
      .ok ((if text = [] then [] else [.literal pos (String.ofList text)], []), state) := by
    unfold within
    rw [parts]
    rfl
  unfold inlineWord
  rw [bind_ok read]
  split <;> rfl

/-! ## Simple commands -/

/-- A word of a simple command that is no keyword. -/
theorem callRound_word {pos : Position} {draft : CallDraft} {read : Word} {c : Char}
    {start : ReadState}
    (blanks : state.skipBlanks = start)
    (unredirected : RedirectHead.starting? start.cursor.rest = none)
    (head : start.cursor.rest.head? = some c) (further : c ∉ commandEnds) (closed : c ≠ '(')
    (unassigned : draft.args = [] → AssignHead.of? start.cursor.rest = none)
    (run : word inner start = .ok (read, after))
    (ordinary : draft.args = [] → draft.assigns = [] → ∀ text ∈ read.literal?,
      Declarator.of? text = none ∧ text ≠ "let") :
    callRound inner pos draft state =
      .ok (.again { draft with args := read :: draft.args }, after) := by
  have taken : callWord inner pos draft start =
      .ok (.again { draft with args := read :: draft.args }, after) := by
    unfold callWord
    rw [bind_ok run]
    by_cases first : draft.args = [] ∧ draft.assigns = []
    · have keyword := ordinary first.1 first.2
      simp only [first, List.isEmpty_nil, Bool.and_self, if_true]
      cases literal : read.literal? with
      | none => rfl
      | some text =>
          obtain ⟨declarator, evaluation⟩ := keyword text literal
          simp [declarator, evaluation]
    · have later : (draft.args.isEmpty && draft.assigns.isEmpty) = false := by
        simpa [← Bool.not_eq_true] using first
      simp [later]
  unfold callRound
  rw [skipBlanks_bind, blanks, redirectAt_bind, unredirected]
  simp only [current_bind, head, List.contains_iff_mem, if_neg further, if_neg closed]
  split
  next first =>
    rw [rest_bind, unassigned (List.isEmpty_iff.mp first)]
    exact taken
  next => exact taken

/-! ## Statements -/

variable {stmt result : Stmt} {middle : ReadState} {items : List Item} {stops : List String}

/-- Whether the command at a cursor is a simple one. -/
def startsCall (cursor : Cursor) : Bool :=
  cursor.rest.head? != some '(' && compoundWords.all fun word => !cursor.atWord word

theorem compound?_of_startsCall (simple : startsCall state.cursor = true) :
    compound? inner state = .ok (none, state) := by
  simp only [startsCall, Bool.and_eq_true, bne_iff_ne, ne_eq, List.all_eq_true,
    Bool.not_eq_true'] at simple
  obtain ⟨open', words⟩ := simple
  have double : state.cursor.startsWith "((" = false := by
    rw [← Bool.not_eq_true]
    intro starts
    obtain ⟨rest, shape⟩ := Cursor.rest_of_startsWith starts
    exact open' (by rw [shape]; rfl)
  have none : compoundWords.find? state.cursor.atWord = none := by
    rw [List.find?_eq_none]
    intro word member
    simp [words word member]
  unfold compound?
  rw [cursor_bind, double, none, Cursor.current]
  simp [open']

theorem command_of_call (tight : isTight state.cursor.rest = true)
    (simple : startsCall state.cursor = true) :
    command inner state = call inner state.cursor.position state := by
  unfold command
  simp only [skipBlanks_bind, ReadState.skipBlanks_of_isTight tight, here_bind]
  rw [bind_ok (compound?_of_startsCall simple)]

theorem pipelineRound_done (none : Connective.pipe? state.skipBlanks.cursor.rest = none) :
    pipelineRound inner stmt state = .ok (.done stmt, state.skipBlanks) := by
  unfold pipelineRound
  rw [skipBlanks_bind, rest_bind, none]
  rfl

theorem logicRound_done (none : Connective.logical? state.skipBlanks.cursor.rest = none) :
    logicRound inner stmt state = .ok (.done stmt, state.skipBlanks) := by
  unfold logicRound
  rw [skipBlanks_bind, rest_bind, none]
  rfl

theorem pipes_of_loops (first : command inner state = .ok (stmt, middle))
    (loops : Loops (pipelineRound inner) stmt middle result after)
    (enough : middle.cursor.rest.length < inner.rounds) :
    pipes inner state = .ok (result, after) := by
  unfold pipes
  rw [bind_ok first, loops.iterate enough]

theorem pipeline_of_pipes (tight : isTight state.cursor.rest = true)
    (plain : negates state.cursor.rest = false) : pipeline inner state = pipes inner state := by
  unfold pipeline
  simp only [skipBlanks_bind, ReadState.skipBlanks_of_isTight tight, here_bind, rest_bind, plain]
  rfl

theorem logic_of_loops (first : pipeline inner state = .ok (stmt, middle))
    (loops : Loops (logicRound inner) stmt middle result after)
    (enough : middle.cursor.rest.length < inner.rounds) :
    logic inner state = .ok (result, after) := by
  unfold logic
  rw [bind_ok first, loops.iterate enough]

theorem takeComments_idle (quiet : state.comments = []) :
    takeComments items state = .ok (items, state) := by
  obtain ⟨cursor, awaited, bodies, comments, seen⟩ := state
  obtain rfl := quiet
  rfl

theorem statement_of_logic {background : Bool} {final : ReadState}
    (read : logic inner state = .ok (stmt, after)) (quiet : after.comments = [])
    (ended : statementEnd after = .ok (background, final)) :
    statement inner items state = .ok (.stmt { stmt with background } :: items, final) := by
  unfold statement
  rw [bind_ok read, bind_ok (takeComments_idle quiet), bind_ok ended]
  rfl

theorem statementEnd_newline (shape : state.cursor.rest = '\n' :: back) :
    statementEnd state = .ok (false, state) := by
  have blanks : state.skipBlanks = state := ReadState.skipBlanks_of_isTight (by rw [shape]; rfl)
  have other : closesCaseItem ('\n' :: back) = false := rfl
  unfold statementEnd
  simp only [skipBlanks_bind, blanks, rest_bind, current_bind, shape, other, Bool.false_eq_true,
    if_false, List.head?_cons]
  rfl

theorem statementRound_of_newline (quiet : state.comments = [])
    (shape : state.cursor.rest = '\n' :: back) (read : newline inner state = .ok ((), after)) :
    statementRound inner stops items state = .ok (.again items, after) := by
  have other : closesCaseItem ('\n' :: back) = false := rfl
  unfold statementRound
  rw [skipBlanks_bind, ReadState.skipBlanks_of_isTight (by rw [shape]; rfl),
    bind_ok (takeComments_idle quiet)]
  simp only [rest_bind, shape, other, Bool.false_eq_true, if_false, current_bind, List.head?_cons]
  exact bind_ok read

/-- Whether a statement starts at a cursor. -/
def startsStatement (cursor : Cursor) : Bool :=
  !closesCaseItem cursor.rest && cursor.rest.head?.any (fun c => !(['\n', '#', ')'].contains c)) &&
    listTerminators.all fun word => !cursor.atWord word

theorem statementRound_statement (tight : isTight state.cursor.rest = true)
    (quiet : state.comments = []) (starts : startsStatement state.cursor = true) :
    statementRound inner stops items state =
      (statement inner items >>= fun items => pure (.again items)) state := by
  simp only [startsStatement, Bool.and_eq_true, Bool.not_eq_true', List.all_eq_true,
    Option.any_eq_true] at starts
  obtain ⟨⟨closes, c, head, ordinary⟩, words⟩ := starts
  have none : listTerminators.find? state.cursor.atWord = none := by
    rw [List.find?_eq_none]
    intro word member
    simp [words word member]
  unfold statementRound
  rw [skipBlanks_bind, ReadState.skipBlanks_of_isTight tight, bind_ok (takeComments_idle quiet)]
  simp only [rest_bind, closes, Bool.false_eq_true, if_false, current_bind]
  generalize state.cursor.rest.head? = next at head ⊢
  split
  case h_5 =>
    rw [wordAt_bind, none]
  all_goals cases head
  all_goals exact absurd ordinary (by decide)

end Reading
end RecipeLint
