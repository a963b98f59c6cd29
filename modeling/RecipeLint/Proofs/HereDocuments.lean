import Mathlib.Algebra.GroupWithZero.Nat
import Mathlib.Data.List.DropRight
import RecipeLint.Proofs.Forward
import RecipeLint.Proofs.Lines
import RecipeLint.Proofs.Termination

/-!
# Here-documents

Any number of here-documents that one command announces.  Their lines follow the line of the command
in the order of the announcements, and every redirection receives its own lines, exactly as they are
written.  What follows the last of them is read as if it stood alone.
-/

namespace RecipeLint

/-- A here-document as it is written: how it is announced, and its lines. -/
structure Document where
  /-- Whether tabs in front of the closing line are ignored. -/
  tabs : Bool
  /-- Whether the delimiter is announced in single quotes. -/
  quoted : Bool
  /-- The line that closes it. -/
  delimiter : List Char
  /-- The lines in front of that line. -/
  lines : List (List Char)
  named : isName delimiter = true
  single : ∀ line ∈ lines, '\n' ∉ line
  further : ∀ line ∈ lines,
    (if tabs then line.dropWhile (· = '\t') else line).rdropWhile (· = '\r') ≠ delimiter
  plain : quoted = false → ∀ line ∈ lines, '$' ∉ line ∧ '\x60' ∉ line ∧ '\\' ∉ line

namespace Document

/-- The operator of the redirection. -/
def op (document : Document) : RedirectOp :=
  if document.tabs then .hereDocTabs else .hereDoc

/-- The delimiter as it is announced. -/
def word (document : Document) : List Char :=
  if document.quoted then '\'' :: document.delimiter ++ ['\''] else document.delimiter

/-- The redirection with the blank in front of it. -/
def announcement (document : Document) : List Char :=
  ' ' :: document.op.text.toList ++ document.word

/-- The lines, each with its newline. -/
def text (document : Document) : List Char :=
  document.lines.flatMap (· ++ ['\n'])

/-- The lines and the line that closes them. -/
def block (document : Document) : List Char :=
  document.text ++ document.delimiter ++ ['\n']

/-- The number of lines, with the closing one. -/
def height (document : Document) : Nat :=
  document.lines.length + 1

/-- A command that announces here-documents, and their lines. -/
def script (documents : List Document) : List Char :=
  ['c', 'a', 't'] ++ documents.flatMap announcement ++ '\n' :: documents.flatMap block

/-- The word of the redirection at a position. -/
def target (document : Document) (pos : Position) : Word :=
  { pos
    parts := [if document.quoted then .single pos (String.ofList document.delimiter) false
      else .literal pos (String.ofList document.delimiter)] }

/-- The lines as a word at a position. -/
def body (document : Document) (pos : Position) : Word :=
  { pos
    parts := if document.quoted = false ∧ document.lines = [] then []
      else [.literal pos (String.ofList document.text)] }

/-- A here-document with the places of its redirection and of its lines. -/
structure Site where
  document : Document
  pos : Position
  /-- The line at which its lines start. -/
  line : Int

namespace Site

/-- The redirection before its lines are read. -/
def announced (site : Site) : Redirect :=
  { pos := site.pos
    op := site.document.op
    fd := none
    target := site.document.target (site.pos.right site.document.op.text.length)
    body := none }

/-- The redirection with its lines. -/
def redirect (site : Site) : Redirect :=
  { site.announced with body := some (site.document.body ⟨site.line, 1⟩) }

/-- What is kept of the redirection until its lines are read. -/
def awaited (site : Site) : Awaited :=
  { pos := site.pos
    tabs := site.document.tabs
    delimiter := site.document.delimiter
    quoted := site.document.quoted }

/-- What is kept of the lines that have been read. -/
def entry (site : Site) : Position × Word :=
  (site.pos, site.document.body ⟨site.line, 1⟩)

end Site

/-- The places of here-documents that are announced behind a position, and whose lines start at a
line. -/
def sites (pos : Position) (line : Int) : List Document → List Site
  | [] => []
  | document :: documents =>
      ⟨document, pos.right 1, line⟩ ::
        sites (pos.right document.announcement.length) (line + document.height) documents

/-- The command that announces here-documents, as it is read. -/
def statement (documents : List Document) : Stmt :=
  { pos := .start
    command := some (.call .start [] [⟨.start, [.literal .start "cat"]⟩])
    redirects := (sites ⟨1, 4⟩ 2 documents).map Site.redirect
    negated := false
    background := false }

/-- The command before the lines of its here-documents are read. -/
def unread (documents : List Document) : Stmt :=
  .ofDraft .start (some (.call .start [] [⟨.start, [.literal .start "cat"]⟩]))
    ((sites ⟨1, 4⟩ 2 documents).map Site.announced).reverse

/-- The lines of the here-documents of a command, the last one first. -/
def entries (documents : List Document) : Bodies :=
  ((sites ⟨1, 4⟩ 2 documents).map Site.entry).reverse

/-! ## The command -/

section Command

open Reading ReadState

variable {document : Document} {documents : List Document} {inner : Inner} {state : ReadState}
  {back : List Char}

theorem isNameChar_of_mem {c : Char} (member : c ∈ document.delimiter) : isNameChar c = true := by
  have named := document.named
  rw [isName, Bool.and_eq_true, List.all_eq_true] at named
  exact named.2 c member

theorem delimiter_ne_nil (document : Document) : document.delimiter ≠ [] := by
  intro empty
  have named := document.named
  rw [empty] at named
  cases named

/-- The announced delimiter starts with a quote or a name. -/
theorem word_head (document : Document) :
    ∃ c rest, document.word = c :: rest ∧ (c = '\'' ∨ isNameChar c = true) := by
  unfold word
  split
  · exact ⟨'\'', _, rfl, .inl rfl⟩
  · obtain ⟨c, rest, shape⟩ := List.exists_cons_of_ne_nil document.delimiter_ne_nil
    exact ⟨c, rest, shape, .inr (isNameChar_of_mem (shape ▸ List.mem_cons_self))⟩

theorem word_reads (shape : state.cursor.rest = document.word ++ back) (ends : endsWord back = true)
    (enough : state.cursor.rest.length < inner.rounds) :
    Reading.word inner state =
      .ok (document.target state.cursor.position, state.skip document.word.length) := by
  unfold word at shape ⊢
  unfold target
  cases quoted : document.quoted with
  | false =>
      simp only [quoted, Bool.false_eq_true, if_false] at shape ⊢
      exact word_literal shape document.delimiter_ne_nil
        (fun c member => isPlain_of_isNameChar (isNameChar_of_mem member)) ends enough
  | true =>
      have absent : '\'' ∉ document.delimiter := fun member => by
        cases isNameChar_of_mem member
      simp only [quoted, if_true] at shape ⊢
      refine word_of_loops (.past shape (by simp) (wordRound_single absent shape) (.done ?_))
        (by simp) enough
      rw [wordRound_ends (by rwa [skip_rest shape])]
      rfl

theorem starting?_announced (document : Document) (back : List Char) :
    RedirectHead.starting? (document.op.text.toList ++ document.word ++ back) =
      some ⟨some [], document.op⟩ := by
  obtain ⟨c, rest, shape, head⟩ := document.word_head
  have dash : c ≠ '-' := by
    rintro rfl
    simp [isNameChar] at head
  have angle : c ≠ '<' := by
    rintro rfl
    simp [isNameChar] at head
  have digit : Text.isDecimal '<' = false := by decide
  rw [shape, op]
  cases document.tabs with
  | true => simp [RedirectHead.starting?, RedirectHead.of?, RedirectOp.of?, RedirectOp.text, digit]
  | false =>
      simp [RedirectHead.starting?, RedirectHead.of?, RedirectOp.of?, RedirectOp.text, digit,
        dash.symm, angle.symm]

theorem isTight_word (document : Document) (back : List Char) :
    isTight (document.word ++ back) = true := by
  obtain ⟨c, rest, shape, rfl | head⟩ := document.word_head
  · rw [shape]
    rfl
  · have plain := isPlain_of_isNameChar head
    rw [shape]
    simp only [isPlain, wordDelimiters, List.contains_eq_mem, Bool.not_eq_true',
      decide_eq_false_iff_not, List.mem_append, List.mem_cons, List.not_mem_nil, or_false,
      not_or] at plain
    simp [isTight, plain]

theorem ofRedirect_announced (site : Site) : Awaited.ofRedirect site.announced = site.awaited := by
  have kept : site.document.delimiter.filter (· ≠ '\\') = site.document.delimiter := by
    rw [List.filter_eq_self]
    rintro c member
    simp only [decide_eq_true_eq]
    rintro rfl
    cases isNameChar_of_mem member
  have bare : '\\' ∉ site.document.delimiter := fun member => by
    cases isNameChar_of_mem member
  have tabs : site.document.op = .hereDocTabs ↔ site.document.tabs = true := by
    rw [op]
    cases site.document.tabs <;> decide
  simp only [Awaited.ofRedirect, Site.announced, Site.awaited, target, List.map_cons, List.map_nil,
    List.flatMap_cons, List.flatMap_nil, List.append_nil, List.any_cons,
    List.any_nil, Bool.or_false,
    tabs, Bool.decide_eq_true]
  cases site.document.quoted with
  | true => simp [Part.delimiter]
  | false =>
      simp only [ne_eq, decide_not] at kept
      simp [Part.delimiter, kept, bare]

theorem redirect_reads {site : Site} (here : state.cursor.position = site.pos)
    (shape : state.cursor.rest = site.document.op.text.toList ++ site.document.word ++ back)
    (ends : endsWord back = true) (enough : state.cursor.rest.length < inner.rounds) :
    Reading.redirect inner ⟨some [], site.document.op⟩ state =
      .ok (site.announced,
        { state.skip (site.document.op.text.toList ++ site.document.word).length with
          awaited := state.awaited ++ [site.awaited] }) := by
  have plain : '\n' ∉ site.document.op.text.toList := by
    rw [op]
    split <;> decide
  rw [List.append_assoc] at shape
  have opened := skip_rest shape
  have moved := skip_position shape
  have blanks := skipBlanks_of_isTight (opened ▸ site.document.isTight_word back)
  have started : ¬((state.skip site.document.op.text.toList.length).cursor.rest.head?.all
      ['\n', ';', '&', '|', ')'].contains) = true := by
    obtain ⟨c, rest, shape, head⟩ := site.document.word_head
    have other : ∀ d ∈ ['\n', ';', '&', '|', ')'], d ≠ '\'' ∧ isNameChar d = false := by decide
    rw [opened, shape, List.cons_append, List.head?_cons, Option.all_some, List.contains_iff_mem]
    intro member
    obtain ⟨quote, name⟩ := other c member
    simp [quote, name] at head
  have fewer : (state.skip site.document.op.text.toList.length).cursor.rest.length <
      inner.rounds := by
    rw [opened]
    rw [shape, List.length_append] at enough
    omega
  have takes : site.document.op.takesBody = true := by
    rw [op]
    cases site.document.tabs <;> rfl
  have word := word_reads opened ends fewer
  unfold Reading.redirect
  simp only [RedirectHead.text, Option.getD_some, List.nil_append, here_bind, skip_bind,
    skipBlanks_bind, current_bind]
  rw [blanks, if_neg started, bind_ok word, moved, Position.along_plain plain, here,
    String.length_toList, await, if_pos takes]
  simp only [modify_bind, pure_apply, List.length_append, String.length_toList, skip_add]
  rw [← ofRedirect_announced]
  rfl

theorem announcement_plain (document : Document) : '\n' ∉ document.announcement := by
  have operator : '\n' ∉ document.op.text.toList := by
    rw [op]
    split <;> decide
  have delimiter : '\n' ∉ document.delimiter := fun member => by
    cases isNameChar_of_mem member
  have word : '\n' ∉ document.word := by
    unfold word
    split <;> simp [delimiter]
  simp [announcement, operator, word]

/-- An announcement is one round of reading a command. -/
theorem callRound_reads {site : Site} {pos : Position} (draft : CallDraft)
    (here : state.cursor.position.right 1 = site.pos)
    (shape : state.cursor.rest = site.document.announcement ++ back) (ends : endsWord back = true)
    (enough : state.cursor.rest.length < inner.rounds) :
    callRound inner pos draft state =
      .ok (.again { draft with redirects := site.announced :: draft.redirects },
        { state.skip site.document.announcement.length with
          awaited := state.awaited ++ [site.awaited] }) := by
  have shape' : state.cursor.rest =
      [' '] ++ (site.document.op.text.toList ++ site.document.word ++ back) := by
    rw [shape, announcement]
    simp
  have opened := skip_rest shape'
  have moved := skip_position shape'
  have tight : isTight (site.document.op.text.toList ++ site.document.word ++ back) = true := by
    rw [op]
    split <;> rfl
  have blanks := skipBlanks_of_space shape' tight
  have started := site.document.starting?_announced back
  have redirect : Reading.redirect inner ⟨some [], site.document.op⟩ (state.skip 1) = _ :=
    redirect_reads (by rw [← here]; exact moved) opened ends (by
      rw [show (state.skip 1).cursor.rest = _ from opened]
      rw [shape', List.length_append] at enough
      omega)
  unfold callRound
  rw [skipBlanks_bind, blanks, redirectAt_bind, show (state.skip 1).cursor.rest = _ from opened,
    started]
  simp only
  rw [bind_ok redirect]
  simp only [pure_apply, announcement, List.cons_append, List.length_cons, Nat.add_comm _ 1,
    skip_add]
  rfl

/-- The round in which a newline ends a command with a program. -/
theorem callRound_newline {pos : Position} {draft : CallDraft} (filled : draft.args ≠ [])
    (shape : state.cursor.rest = '\n' :: back) :
    callRound inner pos draft state =
      .ok (.done (.ofDraft pos (some (.call pos draft.assigns.reverse draft.args.reverse))
        draft.redirects), state) := by
  have blanks : state.skipBlanks = state := skipBlanks_of_isTight (by rw [shape]; rfl)
  have started : RedirectHead.starting? ('\n' :: back) = none := by
    have digit : Text.isDecimal '\n' = false := by decide
    simp [RedirectHead.starting?, RedirectHead.of?, RedirectOp.of?, RedirectOp.both?,
      RedirectOp.text, digit]
  unfold callRound
  simp only [skipBlanks_bind, blanks, redirectAt_bind, shape, started,
    current_bind, List.head?_cons]
  rw [if_pos (by decide)]
  unfold finishCall
  rw [if_neg (by simp [filled])]
  rfl

/-- The announcements in front of a newline are read one after the other. -/
theorem call_loops {pos : Position} (line : Int) (draft : CallDraft) (filled : draft.args ≠ [])
    (shape : state.cursor.rest = documents.flatMap announcement ++ '\n' :: back)
    (enough : state.cursor.rest.length < inner.rounds) :
    Loops (callRound inner pos) draft state
      (.ofDraft pos (some (.call pos draft.assigns.reverse draft.args.reverse))
        (((sites state.cursor.position line documents).map Site.announced).reverse ++
          draft.redirects))
      { state.skip (documents.flatMap announcement).length with
        awaited := state.awaited ++ (sites state.cursor.position line documents).map
          Site.awaited } := by
  induction documents generalizing state draft line with
  | nil =>
      have last : callRound inner pos draft state = _ := callRound_newline filled shape
      simp only [sites, List.map_nil, List.reverse_nil, List.nil_append, List.append_nil,
        List.flatMap_nil, List.length_nil]
      exact .done last
  | cons document documents ih =>
      rw [List.flatMap_cons, List.append_assoc] at shape
      have ends : endsWord (documents.flatMap announcement ++ '\n' :: back) = true := by
        cases documents <;> rfl
      let site : Site := ⟨document, state.cursor.position.right 1, line⟩
      let middle : ReadState := { state.skip document.announcement.length with
        awaited := state.awaited ++ [site.awaited] }
      have first : callRound inner pos draft state = .ok (.again _, middle) :=
        @callRound_reads inner state _ site pos draft rfl shape ends enough
      have opened : middle.cursor.rest = _ := skip_rest shape
      have moved : middle.cursor.position = state.cursor.position.right
          document.announcement.length :=
        (skip_position shape).trans (Position.along_plain document.announcement_plain _)
      have shorter : middle.cursor.rest.length < state.cursor.rest.length := by
        rw [opened, shape, announcement]
        simp only [List.length_append, List.length_cons]
        omega
      have later := @ih middle (line + document.height)
        { draft with redirects := site.announced :: draft.redirects } filled opened (by omega)
      refine .again first shorter ?_
      rw [moved] at later
      simp only [sites, List.map_cons, List.reverse_cons, List.append_assoc, List.singleton_append,
        List.flatMap_cons, List.length_append, skip_add]
      simp only [middle, List.append_assoc, List.singleton_append] at later
      exact later

/-- No reserved word is the name of the program. -/
theorem atWord_program {word : String} (reserved : word ∈ compoundWords ++ listTerminators)
    (shape : state.cursor.rest = ['c', 'a', 't'] ++ back) (ends : back.head? = some ' ' ∨
      back.head? = some '\n') :
    state.cursor.atWord word = false := by
  have free : ∀ word ∈ compoundWords ++ listTerminators,
      ' ' ∉ word.toList ∧ '\n' ∉ word.toList ∧ word.toList ≠ ['c', 'a', 't'] := by decide
  obtain ⟨space, line, other⟩ := free word reserved
  have apart : ∀ c ∈ back.head?, c ∉ word.toList := by
    rcases ends with head | head <;> simp [head, space, line]
  rw [← Bool.not_eq_true, Cursor.atWord_iff shape (by decide) apart]
  exact fun found => other found.1

/-- The program's name is the first word of the command. -/
theorem callRound_program {pos : Position}
    (shape : state.cursor.rest = ['c', 'a', 't'] ++ back) (ends : endsWord back = true)
    (enough : state.cursor.rest.length < inner.rounds) :
    callRound inner pos ⟨[], [], []⟩ state =
      .ok (.again ⟨[], [⟨state.cursor.position, [.literal state.cursor.position "cat"]⟩], []⟩,
        state.skip 3) := by
  have unredirected : RedirectHead.starting? state.cursor.rest = none := by
    refine RedirectHead.starting?_eq_none ?_
    have digit : Text.isDecimal 'c' = false := by decide
    simp [shape, digit]
  have unassigned : AssignHead.of? state.cursor.rest = none := by
    have stops : ∀ c ∈ [' ', '\t', '\r', '\n', ';', '&', '|', '(', ')'],
        isNameChar c = false ∧ c ∉ ['=', '+', '['] := by decide
    have apart (c : Char) (head : c ∈ back.head?) := stops c (mem_of_endsWord ends c head)
    refine AssignHead.of?_eq_none ?_
    rw [shape, nameRun_append (by decide) fun c head => (apart c head).1, List.drop_left]
    exact fun c head => (apart c head).2
  have blanks : state.skipBlanks = state := skipBlanks_of_isTight (by rw [shape]; rfl)
  refine callRound_word blanks unredirected (by rw [shape]; rfl) (by decide) (by decide)
    (fun _ => unassigned) (word_literal shape (by simp) (by decide) ends enough)
    fun _ _ text literal => ?_
  obtain rfl : "cat" = text := by simpa [Word.literal?, Part.literal?] using literal
  decide

/-- The state behind the command and its announcements. -/
def behindCommand (line : Int) (documents : List Document) (state : ReadState) : ReadState :=
  { state.skip (['c', 'a', 't'] ++ documents.flatMap announcement).length with
    awaited := state.awaited ++ (sites (state.cursor.position.right 3) line documents).map
      Site.awaited }

/-- The command with its announcements, up to the end of its line. -/
theorem call_reads {pos : Position} (line : Int)
    (shape : state.cursor.rest = ['c', 'a', 't'] ++
      (documents.flatMap announcement ++ '\n' :: back))
    (enough : state.cursor.rest.length < inner.rounds) :
    call inner pos state =
      .ok (.ofDraft pos (some (.call pos []
            [⟨state.cursor.position, [.literal state.cursor.position "cat"]⟩]))
          ((sites (state.cursor.position.right 3) line documents).map Site.announced).reverse,
        behindCommand line documents state) := by
  have ends : endsWord (documents.flatMap announcement ++ '\n' :: back) = true := by
    cases documents <;> rfl
  have opened : (state.skip 3).cursor.rest = _ := skip_rest shape
  have moved : (state.skip 3).cursor.position = state.cursor.position.right 3 :=
    (skip_position shape).trans (Position.along_plain (by decide) _)
  have shorter : (state.skip 3).cursor.rest.length < state.cursor.rest.length := by
    rw [opened, shape]
    simp only [List.length_append, List.length_cons]
    omega
  have program : callRound inner pos _ state = _ := callRound_program shape ends enough
  have loops := Loops.again program shorter
    (call_loops line _ (List.cons_ne_nil _ _) opened (by omega))
  rw [moved, List.append_nil] at loops
  rw [call, loops.iterate enough, behindCommand, List.length_append, skip_add]
  rfl

/-- The command is one round of reading statements. -/
theorem statementRound_reads (line : Int)
    (shape : state.cursor.rest = ['c', 'a', 't'] ++
      (documents.flatMap announcement ++ '\n' :: back))
    (quiet : state.comments = []) (enough : state.cursor.rest.length < inner.rounds) :
    statementRound inner [] [] state =
      .ok (.again [.stmt (.ofDraft state.cursor.position
          (some (.call state.cursor.position []
            [⟨state.cursor.position, [.literal state.cursor.position "cat"]⟩]))
          ((sites (state.cursor.position.right 3) line documents).map Site.announced).reverse)],
        behindCommand line documents state) := by
  have called : call inner state.cursor.position state = _ := call_reads line shape enough
  generalize reached : behindCommand line documents state = after at called ⊢
  have ended : after.cursor.rest = '\n' :: back := by
    rw [← reached]
    exact skip_rest (shape.trans (List.append_assoc ..).symm)
  have silent : after.comments = [] := by
    rw [← reached]
    exact quiet
  have blanks : after.skipBlanks = after := skipBlanks_of_isTight (by rw [ended]; rfl)
  have tight : isTight state.cursor.rest = true := by
    rw [shape]
    rfl
  have fewer : after.cursor.rest.length < inner.rounds := by
    rw [ended]
    rw [shape] at enough
    simp only [List.length_append, List.length_cons] at enough ⊢
    omega
  have next : (documents.flatMap announcement ++ '\n' :: back).head? = some ' ' ∨
      (documents.flatMap announcement ++ '\n' :: back).head? = some '\n' := by
    cases documents with
    | nil => exact .inr rfl
    | cons document documents => exact .inl rfl
  have simple : startsCall state.cursor = true := by
    simp only [startsCall, Bool.and_eq_true, List.all_eq_true]
    refine ⟨by rw [shape]; rfl, fun word member => ?_⟩
    rw [atWord_program (List.mem_append_left _ member) shape next]
    rfl
  have starts : startsStatement state.cursor = true := by
    simp only [startsStatement, Bool.and_eq_true, List.all_eq_true]
    refine ⟨⟨by rw [shape]; rfl, by rw [shape]; rfl⟩, fun word member => ?_⟩
    rw [atWord_program (List.mem_append_right _ member) shape next]
    rfl
  have piped := pipes_of_loops ((command_of_call tight simple).trans called)
    (.done (pipelineRound_done (by rw [blanks, ended]; rfl))) fewer
  rw [blanks] at piped
  have joined := logic_of_loops ((pipeline_of_pipes tight (by rw [shape]; rfl)).trans piped)
      (.done (logicRound_done (by rw [blanks, ended]; rfl))) fewer
  rw [blanks] at joined
  rw [statementRound_statement tight quiet starts]
  exact bind_ok (statement_of_logic joined silent (statementEnd_newline ended))

end Command

/-! ## The lines -/

section Lines

open Reading ReadState

variable {site : Site} {documents : List Document} {inner : Inner} {state : ReadState}
  {back : List Char}

/-- Lines that do not close a here-document, and one that does. -/
theorem lines_flatMap {awaited : Awaited} {lines : List (List Char)} {closing : List Char}
    (single : ∀ line ∈ lines, '\n' ∉ line) (further : ∀ line ∈ lines, awaited.closedBy line = false)
    (whole : '\n' ∉ closing) (closes : awaited.closedBy closing = true) (back : List Char) :
    awaited.lines (lines.flatMap (· ++ ['\n']) ++ (closing ++ ['\n'] ++ back)) =
      (lines.flatMap (· ++ ['\n']), closing ++ ['\n']) := by
  have run {line : List Char} (plain : '\n' ∉ line) (below : List Char) :
      lineRun (line ++ '\n' :: below) = line := by
    rw [lineRun_append_of_not_mem plain, lineRun_newline, List.append_nil]
  have split (line below : List Char) : line ++ '\n' :: below = (line ++ ['\n']) ++ below := by simp
  have length (line : List Char) : line.length + 1 = (line ++ ['\n']).length := by simp
  induction lines with
  | nil =>
      have first := run whole back
      rw [List.flatMap_nil, List.nil_append, ← split,
        Awaited.lines_closed (by simp) (by rw [first, closes]), first, split,
        length, List.take_left]
  | cons line lines ih =>
      have later := ih (fun line member => single line (List.mem_cons_of_mem _ member))
        fun line member => further line (List.mem_cons_of_mem _ member)
      have first := run (single line List.mem_cons_self)
        (lines.flatMap (· ++ ['\n']) ++ (closing ++ ['\n'] ++ back))
      have open' : ¬awaited.closedBy line = true := by simp [further line List.mem_cons_self]
      rw [List.flatMap_cons, List.append_assoc, ← split,
        Awaited.lines_further (by simp) (by rwa [first]), first, split, length, List.take_left,
        List.drop_left, later]

theorem lines_block (site : Site) (back : List Char) :
    site.awaited.lines (site.document.block ++ back) =
      (site.document.text, site.document.delimiter ++ ['\n']) := by
  have absent {c : Char} (other : isNameChar c = false) : c ∉ site.document.delimiter :=
    fun member => by
    simp [isNameChar_of_mem member] at other
  have further : ∀ line ∈ site.document.lines, site.awaited.closedBy line = false := by
    intro line member
    rw [← Bool.not_eq_true]
    intro closed
    simp only [Awaited.closedBy, decide_eq_true_eq] at closed
    exact site.document.further line member closed
  have kept {c : Char} {line : List Char} (other : c ∉ line) : line.dropWhile (· = c) = line := by
    cases line with
    | nil => rfl
    | cons d line => simp [Ne.symm (List.ne_of_not_mem_cons other)]
  have closes : site.awaited.closedBy site.document.delimiter = true := by
    have tabs := kept (absent (c := '\t') rfl)
    have returns := kept (mt List.mem_reverse.mp (absent (c := '\r') rfl))
    simp [Awaited.closedBy, Site.awaited, tabs, returns]
  rw [block, List.append_assoc, List.append_assoc]
  have read := lines_flatMap site.document.single further (absent rfl) closes back
  rwa [List.append_assoc] at read

theorem hereDocBody_reads (enough : site.document.text.length < inner.rounds) (pos : Position) :
    hereDocBody inner site.awaited site.document.text pos state =
      .ok (site.document.body pos, state) := by
  unfold hereDocBody body
  cases quoted : site.document.quoted with
  | true =>
      rw [if_pos (show site.awaited.quoted = true from quoted)]
      rfl
  | false =>
      have plain : ∀ c ∈ site.document.text, c ∉ ['\\', '\x60', '$'] := by
        intro c member
        rw [text, List.mem_flatMap] at member
        obtain ⟨line, inside, member⟩ := member
        obtain ⟨dollar, backquote, backslash⟩ := site.document.plain quoted line inside
        rcases List.mem_append.mp member with written | newline
        · simp only [List.mem_cons, List.not_mem_nil, or_false, not_or]
          exact ⟨fun same => backslash (same ▸ written), fun same => backquote (same ▸ written),
            fun same => dollar (same ▸ written)⟩
        · rw [List.mem_singleton.mp newline]
          decide
      have empty : site.document.text = [] ↔ site.document.lines = [] := by
        cases lines : site.document.lines <;> simp [text, lines]
      rw [if_neg (by simp [Site.awaited, quoted]), inlineWord_literal plain pos enough]
      simp [empty]

/-- The lines of a here-document become the body of its redirection. -/
theorem hereDoc_reads (here : state.cursor.position = ⟨site.line, 1⟩)
    (shape : state.cursor.rest = site.document.block ++ back)
    (enough : state.cursor.rest.length < inner.rounds) :
    hereDoc inner site.awaited state =
      .ok ((), { state.skip site.document.block.length with bodies := site.entry ::
        state.bodies }) := by
  have lines := lines_block site back
  have fewer : site.document.text.length < inner.rounds := by
    rw [shape, block] at enough
    simp only [List.length_append] at enough
    omega
  rw [hereDoc_eq inner _ state enough, shape, lines, bind_ok (hereDocBody_reads fewer _), here]
  simp only [block, List.append_assoc, List.length_append]
  rfl

theorem along_block (document : Document) (line : Int) :
    (⟨line, 1⟩ : Position).along document.block = ⟨line + document.height, 1⟩ := by
  have delimiter : document.delimiter.count '\n' = 0 :=
    List.count_eq_zero.mpr fun member => by cases isNameChar_of_mem member
  have counted (lines : List (List Char)) (single : ∀ line ∈ lines, '\n' ∉ line) :
      (lines.flatMap (· ++ ['\n'])).count '\n' = lines.length := by
    induction lines with
    | nil => rfl
    | cons line lines ih =>
        have first : line.count '\n' = 0 := List.count_eq_zero.mpr (single line List.mem_cons_self)
        rw [List.flatMap_cons, List.count_append, List.count_append,
          ih fun line member => single line (List.mem_cons_of_mem _ member), first,
          List.count_singleton_self, List.length_cons]
        omega
  have text : document.text.count '\n' = document.lines.length :=
    counted document.lines document.single
  rw [block, Position.along_lines, List.count_append, List.count_append, text, delimiter]
  simp [height]

theorem hereDocs_read (pos : Position) {line : Int} (here : state.cursor.position = ⟨line, 1⟩)
    (shape : state.cursor.rest = documents.flatMap block ++ back)
    (enough : state.cursor.rest.length < inner.rounds) :
    ((sites pos line documents).map Site.awaited).forM (hereDoc inner) state =
      .ok ((), { state.skip (documents.flatMap block).length with
        bodies := ((sites pos line documents).map Site.entry).reverse ++ state.bodies }) := by
  induction documents generalizing state pos line with
  | nil => rfl
  | cons document documents ih =>
      rw [List.flatMap_cons, List.append_assoc] at shape
      let site : Site := ⟨document, pos.right 1, line⟩
      let middle : ReadState :=
        { state.skip document.block.length with bodies := site.entry :: state.bodies }
      have first : hereDoc inner site.awaited state = .ok ((), middle) :=
        hereDoc_reads here shape enough
      have opened : middle.cursor.rest = documents.flatMap block ++ back := skip_rest shape
      have moved : middle.cursor.position = ⟨line + document.height, 1⟩ := by
        rw [← along_block, ← here]
        exact skip_position shape
      have fewer : middle.cursor.rest.length < inner.rounds := by
        rw [opened]
        rw [shape, List.length_append] at enough
        omega
      have later := ih (pos.right document.announcement.length) moved opened fewer
      have chained : ((sites pos line (document :: documents)).map Site.awaited).forM
        (hereDoc inner) state =
          (hereDoc inner site.awaited >>= fun _ => ((sites (pos.right document.announcement.length)
            (line + document.height) documents).map Site.awaited).forM (hereDoc inner)) state := rfl
      rw [chained, bind_ok first, later]
      simp only [middle, sites, List.map_cons, List.flatMap_cons, List.length_append,
        skip_add, List.reverse_cons, List.append_assoc, List.singleton_append]
      rfl

/-- The newline behind the command is followed by the lines of all here-documents. -/
theorem newline_reads (pos : Position) {line : Int} (here : state.cursor.position.line + 1 = line)
    (shape : state.cursor.rest = '\n' :: (documents.flatMap block ++ back))
    (awaited : state.awaited = (sites pos line documents).map Site.awaited)
    (enough : state.cursor.rest.length < inner.rounds) :
    newline inner state =
      .ok ((), { state.skip ('\n' :: documents.flatMap block).length with
        awaited := []
        bodies := ((sites pos line documents).map Site.entry).reverse ++ state.bodies }) := by
  have split : state.cursor.rest = ['\n'] ++ (documents.flatMap block ++ back) := shape
  have opened : (state.skip 1).cursor.rest = documents.flatMap block ++ back := skip_rest split
  have moved : (state.skip 1).cursor.position = ⟨line, 1⟩ := by
    rw [← here]
    exact skip_position split
  have read := @hereDocs_read documents inner { state.skip 1 with awaited := [] }
    back pos line moved
    opened (by
      change (state.skip 1).cursor.rest.length < _
      rw [opened]
      rw [shape, List.length_cons] at enough
      omega)
  unfold newline
  simp only [skip_bind, get_bind, modify_bind]
  rw [show (state.skip 1).awaited = _ from awaited, read, List.length_cons, Nat.add_comm,
    skip_add]
  rfl

theorem along_blocks (line : Int) :
    (⟨line, 1⟩ : Position).along (documents.flatMap block) =
      ⟨line + (documents.map height).sum, 1⟩ := by
  induction documents generalizing line with
  | nil => simp
  | cons document documents ih =>
      rw [List.flatMap_cons, Position.along_append, along_block, ih, List.map_cons, List.sum_cons]
      simp [Int.add_assoc]

end Lines

/-! ## Putting the lines in place -/

section Placing

variable {documents : List Document} {pos : Position} {line : Int}

theorem sites_pos {site : Site} (member : site ∈ sites pos line documents) :
    site.pos.line = pos.line ∧ pos.column < site.pos.column := by
  induction documents generalizing pos line with
  | nil => cases member
  | cons document documents ih =>
      rcases List.mem_cons.mp member with rfl | later
      · exact ⟨rfl, Int.lt_succ _⟩
      · have behind := ih later
        simp only [Position.right] at behind
        omega

theorem target_place (document : Document) (bodies : Bodies) (pos : Position) :
    (document.target pos).place bodies = document.target pos := by
  unfold target
  cases document.quoted <;> rfl

/-- Every redirection receives its own lines. -/
theorem placeRedirects_announced (front back : Bodies)
    (apart : ∀ entry ∈ front, entry.1.line ≠ pos.line) :
    placeRedirects (front ++ (((sites pos line documents).map Site.entry).reverse ++ back))
        ((sites pos line documents).map Site.announced) =
      (sites pos line documents).map Site.redirect := by
  induction documents generalizing pos line back with
  | nil => rfl
  | cons document documents ih =>
      let site : Site := ⟨document, pos.right 1, line⟩
      let later := sites (pos.right document.announcement.length) (line + document.height) documents
      have found : (front ++ ((later.map Site.entry).reverse ++ site.entry :: back)).lookup
        site.pos =
          some (document.body ⟨line, 1⟩) := by
        rw [List.lookup_eq_some_iff]
        refine ⟨front ++ (later.map Site.entry).reverse, back, by simp [Site.entry, site], ?_⟩
        intro entry member
        rw [bne_iff_ne]
        rintro same
        rcases List.mem_append.mp member with early | own
        · exact apart entry early (by rw [← same]; rfl)
        · obtain ⟨other, inside, rfl⟩ := List.mem_map.mp (List.mem_reverse.mp own)
          have columns := (sites_pos inside).2
          have width : 0 < document.announcement.length := by simp [announcement]
          rw [show other.pos = site.pos from same.symm] at columns
          simp only [Position.right, site] at columns
          omega
      have further := @ih (pos.right document.announcement.length) (line + document.height)
        (site.entry :: back) apart
      have placed : site.announced.place
          (front ++ ((later.map Site.entry).reverse ++ site.entry :: back)) = site.redirect := by
        simp only [Site.announced, Redirect.place, target_place, Site.redirect]
        rw [found]
      simp only [sites, List.map_cons, List.reverse_cons, List.append_assoc, List.singleton_append,
        placeRedirects]
      exact congrArg₂ List.cons placed further

/-- The command receives the lines of its here-documents, whatever is read on later lines. -/
theorem placeItems_statement (late : Bodies) (behind : ∀ entry ∈ late, entry.1.line ≠ 1) :
    placeItems (late ++ entries documents) [.stmt (unread documents)] =
      [.stmt (statement documents)] := by
  have placed := @placeRedirects_announced documents ⟨1, 4⟩ 2 late [] behind
  rw [List.append_nil] at placed
  simp only [entries, unread, placeItems, Item.place, Stmt.ofDraft, Stmt.place,
    placeCommand, Command.place,
    placeAssigns, placeWords, Word.place, placeParts, Part.place, List.reverse_reverse, placed]
  rfl

end Placing

/-! ## The whole script -/

variable (documents : List Document) (rest : List Char)

/-- The state behind the here-documents, without what has been read. -/
def behind : ReadState :=
  (ReadState.ofText (script documents ++ rest) .start).skip (script documents).length

theorem script_plain : '\n' ∉ ['c', 'a', 't'] ++ documents.flatMap announcement := by
  simp only [List.mem_append, List.mem_flatMap, not_or, not_exists, not_and]
  exact ⟨by decide, fun document _ => document.announcement_plain⟩

theorem along_script :
    Position.start.along (script documents) = ⟨1 + (1 + (documents.map height).sum : Nat), 1⟩ := by
  have next :
    (Position.start.right (['c', 'a', 't'] ++ documents.flatMap announcement).length).after
      '\n' = ⟨2, 1⟩ := rfl
  rw [script, Position.along_append, Position.along_plain (script_plain documents),
    Position.along_cons, next, along_blocks]
  congr 1
  omega

theorem behind_fresh :
    (behind documents rest).Fresh rest ⟨1 + (1 + (documents.map height).sum : Nat), 1⟩ := by
  have shape : (ReadState.ofText (script documents ++ rest) .start).cursor.rest =
      script documents ++ rest := rfl
  refine ⟨ReadState.skip_rest shape, ?_, rfl, rfl, rfl⟩
  rw [← along_script]
  exact ReadState.skip_position shape

open Reading in
/-- Reading the command and its here-documents takes two rounds. -/
theorem iterate_script {rounds : Nat} (enough : (script documents ++ rest).length < rounds)
    (depth left : Nat) :
    iterate (statementRound (Inner.level rounds depth) []) (left + 2) []
        (.ofText (script documents ++ rest) .start) =
      iterate (statementRound (Inner.level rounds depth) []) left [.stmt (unread documents)]
        ((behind documents rest).knowing (entries documents)) := by
  rw [← Inner.level_rounds rounds depth] at enough
  let state := ReadState.ofText (script documents ++ rest) .start
  have shape : state.cursor.rest =
      ['c', 'a', 't'] ++
      (documents.flatMap announcement ++ '\n' :: (documents.flatMap block ++ rest)) := by
    change script documents ++ rest = _
    simp [script]
  let middle : ReadState :=
    { state.skip (['c', 'a', 't'] ++ documents.flatMap announcement).length with
      awaited := (sites ⟨1, 4⟩ 2 documents).map Site.awaited }
  have command : statementRound (Inner.level rounds depth) [] [] state =
      .ok (.again [.stmt (unread documents)], middle) := statementRound_reads 2 shape rfl enough
  have split := shape.trans (List.append_assoc ..).symm
  have opened : middle.cursor.rest = '\n' :: (documents.flatMap block ++ rest) :=
    ReadState.skip_rest split
  have plain : '\n' ∉ ['c', 'a', 't'] ++ documents.flatMap announcement := script_plain documents
  have line : middle.cursor.position.line + 1 = 2 := by
    have position : middle.cursor.position = _ := ReadState.skip_position split
    rw [position, Position.along_plain plain]
    rfl
  have fewer : middle.cursor.rest.length < (Inner.level rounds depth).rounds := by
    rw [opened]
    simp only [script, List.length_append, List.length_cons] at enough ⊢
    omega
  have lines : newline (Inner.level rounds depth) middle = _ :=
    newline_reads ⟨1, 4⟩ line opened rfl fewer
  have final : ({ middle.skip ('\n' :: documents.flatMap block).length with
        awaited := []
        bodies := ((sites ⟨1, 4⟩ 2 documents).map Site.entry).reverse ++ middle.bodies } :
          ReadState) =
      (behind documents rest).knowing (entries documents) := by
    have cursor :
      (state.cursor.advance (['c', 'a', 't'] ++ documents.flatMap announcement).length).advance
        ('\n' :: documents.flatMap block).length =
          state.cursor.advance (script documents).length := by
      rw [← Cursor.advance_add, ← List.length_append]
      rfl
    simp only [middle, entries, ReadState.knowing, ReadState.skip, cursor]
    simp [behind, state, ReadState.skip, ReadState.ofText]
  rw [iterate_again command, iterate_again (statementRound_of_newline rfl opened lines), final]

/-- The text behind the here-documents, and that text alone. -/
theorem behind_follows {rounds left : Nat} (enough : rest.length < left)
    (bounded : rest.length < rounds) (depth : Nat) :
    (Seam.linesApart (1 + (documents.map height).sum) (rest.length + 1) rounds (by omega)).Follows
    .after
      (Reading.iterate (Reading.statementRound (Inner.level (rest.length + 1) depth) [])
        (rest.length + 1) [] (.ofText rest .start))
      (Reading.iterate (Reading.statementRound (Inner.level rounds depth) []) left []
        (behind documents rest)) :=
  Script.statements_linesApart (by omega) (behind_fresh documents rest) enough bounded

/-- The command is put in front of what is read behind its here-documents. -/
theorem iterate_behind (rounds depth left : Nat) :
    Reading.iterate (Reading.statementRound (Inner.level rounds depth) []) left
        [.stmt (unread documents)] ((behind documents rest).knowing (entries documents)) =
      (Reading.iterate (Reading.statementRound (Inner.level rounds depth) []) left []
        (behind documents rest)).map
          (Prod.map ([.stmt (unread documents)] ++ ·) (·.knowing (entries documents))) := by
  refine (Reading.iterate_append left [] _).trans ?_
  rw [Bounds.iterate_knowing]
  generalize Reading.iterate (Reading.statementRound (Inner.level rounds depth) []) left []
    (behind documents rest) = outcome
  cases outcome with
  | ok outcome | error fault => rfl

end Document

/-- Here-documents are attached to the redirections that announce them, in order and with exactly
their lines, and the text behind them is read as if it stood alone: its statements follow, further
down by the number of lines, and so does its error. -/
theorem Script.parse_hereDocs (name : String) (documents : List Document) (rest : List Char)
    (limit : NestingLimit) :
    parse name (Document.script documents ++ rest) limit =
      match parse name rest limit with
      | .ok further => .ok
          { name
            items := .stmt (Document.statement documents) ::
              further.items.map (·.recast (.down (1 + (documents.map Document.height).sum))) }
      | .error error => .error
          { error with
            pos := ⟨error.pos.line + (1 + (documents.map Document.height).sum : Nat),
              error.pos.column⟩ } := by
  obtain ⟨depth, levels⟩ := limit.levels_eq
  have long : 4 ≤ (Document.script documents).length := by
    simp only [Document.script, List.length_append, List.length_cons]
    omega
  obtain ⟨left, count⟩ : ∃ left, (Document.script documents ++ rest).length + 1 = left + 2 :=
    ⟨(Document.script documents ++ rest).length - 1, by rw [List.length_append]; omega⟩
  have more : rest.length < left := by
    rw [List.length_append] at count
    omega
  simp only [parse, parseWithin_eq_conclude, levels, Inner.level_statements]
  rw [count, Document.iterate_script documents rest (by omega), Document.iterate_behind]
  have follows := Document.behind_follows documents rest more (by omega : rest.length < left + 2)
    (depth + 1)
  generalize Reading.iterate (Reading.statementRound (Inner.level (left + 2) (depth + 1)) [])
    left []
    (Document.behind documents rest) = outcome' at follows ⊢
  generalize Reading.iterate (Reading.statementRound (Inner.level (rest.length + 1) (depth + 1)) [])
    (rest.length + 1) [] (.ofText rest .start) = outcome at follows ⊢
  have placed (late : Bodies) (behind : ∀ entry ∈ late,
      ((1 + (documents.map Document.height).sum : Nat) : Int) < entry.1.line) :
      placeItems (late ++ Document.entries documents) [.stmt (Document.unread documents)] =
        [.stmt (Document.statement documents)] := by
    refine Document.placeItems_statement late fun entry member => ?_
    have := behind entry member
    omega
  have front : ∀ entry ∈ Document.entries documents,
      0 < entry.1.line ∧ entry.1.line ≤ (1 + (documents.map Document.height).sum : Nat) := by
    intro entry member
    obtain ⟨site, inside, rfl⟩ := List.mem_map.mp (List.mem_reverse.mp member)
    have first : site.pos.line = 1 := (Document.sites_pos inside).1
    simp only [Document.Site.entry, first]
    omega
  rw [conclude_knowing follows placed front]
  cases conclude name outcome with
  | ok script => rfl
  | error fault => rfl

theorem Script.parse_nil (name : String) (limit : NestingLimit) :
    parse name [] limit = .ok { name, items := [] } := by
  obtain ⟨depth, levels⟩ := limit.levels_eq
  simp only [parse, parseWithin_eq_conclude, levels, Inner.level_statements]
  rfl

/-- Two here-documents of one command.  The first one is quoted, so the `$` in it is text; the line
that closes the second one may have tabs in front of it. -/
theorem Script.parse_hereDocs_two :
    parse "APKBUILD" "cat <<'A' <<-B\n$x\nA\n\ty\nB\n".toList = .ok
      { name := "APKBUILD"
        items := [.stmt
          { pos := ⟨1, 1⟩
            command := some (.call ⟨1, 1⟩ [] [⟨⟨1, 1⟩, [.literal ⟨1, 1⟩ "cat"]⟩])
            redirects := [
              ⟨⟨1, 5⟩, .hereDoc, none, ⟨⟨1, 7⟩, [.single ⟨1, 7⟩ "A" false]⟩,
                some ⟨⟨2, 1⟩, [.literal ⟨2, 1⟩ "$x\n"]⟩⟩,
              ⟨⟨1, 11⟩, .hereDocTabs, none, ⟨⟨1, 14⟩, [.literal ⟨1, 14⟩ "B"]⟩,
                some ⟨⟨4, 1⟩, [.literal ⟨4, 1⟩ "\ty\n"]⟩⟩]
            negated := false
            background := false }] } := by
  have read := parse_hereDocs "APKBUILD"
    [⟨false, true, ['A'], [['$', 'x']], rfl, by decide, by decide, nofun⟩,
      ⟨true, false, ['B'], [['\t', 'y']], rfl, by decide, by decide, by decide⟩] [] .usual
  rw [parse_nil] at read
  exact read

end RecipeLint
