import RecipeLint.Proofs.Consumption
import RecipeLint.Proofs.Excerpts
import RecipeLint.Proofs.Forward

/-!
# What statements start with

A word that turns out to be a literal is spelled where it was read.  So a statement that runs a bare
word first starts with that word, unless it is a compound command or negated. -/

namespace RecipeLint

theorem blankRun_drop (text : List Char) : blankRun (text.drop (blankRun text)) = 0 := by
  fun_induction blankRun text with
  | case1 rest ih | case2 rest ih | case3 rest ih | case4 rest ih => exact ih
  | case5 text => simp_all [blankRun]

theorem ReadState.skipBlanks_skipBlanks (state : ReadState) :
    state.skipBlanks.skipBlanks = state.skipBlanks := by
  have tight : blankRun state.skipBlanks.cursor.rest = 0 := by
    rw [skipBlanks_cursor, Cursor.skipBlanks_rest]
    exact blankRun_drop _
  rw [skipBlanks_of_rest tight, skip_zero]

namespace Word

/-- Whether a word is nothing but unquoted text. -/
def plain (word : Word) : Bool :=
  word.parts.all (·.literal?.isSome)

theorem isSome_of_mapM {parts : List Part} {texts : List String}
    (run : parts.mapM Part.literal? = some texts) :
    parts.all (·.literal?.isSome) = true := by
  induction parts generalizing texts with
  | nil => rfl
  | cons part parts ih =>
      rw [List.mapM_cons] at run
      obtain ⟨text, first, rest⟩ := Option.bind_eq_some_iff.mp run
      obtain ⟨others, later, -⟩ := Option.bind_eq_some_iff.mp rest
      rw [List.all_cons, first, ih later]
      rfl

theorem plain_of_literal? {word : Word} {text : String} (literal : word.literal? = some text) :
    word.plain = true := by
  unfold Word.literal? at literal
  split at literal
  · cases literal
  · obtain ⟨texts, run, -⟩ := Option.map_eq_some_iff.mp literal
    exact isSome_of_mapM run

/-- If a word is literal, it has no newline. -/
def Straight (word : Word) : Prop :=
  ∀ literal ∈ word.literal?, '\n' ∉ literal.toList

end Word

namespace Pieces

/-- As long as there is nothing but literal text, it is spelled in front of what is left of a
text. -/
def Reads (text rest : List Char) (pieces : Pieces) : Prop :=
  (∃ part ∈ pieces.parts, part.literal? = none) ∨
    pieces.parts = [] ∧ '\n' ∉ pieces.run ∧ ∃ written, text = written ++ rest ∧
    Joins written pieces.run.reverse

namespace Reads

variable {pieces : Pieces} {text rest : List Char}

theorem empty (pos : Position) : (Pieces.empty pos).Reads text text :=
  .inr ⟨rfl, List.not_mem_nil, [], rfl, .nil⟩

theorem add {part : Part} (other : part.literal? = none) : (pieces.add part).Reads text rest :=
  .inl ⟨part, List.mem_cons_self, other⟩

theorem push {pos : Position} {chars : List Char} (reads : pieces.Reads text (chars ++ rest))
    (straight : '\n' ∉ chars) : (pieces.push pos chars).Reads text rest := by
  rcases reads with other | ⟨none, before, written, rfl, joins⟩
  · exact .inl other
  · refine .inr ⟨none, ?_, written ++ chars, (List.append_assoc ..).symm, ?_⟩
    · simp [Pieces.push, straight, before]
    · simpa [Pieces.push] using joins.append (.refl chars)

theorem fold (reads : pieces.Reads text ('\\' :: '\n' :: rest)) : pieces.Reads text rest := by
  rcases reads with other | ⟨none, before, written, rfl, joins⟩
  · exact .inl other
  · refine .inr ⟨none, before, written ++ ['\\', '\n'], by simp, ?_⟩
    simpa using joins.append (.fold .nil)

theorem escape {pos : Position} (reads : pieces.Reads text ('\\' :: rest))
    (other : rest.head? ≠ some '\n') :
    (pieces.push pos ('\\' :: rest.take 1)).Reads text (rest.drop 1) := by
  refine .push (?_ : pieces.Reads text ('\\' :: rest.take 1 ++ rest.drop 1)) ?_
  · rwa [List.cons_append, List.take_append_drop]
  · cases rest with
    | nil => decide
    | cons d rest => simpa [eq_comm] using other

theorem spells {delimiters : List Char} (reads : pieces.Reads text rest)
    (ended : rest.head?.all delimiters.contains = true) (pos : Position) :
    Word.Spells delimiters text { pos, parts := pieces.finish } := by
  intro literal found
  rcases reads with ⟨part, member, other⟩ | ⟨none, straight, written, rfl, joins⟩
  · have kept : part ∈ pieces.finish := by
      refine List.mem_reverse.mpr ?_
      unfold Pieces.flush
      split
      · exact member
      · exact List.mem_cons_of_mem _ member
    have plain := List.all_eq_true.mp (Word.plain_of_literal? found) part kept
    rw [other] at plain
    cases plain
  · obtain ⟨parts, run, start⟩ := pieces
    obtain rfl : parts = [] := none
    cases run with
    | nil => cases found
    | cons c run =>
        have single (text : String) : Word.literal? { pos, parts := [.literal start text] } =
            some text := by
          simp [Word.literal?, Part.literal?]
        cases found.symm.trans (single (String.ofList (c :: run).reverse))
        rw [String.toList_ofList, List.mem_reverse]
        exact ⟨straight, written, rest, rfl, joins, ended⟩

end Reads

end Pieces

namespace Reading

/-! ## What a reading gives -/

section Gives

variable {α β : Type} {holds : β → Prop}

/-- Whatever the reading gives has the property. -/
def Gives (holds : α → Prop) (reading : Reading α) : Prop :=
  ∀ state, Ends (fun _ => True) (fun value _ => holds value) (reading state)

/-- Whatever the reading finds has the property; where it finds nothing it reads nothing. -/
def Finds (holds : α → Prop) (reading : Reading (Option α)) : Prop :=
  ∀ state, Ends (fun _ => True) (fun value after => (∀ it ∈ value, holds it) ∧
    (value = none → after = state))
    (reading state)

namespace Gives

theorem pure {value : β} (holding : holds value) : Gives holds (Pure.pure value : Reading β) :=
  fun _ => holding

theorem failAt (pos : Position) (cause : Cause) : Gives holds (Reading.failAt pos cause) :=
  fun _ => trivial

theorem fail (cause : Cause) : Gives holds (Reading.fail cause) :=
  fun _ => trivial

theorem bind {given : α → Prop} {reading : Reading α} {next : α → Reading β}
    (first : Gives given reading)
    (later : ∀ value, given value → Gives holds (next value)) : Gives holds (reading >>= next) :=
  fun state => Ends.bind (first state) fun value after giving => later value giving after

/-- It only matters what comes last. -/
theorem last {reading : Reading α} {next : α → Reading β}
    (later : ∀ value, Gives holds (next value)) :
    Gives holds (reading >>= next) :=
  bind (fun state => Ends.trivial (reading state)) fun value _ => later value

theorem ite {condition : Prop} [Decidable condition] {yes no : Reading β} (first : Gives holds yes)
    (second : Gives holds no) : Gives holds (if condition then yes else no) := by
  split
  · exact first
  · exact second

theorem found {reading : Reading β} (gives : Gives holds reading) (origin state : ReadState) :
    Ends (fun _ => True) (fun value after => (∀ it ∈ value, holds it) ∧
      (value = none → after = origin))
      ((some <$> reading) state) := by
  rw [map_eq_bind]
  refine Ends.bind (gives state) fun value after holding => ?_
  refine ⟨?_, nofun⟩
  rintro _ ⟨⟩
  exact holding

end Gives

end Gives

end Reading

/-- The part is no literal. -/
abbrev Part.Special (part : Part) : Prop :=
  part.literal? = none

/-- No expansion of the level is a literal. -/
def Inner.Special (inner : Inner) : Prop :=
  ∀ quoted, Reading.Finds Part.Special (inner.expansion quoted)

/-- A statement that has been read so far.  The first word, if nothing but words has been read,
stands in front of the text. -/
structure CallDraft.Opens (text : List Char) (draft : CallDraft) (state : ReadState) : Prop where
  straight : ∀ it ∈ draft.args, it.Straight
  begins : draft.assigns = [] → draft.redirects = [] →
    draft.args = [] ∧ state.skipBlanks.cursor.rest = text ∨
      ∃ others first, draft.args = others ++ [first] ∧ first.Spells wordDelimiters text

theorem Stmt.Starts.of_isCompound {text : List Char} {stmt : Stmt} {command : Command}
    (has : stmt.command = some command) (compound : command.isCompound = true) : stmt.Starts text :=
  fun word leads => absurd leads (not_leads_of_isCompound has compound word)

namespace Reading

variable {inner : Inner} {state : ReadState}

/-! ## Words -/

theorem singleQuoted_special (pos : Position) (dollar : Bool) :
    Gives Part.Special (singleQuoted pos dollar) := by
  refine .last fun _ => .last fun _ => .last fun text => ?_
  cases singleEnd? dollar 0 text with
  | none => exact .failAt _ _
  | some length => exact .last fun _ => .pure rfl

theorem glob_special (mark : Char) : Gives Part.Special (glob mark) := by
  refine .last fun _ => .last fun _ => .last fun text => ?_
  cases bracketEnd? '(' ')' 0 1 text with
  | none => exact .failAt _ _
  | some length => exact .last fun _ => .pure rfl

theorem backquoted_special : Gives Part.Special (backquoted inner) := by
  refine .last fun _ => .last fun _ => .last fun _ => .last fun text => ?_
  cases backquoteText? [] 0 text with
  | none => exact .failAt _ _
  | some ended => exact .last fun _ => .last fun _ => .pure rfl

theorem doubleQuoted_special (pos : Position) (dollar : Bool) :
    Gives Part.Special (doubleQuoted inner pos dollar) :=
  .last fun _ => .last fun _ => .last fun _ => .last fun _ =>
    .ite (.last fun _ => .pure rfl) (.failAt _ _)

theorem braced_special : Gives Part.Special (braced inner) :=
  .last fun _ => .last fun _ => .last fun _ => .last fun _ => .last fun _ =>
    .last fun _ => .last fun _ =>
    .last fun _ => .ite (.last fun _ => .pure rfl) (.failAt _ _)

theorem expansion_special (quoted : Bool) : Finds Part.Special (expansion inner quoted) := by
  intro state
  have found {part : Part} {after : ReadState} (special : part.Special) :
      (∀ it ∈ some part, it.Special) ∧ (some part = none → after = state) := by
    refine ⟨?_, nofun⟩
    rintro _ ⟨⟩
    exact special
  unfold expansion
  simp only [here_bind, rest_bind]
  cases state.cursor.rest.drop 1 with
  | nil => exact ⟨nofun, fun _ => rfl⟩
  | cons c rest =>
      simp only
      split
      · exact (singleQuoted_special _ _).found state (state.skip 1)
      split
      · exact (doubleQuoted_special _ _).found state (state.skip 1)
      split
      · split
        · exact Ends.bind (Ends.trivial _) fun _ _ _ => Ends.bind (Ends.trivial _) fun _ _ _ =>
            found rfl
        · exact Ends.bind (Ends.trivial _) fun _ _ _ => found rfl
      split
      · exact Ends.bind (Ends.trivial _) fun _ _ _ => Ends.bind (Ends.trivial _) fun _ _ _ =>
          found rfl
      split
      · exact braced_special.found state state
      split
      · exact found rfl
      split
      · exact found rfl
      · exact ⟨nofun, fun _ => rfl⟩

theorem wordRound_reads (special : inner.Special) {delimiters text : List Char}
    (lines : '\n' ∈ delimiters) {pieces : Pieces} (reads : pieces.Reads text state.cursor.rest) :
    Ends (fun _ => True) (Round.elim (fun pieces state => pieces.Reads text state.cursor.rest)
      fun parts _ => ∀ pos, Word.Spells delimiters text { pos, parts })
        (wordRound inner delimiters pieces state) := by
  have adding {reading : Reading Part} (gives : Gives Part.Special reading) :
      Ends (fun _ => True) (Round.elim (fun pieces state => pieces.Reads text state.cursor.rest)
        fun parts _ => ∀ pos, Word.Spells delimiters text { pos, parts })
        ((do return .again (pieces.add (← reading)) : Reading (Round Pieces (List Part))) state) :=
    Ends.bind (gives state) fun part after other => Pieces.Reads.add other
  unfold wordRound
  simp only [here_bind, rest_bind]
  cases shape : state.cursor.rest with
  | nil =>
      rw [shape] at reads
      exact reads.spells rfl
  | cons c rest =>
      rw [shape] at reads
      have literal {pos : Position} (other : c ≠ '\n') :
          (pieces.push pos [c]).Reads text (state.skip 1).cursor.rest := by
        rw [ReadState.skip_cursor, Cursor.advance_rest, shape]
        exact .push reads (by simpa using other.symm)
      simp only
      split
      next escape =>
        subst escape
        have behind : (state.skip 2).cursor.rest = rest.drop 1 := by
          rw [ReadState.skip_cursor, Cursor.advance_rest, shape]
          rfl
        rw [skip_bind]
        split
        next newline =>
          obtain ⟨further, rfl⟩ := List.head?_eq_some_iff.mp newline
          change pieces.Reads text (state.skip 2).cursor.rest
          exact behind ▸ reads.fold
        next other =>
          change (pieces.push state.cursor.position ('\\' :: rest.take 1)).Reads text
            (state.skip 2).cursor.rest
          exact behind ▸ reads.escape other
      split
      · exact Ends.bind (Ends.trivial _) fun _ _ _ => Pieces.Reads.add rfl
      split
      next ended => exact reads.spells ended
      next inside =>
        have other : c ≠ '\n' := by
          rintro rfl
          exact inside (List.contains_iff_mem.mpr lines)
        split
        · exact adding (glob_special _)
        split
        · exact adding (singleQuoted_special _ _)
        split
        · exact adding (doubleQuoted_special _ _)
        split
        · exact adding backquoted_special
        split
        · refine Ends.bind (special false state) ?_
          rintro (_ | part) after ⟨found, still⟩
          · obtain rfl := still rfl
            exact literal other
          · exact Pieces.Reads.add (found part rfl)
        · exact literal other

theorem wordUpTo_spells (special : inner.Special) {delimiters : List Char}
    (lines : '\n' ∈ delimiters)
    (state : ReadState) : Ends (fun _ => True)
    (fun word _ => word.Spells delimiters state.cursor.rest)
      (wordUpTo inner delimiters state) := by
  unfold wordUpTo
  simp only [here_bind]
  refine Ends.bind
    (Ends.iterate (fun pieces after => pieces.Reads state.cursor.rest after.cursor.rest)
    (fun _ => trivial) (fun _ _ reads => wordRound_reads special lines reads) _ _ _ (.empty _))
    fun parts after spells => ?_
  split
  · rw [current_bind]
    cases after.cursor.rest.head? <;> trivial
  · exact spells _

theorem word_spells (special : inner.Special) (state : ReadState) :
    Ends (fun _ => True) (fun word _ => word.Spells wordDelimiters state.cursor.rest)
      (word inner state) :=
  wordUpTo_spells special (by decide) state

/-! ## Compound commands -/

section Compound

theorem functionAfterName_compound (pos : Position) (name : String) :
    Gives (·.isCompound) (functionAfterName inner pos name) :=
  .last fun _ => .last fun _ => .last fun _ => .pure rfl

theorem arithmetic_compound : Gives (·.isCompound) (arithmetic inner) :=
  .last fun _ => .last fun _ => .last fun _ => .last fun _ => .pure rfl

theorem subshell_compound : Gives (·.isCompound) (subshell inner) :=
  .last fun _ => .last fun _ => .last fun _ => .last fun _ =>
    .ite (.last fun _ => .pure rfl) (.fail _)

theorem block_compound : Gives (·.isCompound) (block inner) :=
  .last fun _ => .last fun _ => .last fun _ => .last fun _ => .pure rfl

theorem conditional_compound (keyword : String) :
    Gives (·.isCompound) (conditional inner keyword) :=
  .last fun _ => .last fun _ => .last fun _ => .last fun _ => .last fun _ =>
    .last fun _ => .pure rfl

theorem loop_compound (keyword : String) : Gives (·.isCompound) (loop inner keyword) :=
  .last fun _ => .last fun _ => .last fun _ => .last fun _ => .pure rfl

theorem iteration_compound (keyword : String) : Gives (·.isCompound) (iteration inner keyword) :=
  .last fun _ => .last fun _ => .last fun _ => .last fun _ => .last fun _ => .pure rfl

theorem case_compound : Gives (·.isCompound) (case inner) :=
  .last fun _ => .last fun _ => .last fun _ => .last fun _ => .last fun _ => .last fun _ =>
    .last fun _ => .pure rfl

theorem keywordFunction_compound : Gives (·.isCompound) (keywordFunction inner) := by
  refine .last fun _ => .last fun _ => .last fun _ => .last fun word => ?_
  cases word.literal? with
  | none => exact .fail _
  | some name => exact .last fun _ => .last fun _ => .last fun _ => .last fun _ => .pure rfl

theorem test_compound : Gives (·.isCompound) (test inner) :=
  .last fun _ => .last fun _ => .last fun _ => .pure rfl

theorem compound?_compound : Finds (·.isCompound) (compound? inner) := by
  intro state
  unfold compound?
  simp only [cursor_bind]
  split
  · exact arithmetic_compound.found state state
  split
  · exact subshell_compound.found state state
  generalize compoundWords.find? state.cursor.atWord = word
  split
  · exact block_compound.found state state
  · exact (conditional_compound _).found state state
  · exact (loop_compound _).found state state
  · exact (loop_compound _).found state state
  · exact (iteration_compound _).found state state
  · exact (iteration_compound _).found state state
  · exact case_compound.found state state
  · exact keywordFunction_compound.found state state
  · exact test_compound.found state state
  · exact ⟨nofun, fun _ => rfl⟩

end Compound

/-! ## Statements -/

theorem finishCall_starts (pos : Position) {text : List Char} {draft : CallDraft}
    (opens : draft.Opens text state) :
    Gives (·.Starts text) (finishCall pos draft) := by
  unfold finishCall
  refine .ite (.ite (.fail _) (.pure ?_)) (.pure ?_)
  · rintro word (⟨-, found⟩ | ⟨-, joins, -⟩)
    · cases found
    · cases joins
  · rintro word (⟨-, found⟩ | ⟨-, joins, -⟩)
    · unfold Stmt.bareWord? at found
      split at found
      next first args call undirected =>
        simp only [Stmt.ofDraft, Option.some.injEq, Command.call.injEq,
          List.reverse_eq_nil_iff] at call undirected
        obtain ⟨-, unassigned, shape⟩ := call
        rcases opens.begins unassigned undirected with ⟨empty, -⟩ | ⟨others, start, whole, spells⟩
        · rw [empty] at shape
          cases shape
        · rw [whole, List.reverse_append] at shape
          cases shape
          exact (spells word found).2
      next => cases found
    · cases joins

theorem callFunction_starts (pos : Position) (draft : CallDraft) (text : List Char) :
    Gives (·.Starts text) (callFunction inner pos draft) := by
  unfold callFunction
  split
  next name redirects =>
    cases name.literal? with
    | none => exact .fail _
    | some function =>
        exact .bind (functionAfterName_compound _ _) fun command compound =>
          .pure (.of_isCompound rfl compound)
  next => exact .fail _

section Levels

variable (special : inner.Special)
include special

theorem callWord_opens (pos : Position) {text : List Char} {draft : CallDraft}
    (opens : draft.Opens text state) :
    Ends (fun _ => True) (Round.elim (fun draft state => draft.Opens text state) fun stmt _ =>
      stmt.Starts text)
      (callWord inner pos draft state.skipBlanks) := by
  unfold callWord
  refine Ends.bind (word_spells special state.skipBlanks) fun word after spelled => ?_
  have further : CallDraft.Opens text { draft with args := word :: draft.args } after := by
    refine ⟨List.forall_mem_cons.mpr ⟨fun literal found => (spelled literal found).1,
      opens.straight⟩, ?_⟩
    intro unassigned undirected
    refine .inr ?_
    rcases opens.begins unassigned undirected with ⟨first, same⟩ | ⟨others, first, shape, spells⟩
    · exact ⟨[], word, by rw [first]; rfl, same ▸ spelled⟩
    · exact ⟨word :: others, first, by rw [shape]; rfl, spells⟩
  generalize (if (draft.args.isEmpty && draft.assigns.isEmpty) = true then word.literal?
    else none) = keyword
  cases keyword.bind Declarator.of? with
  | some declarator =>
      have gives : Gives (·.Starts text) (declaration inner pos draft.redirects word declarator) :=
        .last fun _ => .pure (.of_isCompound rfl rfl)
      exact Ends.bind (gives after) fun _ _ starts => starts
  | none =>
      simp only
      split
      · have gives : Gives (·.Starts text) (evaluation inner pos draft.redirects word) :=
          .last fun _ => .pure (.of_isCompound rfl rfl)
        exact Ends.bind (gives after) fun _ _ starts => starts
      · exact further

theorem callRound_opens (pos : Position) {text : List Char} {draft : CallDraft}
    (opens : draft.Opens text state) :
    Ends (fun _ => True) (Round.elim (fun draft state => draft.Opens text state) fun stmt _ =>
      stmt.Starts text)
      (callRound inner pos draft state) := by
  unfold callRound
  simp only [skipBlanks_bind, redirectAt_bind]
  cases RedirectHead.starting? state.skipBlanks.cursor.rest with
  | some head => exact Ends.bind (Ends.trivial _) fun _ _ _ => ⟨opens.straight, nofun⟩
  | none =>
      have ended : Ends (fun _ => True)
          (Round.elim (fun draft state => draft.Opens text state) fun stmt _ => stmt.Starts text)
          ((do return .done (← finishCall pos draft) : Reading (Round CallDraft Stmt))
            state.skipBlanks) :=
        Ends.bind (finishCall_starts pos opens _) fun _ _ starts => starts
      simp only [current_bind]
      cases state.skipBlanks.cursor.rest.head? with
      | none => exact ended
      | some c =>
          simp only
          split
          · exact ended
          split
          · exact Ends.bind (callFunction_starts pos draft text _) fun _ _ starts => starts
          split
          · rw [rest_bind]
            cases AssignHead.of? state.skipBlanks.cursor.rest with
            | some head => exact Ends.bind (Ends.trivial _) fun _ _ _ => ⟨opens.straight, nofun⟩
            | none => exact callWord_opens special pos opens
          · exact callWord_opens special pos opens

theorem command_starts (state : ReadState) :
    Ends (fun _ => True) (fun stmt _ => stmt.Starts state.skipBlanks.cursor.rest)
      (command inner state) := by
  unfold command
  rw [skipBlanks_bind, here_bind]
  refine Ends.bind (compound?_compound state.skipBlanks) ?_
  rintro (_ | command) after ⟨compound, still⟩
  · obtain rfl := still rfl
    refine Ends.iterate (fun draft after => draft.Opens state.skipBlanks.cursor.rest after)
      (fun _ => trivial)
      (fun _ _ opens => callRound_opens special _ opens) _ _ _ ⟨List.forall_mem_nil _,
        fun _ _ => .inl ⟨rfl, ?_⟩⟩
    rw [ReadState.skipBlanks_skipBlanks]
  · exact Ends.bind (Ends.trivial _) fun _ _ _ => .of_isCompound rfl (compound command rfl)

omit special

theorem join_starts {text : List Char} {left : Stmt} (starts : left.Starts text)
    (connective : Connective) (right : Reading Stmt) (state : ReadState) :
    Ends (fun _ => True) (Round.elim (fun stmt _ => stmt.Starts text) fun stmt _ =>
      stmt.Starts text)
      (join inner left connective right state) := by
  refine Ends.bind (Ends.trivial _) fun _ _ _ => Ends.bind (Ends.trivial _) fun _ _ _ =>
    Ends.bind (Ends.trivial _) fun stmt _ _ => ?_
  rintro word (⟨-, found⟩ | ⟨-, joins, leads⟩)
  · cases found
  · cases joins
    exact starts word leads

include special

theorem pipes_starts (state : ReadState) :
    Ends (fun _ => True) (fun stmt _ => stmt.Starts state.skipBlanks.cursor.rest)
      (pipes inner state) := by
  unfold pipes
  refine Ends.bind (command_starts special state) fun left after starts => ?_
  refine Ends.iterate (fun stmt _ => stmt.Starts state.skipBlanks.cursor.rest) (fun _ => trivial)
    (fun left after starts => ?_) _ _ _ starts
  unfold pipelineRound
  simp only [skipBlanks_bind, rest_bind]
  cases Connective.pipe? after.skipBlanks.cursor.rest with
  | some connective => exact join_starts starts connective _ _
  | none => exact starts

theorem pipeline_starts (state : ReadState) :
    Ends (fun _ => True) (fun stmt _ => stmt.Starts state.skipBlanks.cursor.rest)
      (pipeline inner state) := by
  unfold pipeline
  rw [skipBlanks_bind, here_bind, rest_bind]
  split
  · refine Ends.bind (Ends.trivial _) fun _ _ _ => Ends.bind (Ends.trivial _) fun _ _ _ => ?_
    rintro word (⟨negated, -⟩ | ⟨negated, -, -⟩) <;> cases negated
  · have starts := pipes_starts special state.skipBlanks
    rwa [ReadState.skipBlanks_skipBlanks] at starts

/-- The bare word that is run first is spelled where the statement starts. -/
theorem logic_starts (state : ReadState) :
    Ends (fun _ => True) (fun stmt _ => stmt.Starts state.skipBlanks.cursor.rest)
      (logic inner state) := by
  unfold logic
  refine Ends.bind (pipeline_starts special state) fun left after starts => ?_
  refine Ends.iterate (fun stmt _ => stmt.Starts state.skipBlanks.cursor.rest) (fun _ => trivial)
    (fun left after starts => ?_) _ _ _ starts
  unfold logicRound
  simp only [skipBlanks_bind, rest_bind]
  cases Connective.logical? after.skipBlanks.cursor.rest with
  | some connective => exact join_starts starts connective _ _
  | none => exact starts

end Levels

end Reading
end RecipeLint
