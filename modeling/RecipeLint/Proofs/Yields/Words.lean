import Mathlib.Data.List.TakeWhile
import RecipeLint.Proofs.Heads
import RecipeLint.Proofs.Scanning
import RecipeLint.Proofs.Yields

/-!
# What readings of words yield

The parts of a word are gathered one after another.  The literal that is being gathered stands in
front of the text that is left, and whatever directly follows a plain parameter in braces is the
next character of that text. -/

namespace RecipeLint

open Reading

variable {part : Part} {rest : List Char} {pos : Position} {state : ReadState}
  {redirects : List Redirect}

variable {ground : Ground} {pending : Pending}

/-! ## Gathering parts -/

/-- What could go on a plain parameter in braces is in front of the text. -/
def Part.Borders (ground : Ground) (part : Part) (text : List Char) : Prop :=
  ∀ source ∈ ground, ∀ c, part.Continued source c → text.head? = some c

theorem Part.borders_of_plain? (other : part.plain? = none) (text : List Char) :
    part.Borders ground text := by
  rintro source _ c ⟨_, pos, name, plain, _⟩
  rw [other] at plain
  cases plain

theorem chain_concat {source : List Char} {parts : List Part} {next : Option Char} :
    Chain source (parts ++ [part]) next ↔
      Chain source parts part.initial? ∧ ∀ c, part.Continued source c → next = some c := by
  induction parts with
  | nil => simp [Chain]
  | cons first parts ih =>
      rw [List.cons_append, Chain, Chain, ih, and_assoc]
      cases parts <;> rfl

/-- In front of a character that no name has, it does not matter what follows. -/
theorem Chain.relax {source : List Char} {parts : List Part} {next other : Option Char}
    (chain : Chain source parts next) (special : ∀ c ∈ next, isNameChar c = false) :
    Chain source parts other := by
  rcases List.eq_nil_or_concat parts with rfl | ⟨front, part, rfl⟩
  · trivial
  · rw [List.concat_eq_append, chain_concat] at chain ⊢
    refine ⟨chain.1, fun c continued => ?_⟩
    have plain := special c (chain.2 c continued)
    rw [continued.1] at plain
    cases plain

namespace Pieces

/-- A word that is being read in front of some text. -/
structure Gathered (ground : Ground) (pieces : Pieces) (text : List Char) : Prop where
  closed : ∀ part ∈ pieces.parts.head?, part.literal? = none
  separate : Separate pieces.parts
  filled : Filled pieces.parts
  written : pieces.run ≠ [] → ∀ source ∈ ground, ∃ written back,
    Stands source pieces.start written (text ++ back) ∧ Joins written pieces.run.reverse
  chained : ∀ source ∈ ground, Chain source pieces.finish text.head?

/-- The parts gathered so far are drafts. -/
def Drafted (ground : Ground) (pending : Pending) (pieces : Pieces) : Prop :=
  ∀ part ∈ pieces.parts, (Node.part part).Drafted ground pending

theorem flush_parts_of_run {pieces : Pieces} (filled : pieces.run ≠ []) :
    pieces.flush.parts =
      .literal pieces.start (String.ofList pieces.run.reverse) :: pieces.parts := by
  simp [flush, filled]

theorem flush_of_not_run {pieces : Pieces} (empty : pieces.run = []) : pieces.flush = pieces := by
  simp [flush, empty]

theorem finish_of_run {pieces : Pieces} (filled : pieces.run ≠ []) :
    pieces.finish = pieces.parts.reverse ++
      [.literal pieces.start (String.ofList pieces.run.reverse)] := by
  rw [finish, flush_parts_of_run filled, List.reverse_cons]

theorem finish_of_not_run {pieces : Pieces} (empty : pieces.run = []) :
    pieces.finish = pieces.parts.reverse := by
  rw [finish, flush_of_not_run empty]

theorem initial?_literal (pos : Position) (chars : List Char) :
    (Part.literal pos (String.ofList chars)).initial? = chars.head? := by
  simp [Part.initial?, Part.literal?]

theorem gathered_empty (pos : Position) (text : List Char) : Gathered ground (.empty pos) text :=
  ⟨nofun, .nil, nofun, fun filled => absurd rfl filled, fun _ _ => trivial⟩

namespace Gathered

variable {pieces : Pieces} {text : List Char}

/-- More literal characters. -/
theorem push {chars : List Char} (gathered : Gathered ground pieces (chars ++ rest))
    (some : chars ≠ []) (lies : ground.Lies pos (chars ++ rest)) :
    Gathered ground (pieces.push pos chars) rest := by
  have filled : (pieces.push pos chars).run ≠ [] := by simp [Pieces.push, some]
  refine ⟨gathered.closed, gathered.separate, gathered.filled, fun _ source known => ?_,
    fun source known => ?_⟩
  · rcases eq_or_ne pieces.run [] with empty | before
    · obtain ⟨back, stands, -⟩ := lies source known
      refine ⟨chars, back, ?_, ?_⟩
      · simpa [Pieces.push, empty] using stands.front
      · simpa [Pieces.push, empty] using Joins.refl chars
    · obtain ⟨written, back, stands, joins⟩ := gathered.written before source known
      refine ⟨written ++ chars, back, ?_, ?_⟩
      · obtain ⟨front, whole, start⟩ := stands
        refine ⟨front, ?_, by simpa [Pieces.push, before] using start⟩
        simpa only [List.append_assoc] using whole
      · simpa [Pieces.push] using joins.append (.refl chars)
  · have chain := gathered.chained source known
    have first : (chars ++ rest).head? = chars.head? := List.head?_append_of_ne_nil _ some
    rw [finish_of_run filled, chain_concat, initial?_literal]
    refine ⟨?_, fun c continued => absurd continued.2 (by simp [Part.plain?])⟩
    rcases eq_or_ne pieces.run [] with empty | before
    · rw [finish_of_not_run empty, first] at chain
      simpa [Pieces.push, empty] using chain
    · rw [finish_of_run before, chain_concat, initial?_literal] at chain
      have longer : (pieces.push pos chars).run.reverse = pieces.run.reverse ++ chars := by
        simp [Pieces.push]
      rw [longer, List.head?_append_of_ne_nil _ (by simpa using before)]
      exact chain.1

theorem push_escape {c : Char}
    (gathered : Gathered ground pieces (c :: rest)) (lies : ground.Lies pos (c :: rest)) :
    Gathered ground (pieces.push pos (c :: rest.take 1)) (rest.drop 1) := by
  have split : c :: rest = (c :: rest.take 1) ++ rest.drop 1 := by
    rw [List.cons_append, List.take_append_drop]
  rw [split] at gathered lies
  exact gathered.push (List.cons_ne_nil _ _) lies

/-- An escaped newline is left out. -/
theorem fold (gathered : Gathered ground pieces ('\\' :: '\n' :: rest)) :
    Gathered ground pieces rest where
  closed := gathered.closed
  separate := gathered.separate
  filled := gathered.filled
  written before source known := by
    obtain ⟨written, back, ⟨front, whole, start⟩, joins⟩ := gathered.written before source known
    refine ⟨written ++ ['\\', '\n'], back, ⟨front, ?_, start⟩, ?_⟩
    · rw [whole]
      simp
    · have := joins.append (.fold .nil)
      rwa [List.append_nil] at this
  chained source known := by
    refine (gathered.chained source known).relax ?_
    rintro c ⟨⟩
    decide

theorem flush_separate (gathered : Gathered ground pieces text) : Separate pieces.flush.parts := by
  rcases eq_or_ne pieces.run [] with empty | before
  · rw [flush_of_not_run empty]
    exact gathered.separate
  · rw [flush_parts_of_run before]
    exact List.isChain_cons.mpr ⟨fun part first => .inr (gathered.closed part first),
      gathered.separate⟩

theorem flush_filled (gathered : Gathered ground pieces text) : Filled pieces.flush.parts := by
  rcases eq_or_ne pieces.run [] with empty | before
  · rw [flush_of_not_run empty]
    exact gathered.filled
  · intro part member
    rw [flush_parts_of_run before] at member
    rcases List.mem_cons.mp member with rfl | old
    · simpa [Part.literal?] using before
    · exact gathered.filled part old

theorem flush_drafted (gathered : Gathered ground pieces text)
    (drafted : pieces.Drafted ground pending) :
    pieces.flush.Drafted ground pending := by
  rcases eq_or_ne pieces.run [] with empty | before
  · rwa [flush_of_not_run empty]
  · intro part member
    rw [flush_parts_of_run before] at member
    rcases List.mem_cons.mp member with rfl | old
    · refine .part (fun source known => ?_) (fun source known => ?_) trivial rfl nofun
      · obtain ⟨written, back, stands, -⟩ := gathered.written before source known
        exact stands.occurs
      · obtain ⟨written, back, stands, joins⟩ := gathered.written before source known
        exact ⟨written, ⟨text ++ back, stands⟩, by simpa using joins⟩
    · exact drafted part old

/-- A further part behind the literal characters. -/
theorem add {behind : List Char} (gathered : Gathered ground pieces text)
    (special : ∀ c ∈ text.head?, isNameChar c = false) (other : part.literal? = none)
    (borders : part.Borders ground behind) : Gathered ground (pieces.add part) behind where
  closed := by
    rintro _ ⟨⟩
    exact other
  separate := List.isChain_cons.mpr ⟨fun _ _ => .inl other, gathered.flush_separate⟩
  filled := by
    intro it member
    rcases List.mem_cons.mp member with rfl | old
    · simp [other]
    · exact gathered.flush_filled it old
  written filled := by
    have empty : (pieces.add part).run = [] := by
      obtain ⟨parts, run, start⟩ := pieces
      cases run <;> rfl
    exact absurd empty filled
  chained source known := by
    rw [finish_add, chain_concat]
    exact ⟨(gathered.chained source known).relax special, borders source known⟩

theorem add_drafted (gathered : Gathered ground pieces text)
    (drafted : pieces.Drafted ground pending) (new : (Node.part part).Drafted ground pending) :
    (pieces.add part).Drafted ground pending := by
  intro it member
  rcases List.mem_cons.mp member with rfl | old
  · exact new
  · exact gathered.flush_drafted drafted it old

/-- All parts of the word. -/
theorem finish (gathered : Gathered ground pieces text)
    (special : ∀ c ∈ text.head?, isNameChar c = false) (drafted : pieces.Drafted ground pending) :
    Parts ground pending pieces.finish where
  separate := by
    rw [Separate, Pieces.finish, List.isChain_reverse]
    exact gathered.flush_separate.imp fun _ _ => Or.symm
  filled part member := gathered.flush_filled part (List.mem_reverse.mp member)
  chained source known := (gathered.chained source known).relax special
  drafted part member := gathered.flush_drafted drafted part (List.mem_reverse.mp member)

end Gathered

end Pieces

/-- What stands behind a part that has been read. -/
structure Part.Behind (ground : Ground) (part : Part) (text : List Char) : Prop where
  other : part.literal? = none
  borders : part.Borders ground text

theorem Part.behind_of_plain? (other : part.literal? = none) (plain : part.plain? = none)
    (text : List Char) : part.Behind ground text :=
  ⟨other, borders_of_plain? plain text⟩

/-- A reading of a part in front of a text. -/
abbrev YieldsPart (ground : Ground) (text : List Char) (reading : Reading Part) : Prop :=
  YieldsFreely ground (· = text) reading (Part.Behind ground)
    fun stage part => (Node.part part).Drafted ground stage.inside

/-- A reading of an expansion; where there is none, the dollar sign is left in front of the text. -/
abbrev YieldsExpansion (ground : Ground) (text start : List Char)
    (reading : Reading (Option Part)) : Prop :=
  YieldsFreely ground (· = start) reading
    (fun part behind => part.elim (behind = '$' :: text) (Part.Behind ground · behind))
    fun stage part => ∀ it ∈ part, (Node.part it).Drafted ground stage.inside

/-- A word that has been read. -/
abbrev Word.Drafted (ground : Ground) (pending : Pending) (word : Word) : Prop :=
  (Node.word word).Drafted ground pending ∧ word.parts ≠ []

theorem Field.Drafted.operand {slot : Slot} {word : Option Word}
    (drafted : ∀ it ∈ word, it.Drafted ground pending) :
    ∀ field ∈ Field.optional slot .word word, Field.Drafted ground pending false field :=
  Field.forall_optional.mpr fun it member => .word (drafted it member).1 (drafted it member).2

/-- The productions one level further in yield drafts.  A source with backquotes is not known, since
the positions inside of them are not its own. -/
structure Inner.Yielding (ground : Ground) (inner : Inner) : Prop where
  quiet : ∀ source ∈ ground, '\x60' ∉ source
  statements : ∀ stops, YieldsAll ground (inner.statements stops)
    fun stage items => ∀ item ∈ items, item.node.Drafted ground stage.pending
  command : YieldsFreely ground (fun _ => True) inner.command
    (fun stmt _ => stmt.background = false) fun stage stmt =>
      (Node.stmt stmt).Drafted ground stage.pending
  furtherConditional : YieldsAll ground inner.furtherConditional
    fun stage command => (Node.command command).Drafted ground stage.pending
  expansion : ∀ quoted text, YieldsExpansion ground text ('$' :: text) (inner.expansion quoted)

section Gathers

variable {γ : Type} {view : γ → Pieces} {value next : γ} {text : List Char}

/-- A round of a loop that gathers parts. -/
abbrev Gathers (ground : Ground) (view : γ → Pieces) (value : γ) (kind : List Char → Prop)
    (reading : Reading (Round γ (List Part))) : Prop :=
  Yields ground (fun stage => (view value).Drafted ground stage.inside) kind reading
    (fun turn text => turn.elim (fun next => (view next).Gathered ground text) fun _ => True)
    fun stage turn => turn.elim (fun next => (view next).Drafted ground stage.inside)
      (Parts ground stage.inside)

namespace Gathers

theorem again (gathered : (view next).Gathered ground text)
    (parts : (view next).parts = (view value).parts) :
    Gathers ground view value (· = text) (pure (.again next)) := by
  refine .pure (fun _ same => ?_) fun stage drafted => ?_
  · obtain rfl := same
    exact gathered
  · intro part member
    rw [parts] at member
    exact drafted part member

theorem add {reading : Reading Part} {next : Part → γ}
    (gathered : (view value).Gathered ground text)
    (special : ∀ c ∈ text.head?, isNameChar c = false)
    (views : ∀ part, view (next part) = (view value).add part)
    (yields : YieldsPart ground text reading) :
    Gathers ground view value (· = text) (reading >>= fun part => pure (.again (next part))) := by
  refine yields.any.bind fun part => .pure (fun behind stops => ?_) fun stage known => ?_
  · change (view (next part)).Gathered ground behind
    rw [views]
    exact gathered.add special stops.other stops.borders
  · change (view (next part)).Drafted ground stage.inside
    rw [views]
    exact gathered.add_drafted known.1 known.2

theorem finish (gathered : (view value).Gathered ground text)
    (special : ∀ c ∈ text.head?, isNameChar c = false) :
    Gathers ground view value (· = text) (pure (.done (view value).finish)) :=
  .pure (fun _ _ => trivial) fun _ drafted => gathered.finish special drafted

/-- A dollar sign is read as an expansion or taken literally. -/
theorem expansion {inner : Inner} (yielding : inner.Yielding ground) {quoted : Bool}
    {taken : Part → γ} (gathered : (view value).Gathered ground ('$' :: text))
    (lies : ground.Lies pos ('$' :: text)) (views : ∀ part, view (taken part) =
      (view value).add part)
    (literal : view next = (view value).push pos ['$']) :
    Gathers ground view value (· = '$' :: text) (do
      match ← inner.expansion quoted with
      | some part => return .again (taken part)
      | none =>
          skip 1
          return .again next) := by
  refine (yielding.expansion quoted text).any.bind fun part => ?_
  cases part with
  | some part =>
      refine .pure (fun behind stops => ?_) fun stage known => ?_
      · change (view (taken part)).Gathered ground behind
        rw [views]
        exact gathered.add (by rintro c ⟨⟩; decide) stops.other stops.borders
      · change (view (taken part)).Drafted ground stage.inside
        rw [views]
        exact gathered.add_drafted known.1 (known.2 part rfl)
  | none =>
      refine .pin fun _ same => ?_
      obtain rfl := same
      refine .skip 1 (.pure (fun behind same => ?_) fun stage known => ?_)
      · obtain rfl : behind = text := same
        change (view next).Gathered ground behind
        rw [literal]
        exact gathered.push (List.cons_ne_nil _ _) lies
      · change (view next).Drafted ground stage.inside
        rw [literal]
        exact known.1

end Gathers

/-- A loop that gathers the parts of a word. -/
theorem Yields.gathers {step : γ → Reading (Round γ (List Part))} {given : Stage → Prop}
    {kind : List Char → Prop} {rounds : Nat}
    (round : ∀ value, Gathers ground view value ((view value).Gathered ground) (step value))
    (start : view value = .empty pos) :
    Yields ground given kind (Reading.iterate step rounds value) (fun _ _ => True)
      fun stage parts => Parts ground stage.inside parts := by
  refine .iterate round (fun stage _ => ?_) fun text _ => ?_
  · rw [start]
    exact nofun
  · rw [start]
    exact Pieces.gathered_empty pos text

end Gathers

/-! ## Quoted parts -/

theorem take_append_cons_drop {text : List Char} {count : Nat} {c : Char}
    (found : text[count]? = some c) :
    text = text.take count ++ c :: text.drop (count + 1) := by
  obtain ⟨inside, last⟩ := List.getElem?_eq_some_iff.mp found
  rw [← last, ← List.drop_eq_getElem_cons inside, List.take_append_drop]

theorem singleQuoted_yields {dollar : Bool} {text : List Char}
    (lies : ground.Lies pos ((if dollar then ['$'] else []) ++ '\'' :: text)) :
    YieldsPart ground ('\'' :: text) (singleQuoted pos dollar) := by
  refine .here fun opening _ same lies' => ?_
  subst same
  refine .skip 1 (.restAt ?_)
  dsimp only [List.drop]
  cases found : singleEnd? dollar 0 text with
  | none => exact .failAt lies'.holds _
  | some length =>
      obtain ⟨count, rfl, closed⟩ := singleEnd?_found found
      refine .skip _ (.pure (fun _ _ => Part.behind_of_plain? rfl rfl _) fun stage _ =>
        .part lies.holds (fun source known => ?_) trivial rfl (List.forall_mem_nil _))
      have split := take_append_cons_drop closed
      have written : (if dollar then ['$'] else []) ++ '\'' :: text =
          ((if dollar then ['$'] else []) ++ '\'' :: text.take count ++ ['\'']) ++
          text.drop (count + 1) := by
        conv => lhs; rw [split]
        simp
      rw [written] at lies
      simpa [Part.Spelled] using lies.occurs source known

section Levels

variable {inner : Inner} (yielding : inner.Yielding ground)

/-- A draft of items is complete when the text has been read to its end. -/
theorem finished_items {items : List Item}
    (sound : Sound ground redirects state) (whole : (state.stage redirects).pending.Whole ground)
    (drafted : ∀ item ∈ items, item.node.Drafted ground (state.stage redirects).pending) :
    ∀ item ∈ placeItems state.bodies items, item.node.Everywhere (Finished ground) := by
  intro item member
  rw [placeItems_eq_map] at member
  obtain ⟨other, inside, rfl⟩ := List.mem_map.mp member
  rw [Item.node_place]
  exact (drafted other inside).place whole sound.takes sound.settled

include yielding

variable {text : List Char}

theorem backquoted_yields :
    YieldsPart ground ('\x60' :: text) (backquoted inner) := by
  refine .here fun pos _ same lies => ?_
  subst same
  have unknown (source : List Char) (known : source ∈ ground) : False := by
    obtain ⟨_, ⟨_, whole, _⟩, -⟩ := lies source known
    exact yielding.quiet source known (by simp [whole])
  refine .skip 1 (.here fun start _ _ _ => .rest fun _ same => ?_)
  cases backquoteText? [] 0 _ with
  | none => exact .failAt lies.holds _
  | some found =>
      obtain ⟨inside, length⟩ := found
      refine .skip _ (.bind (.within (fun source known => (unknown source known).elim)
        (?_ : YieldsFreely ground (· = inside) _ (fun _ _ => True)
          fun stage items => ∀ item ∈ items, item.node.Drafted ground stage.pending))
            fun outcome => ?_)
      · refine .bind (yielding.statements []).anywhere fun items => .current fun text _ => ?_
        cases text.head? with
        | none => exact .returns fun _ known => known.2
        | some c => exact .fail _
      refine .pin fun _ ⟨_, state, redirects, sound, bodies, _, drafted⟩ => ?_
      refine .pure (fun _ _ => Part.behind_of_plain? rfl rfl _) fun stage _ =>
        .part lies.holds (fun _ _ => trivial) trivial rfl ?_
      refine Field.forall_many.mpr fun item member => ?_
      rw [← bodies] at member
      have finished := finished_items sound (fun source known => (unknown source known).elim)
        drafted item member
      refine ⟨⟨fun _ => ?_, fun _ word same => ?_⟩, nofun, fun _ => finished⟩
      · cases item <;> exact nofun
      · cases item <;> cases same

theorem quotedRound_yields {stop : Option Char} (special : ∀ c ∈ stop, isNameChar c = false)
    (pieces : Pieces) :
    Gathers ground id pieces (pieces.Gathered ground) (quotedRound inner stop pieces) := by
  refine .here fun pos text gathered lies => .restAt ?_
  cases text with
  | nil => exact Gathers.finish gathered nofun
  | cons c rest =>
      refine .ite (fun stopped => Gathers.finish gathered ?_) fun _ =>
        .ite (fun escape => ?_) fun _ =>
        .ite (fun backquote => ?_) fun _ => .ite (fun dollar => ?_) fun _ =>
        .skip 1 (Gathers.again (gathered.push (List.cons_ne_nil _ _) lies) rfl)
      · rintro d ⟨⟩
        exact special _ stopped
      · subst escape
        refine .ite (fun newline => ?_) fun _ =>
          .ite (fun _ => .skip 2 (Gathers.again (gathered.push_escape lies) rfl))
          fun _ => .skip 1 (Gathers.again (gathered.push (List.cons_ne_nil _ _) lies) rfl)
        obtain ⟨rest, rfl⟩ := List.head?_eq_some_iff.mp newline
        exact .skip 2 (Gathers.again gathered.fold rfl)
      · subst backquote
        exact Gathers.add gathered (by rintro d ⟨⟩; decide) (fun _ => rfl)
          (backquoted_yields yielding)
      · subst dollar
        exact Gathers.expansion yielding gathered lies (fun _ => rfl) rfl

theorem quotedParts_yields {stop : Option Char} (special : ∀ c ∈ stop, isNameChar c = false) :
    YieldsAll ground (quotedParts inner stop) fun stage parts =>
      Parts ground stage.inside parts := by
  exact .here fun pos _ _ _ => .gathers (quotedRound_yields yielding special) rfl

theorem doubleQuoted_yields {dollar : Bool} (holds : ground.Holds pos) :
    YieldsPart ground text (doubleQuoted inner pos dollar) := by
  refine .here fun opening _ _ lies => .skipAny 1 ?_
  refine .bind (quotedParts_yields yielding (by rintro c ⟨⟩; decide)).anywhere fun parts =>
    .current fun _ _ =>
      .ite (fun _ => .skip 1 (.pure (fun _ _ => Part.behind_of_plain? rfl rfl _) ?_))
      fun _ => .failAt lies.holds _
  exact fun stage known => .double holds known.2

theorem inlineWord_yields {given : Stage → Prop} {kind : List Char → Prop}
    (lies : ground.Lies pos text) :
    Yields ground given kind (inlineWord inner text pos)
      (fun word behind => kind behind ∧ word.Complete ground) fun _ _ => True := by
  have endless : ∀ c ∈ (none : Option Char), isNameChar c = false := nofun
  have parts : YieldsFreely ground (· = text) (quotedParts inner none) (fun _ _ => True)
      fun stage parts => Parts ground stage.inside parts :=
    (quotedParts_yields yielding endless).anywhere
  refine .bind (.within lies parts) fun outcome => .pure (fun behind stops => ⟨stops.1, ?_⟩)
    fun _ _ => trivial
  obtain ⟨-, state, redirects, sound, bodies, -, held⟩ := stops
  have drafted : (Node.word ⟨pos, outcome.1⟩).Drafted ground (state.stage redirects).inside :=
    .word lies.holds held
  rw [← bodies]
  exact ⟨drafted.place nofun sound.takes sound.settled, held.filled.place state.bodies⟩

/-- What is enclosed in parentheses waits for nothing but here-documents. -/
theorem substituted_yields (opening : String) : YieldsAll ground (substituted inner opening)
    fun stage items => ∀ item ∈ items, item.node.Drafted ground stage.inside := by
  refine .here fun pos _ _ lies => .skipAny 2 ?_
  intro state redirects sound _
  refine Ends.bind (yielding.statements [")"] state redirects sound trivial) ?_
  rintro items after ⟨others, leads, sound, -, drafted⟩
  rw [current_bind]
  by_cases closed : after.cursor.rest.head? = some ')'
  · have more : after.cursor.rest ≠ [] := by
      intro empty
      rw [empty] at closed
      cases closed
    have moved := sound.move (Cursor.advance_passes 1 after.cursor)
    rw [if_pos closed]
    refine ⟨others, leads.trans moved.2, moved.1, trivial, fun later further _ item member => ?_⟩
    have inside : (after.stage others).pending.Le later.inside :=
      (Stage.pending_le_inside more).trans (moved.2.trans further).inside
    exact (drafted _ (.refl _) trivial item member).imp inside
  · rw [if_neg closed]
    exact lies.holds

/-! ## Expansions -/

theorem arithmeticRound_yields {opening : Position} (holds : ground.Holds opening)
    {closing : String}
    (filled : closing.toList ≠ []) (special : ∀ c ∈ closing.toList.head?, isNameChar c = false)
    (nested : Nested Int) :
    Gathers ground Nested.pieces nested (nested.pieces.Gathered ground)
      (arithmeticRound inner opening closing nested) := by
  refine .here fun pos text gathered lies => .restAt ?_
  cases text with
  | nil => exact .failAt holds _
  | cons c rest =>
      refine .cursor fun cursor same => ?_
      have literal (depth : Int) : Gathers ground Nested.pieces nested (· = cursor.rest) (do
          skip 1
          return .again { pieces := nested.pieces.push pos [c], depth }) := by
        rw [same]
        exact .skip 1 (Gathers.again (gathered.push (List.cons_ne_nil _ _) lies) rfl)
      rw [same] at literal ⊢
      refine .ite (fun closed => Gathers.finish gathered ?_) fun _ => .ite (fun fold => ?_) fun _ =>
        .ite (fun dollar => ?_) fun _ => .ite (fun backquote => ?_) fun _ =>
          .ite (fun quote => ?_) fun _ =>
        .ite (fun _ => literal _) fun _ => .ite (fun _ => literal _) fun _ => literal _
      · obtain ⟨-, starts⟩ := Bool.and_eq_true_iff.mp closed
        obtain ⟨behind, whole⟩ := Cursor.rest_of_startsWith starts
        rw [← same, whole, List.head?_append_of_ne_nil _ filled]
        exact special
      · obtain ⟨escape, newline⟩ := Bool.and_eq_true_iff.mp fold
        obtain rfl := of_decide_eq_true escape
        obtain ⟨rest, rfl⟩ := List.head?_eq_some_iff.mp (of_decide_eq_true newline)
        exact .skip 2 (Gathers.again gathered.fold rfl)
      · subst dollar
        exact Gathers.expansion yielding gathered lies (fun _ => rfl) rfl
      · subst backquote
        exact Gathers.add gathered (by rintro d ⟨⟩; decide) (fun _ => rfl)
          (backquoted_yields yielding)
      · subst quote
        exact Gathers.add gathered (by rintro d ⟨⟩; decide) (fun _ => rfl)
          (doubleQuoted_yields yielding lies.holds)

theorem arithmeticParts_yields {closing : String} (filled : closing.toList ≠ [])
    (special : ∀ c ∈ closing.toList.head?, isNameChar c = false) :
    YieldsAll ground (arithmeticParts inner closing) fun stage parts =>
      Parts ground stage.inside parts := by
  exact .here fun opening _ _ lies =>
    .bind (.gathers (arithmeticRound_yields yielding lies.holds filled special) rfl)
    fun parts => .skipAny _ (.returns fun _ known => known.2)

theorem operandRound_yields {stops : List Char} (special : ∀ c ∈ stops, isNameChar c = false)
    (nested : Nested Nat) :
    Gathers ground Nested.pieces nested (nested.pieces.Gathered ground)
      (operandRound inner stops nested) := by
  refine .here fun pos text gathered lies => .restAt ?_
  cases text with
  | nil => exact .fail _
  | cons c rest =>
      have literal (depth : Nat) : Gathers ground Nested.pieces nested (· = c :: rest) (do
          skip 1
          return .again { pieces := nested.pieces.push pos [c], depth }) :=
        .skip 1 (Gathers.again (gathered.push (List.cons_ne_nil _ _) lies) rfl)
      refine .ite (fun stopped => Gathers.finish gathered ?_) fun _ =>
        .ite (fun escape => ?_) fun _ =>
        .ite (fun single => ?_) fun _ => .ite (fun double => ?_) fun _ =>
          .ite (fun backquote => ?_) fun _ =>
        .ite (fun dollar => ?_) fun _ => .ite (fun _ => literal _) fun _ =>
          .ite (fun _ => literal _)
        fun _ => literal _
      · rintro d ⟨⟩
        obtain ⟨-, member⟩ := Bool.and_eq_true_iff.mp stopped
        exact special _ (List.contains_iff_mem.mp member)
      · subst escape
        refine .skip 2 (.ite (fun newline => ?_) fun _ =>
          Gathers.again (gathered.push_escape lies) rfl)
        obtain ⟨rest, rfl⟩ := List.head?_eq_some_iff.mp newline
        exact Gathers.again gathered.fold rfl
      · subst single
        exact Gathers.add gathered (by rintro d ⟨⟩; decide) (fun _ => rfl)
          (singleQuoted_yields lies)
      · subst double
        exact Gathers.add gathered (by rintro d ⟨⟩; decide) (fun _ => rfl)
          (doubleQuoted_yields yielding lies.holds)
      · subst backquote
        exact Gathers.add gathered (by rintro d ⟨⟩; decide) (fun _ => rfl)
          (backquoted_yields yielding)
      · subst dollar
        exact Gathers.expansion yielding gathered lies (fun _ => rfl) rfl

theorem operand_yields {stops : List Char} (special : ∀ c ∈ stops, isNameChar c = false) :
    YieldsAll ground (operand inner stops) fun stage word =>
      ∀ it ∈ word, it.Drafted ground stage.inside := by
  refine .here fun pos _ _ lies => .bind (.gathers (operandRound_yields yielding special) rfl)
    fun parts =>
    .returns fun stage known => ?_
  cases parts with
  | nil => exact nofun
  | cons part parts =>
      rintro it ⟨⟩
      exact ⟨.word lies.holds known.2, List.cons_ne_nil _ _⟩

theorem index_yields : YieldsFreely ground (fun _ => True) (index inner)
    (fun word _ => word.Complete ground) fun _ _ => True := by
  refine .skipAny 1 (.here fun pos text _ lies => .restAt ?_)
  cases found : bracketEnd? '[' ']' 0 1 text with
  | none => exact .skip _ (.fail _)
  | some length =>
      obtain ⟨count, rfl, closed⟩ := bracketEnd?_found (by decide) found
      have split := take_append_cons_drop closed
      rw [Nat.zero_add]
      have window : ground.Lies pos (text.take count) := by
        rw [split] at lies
        refine lies.window ?_
        rintro c ⟨⟩ named
        exact absurd named (by decide)
      exact .skip _ ((inlineWord_yields yielding window).imp (fun _ => id) (fun _ => id)
        (fun _ _ => And.right) fun _ _ _ => id)

omit yielding

theorem Question.mark_append_drop {question : Question}
    (found : Question.of? text = some question) :
    text = question.mark ++ text.drop 1 := by
  unfold Question.of? at found
  split at found
  · cases found
  · split at found
    next marked =>
      cases found
      simp only [Bool.and_eq_true, decide_eq_true_eq] at marked
      rw [marked.1]
      rfl
    next =>
      split at found
      next marked =>
        cases found
        simp only [Bool.and_eq_true, decide_eq_true_eq] at marked
        rw [marked.1]
        rfl
      next =>
        split at found
        next marked =>
          cases found
          simp only [Bool.and_eq_true, decide_eq_true_eq] at marked
          rw [marked.1]
          rfl
        next => cases found

theorem parameterRun_append_drop (text : List Char) :
    text = parameterRun text ++ text.drop (parameterRun text).length := by
  unfold parameterRun
  split
  · rfl
  · split
    · exact takeWhile_prefix_drop _ _
    · split
      · exact takeWhile_prefix_drop _ _
      · split <;> rfl

theorem isParameter_parameterRun (filled : parameterRun text ≠ []) :
    IsParameter (parameterRun text) := by
  refine ⟨filled, ?_⟩
  cases text with
  | nil => rfl
  | cons c rest =>
      by_cases named : isNameStart c = true
      · have first : (c :: rest).takeWhile isNameChar = c :: rest.takeWhile isNameChar :=
          List.takeWhile_cons_of_pos (isNameChar_of_isNameStart named)
        have run (rest : List Char) : parameterRun (c :: rest) =
            (c :: rest).takeWhile isNameChar := by
          simp [parameterRun, named]
        rw [run, first, run, ← first, List.takeWhile_idem]
      · by_cases digit : c.isDigit = true
        · have first : (c :: rest).takeWhile Char.isDigit = c :: rest.takeWhile Char.isDigit :=
            List.takeWhile_cons_of_pos digit
          have run (rest : List Char) : parameterRun (c :: rest) = (c :: rest).takeWhile
              Char.isDigit := by
            simp [parameterRun, named, digit]
          rw [run, first, run, ← first, List.takeWhile_idem]
        · by_cases special : specialParameters.contains c = true
          · simp only [parameterRun, named, digit, special, Bool.false_eq_true, if_false, if_true]
          · simp only [parameterRun, named, digit, special, Bool.false_eq_true, if_false] at filled
            exact absurd rfl filled

theorem question_yields : YieldsFreely ground (· = text) question
    (fun question behind => text = question.mark ++ behind) fun _ _ => True := by
  refine .restAt ?_
  cases found : Question.of? text with
  | none => exact .pure (fun _ same => same.symm) fun _ _ => trivial
  | some question =>
      refine .skip 1 (.pure (fun _ same => ?_) fun _ _ => trivial)
      rw [same]
      exact Question.mark_append_drop found

theorem parameterName_yields : YieldsFreely ground (· = text) parameterName
    (fun name behind => text = name.toList ++ behind ∧ IsParameter name.toList) fun _ _ =>
      True := by
  refine .restAt (.ite (fun _ => .fail _) fun filled =>
    .skip _ (.pure (fun _ same => ?_) fun _ _ => trivial))
  rw [same, String.toList_ofList]
  exact ⟨parameterRun_append_drop text, isParameter_parameterRun (by simpa using filled)⟩

theorem namesMark_yields (question : Question) :
    YieldsFreely ground (· = text) (namesMark question)
      (fun _ behind => question = .value → behind = text) fun _ _ => True := by
  refine .restAt (.ite (fun asks => .skip 1 (.pure (fun _ _ plain => ?_) fun _ _ => trivial))
    fun _ =>
    .pure (fun _ same _ => same) fun _ _ => trivial)
  rw [plain] at asks
  cases asks

include yielding

theorem optionalIndex_yields : YieldsFreely ground (· = text) (optionalIndex inner)
    (fun index behind => (index = none → behind = text) ∧ ∀ word ∈ index, word.Complete ground)
    fun _ _ => True := by
  refine .current fun _ same => .ite (fun _ => ?_) fun _ =>
    .pure (fun _ same' => ⟨fun _ => same'.trans same, nofun⟩) fun _ _ => trivial
  refine .bind ((index_yields yielding).anywhere)
    fun word => .pure (fun _ complete => ⟨nofun, ?_⟩) fun _ _ => trivial
  rintro _ ⟨⟩
  exact complete

theorem furtherOperand_yields (separator : Char) : YieldsAll ground (furtherOperand inner separator)
    fun stage word => ∀ it ∈ word, it.Drafted ground stage.inside :=
  .current fun _ _ => .ite (fun _ => .skip 1 (operand_yields yielding (by decide)).anywhere)
  fun _ =>
    .returns fun _ _ => nofun

/-- A reading of an operation. -/
abbrev YieldsOperation (ground : Ground) (reading : Reading (Option Operation)) : Prop :=
  YieldsFreely ground (fun _ => True) reading (fun operation _ => operation ≠ none)
    fun stage operation => ∀ it ∈ operation, (Node.operation it).Drafted ground stage.inside

theorem expand_yields (holds : ground.Holds pos) (op : List Char) :
    YieldsOperation ground (expand inner pos op) := by
  refine .skipAny _ (.bind (operand_yields yielding (by decide)).anywhere fun word =>
    .pure (fun _ _ => nofun) fun stage known => ?_)
  rintro _ ⟨⟩
  exact .operation holds (Field.Drafted.operand known.2)

theorem slice_yields (holds : ground.Holds pos) :
    YieldsOperation ground (slice inner pos) := by
  refine .skipAny 1 (.bind (operand_yields yielding (by decide)).anywhere fun offset =>
    .bind (furtherOperand_yields yielding ':').anywhere fun length =>
      .pure (fun _ _ => nofun) fun stage known => ?_)
  rintro _ ⟨⟩
  exact .operation holds
    (List.forall_mem_append.mpr ⟨Field.Drafted.operand known.1.2, Field.Drafted.operand known.2⟩)

omit yielding in
theorem skipIf_yields (accepted : Char → Bool) :
    YieldsAll ground (skipIf accepted) fun _ _ => True :=
  .current fun _ _ => .ite (fun _ => .skip 1 (.idle)) fun _ =>
    .idle

theorem replace_yields (holds : ground.Holds pos) :
    YieldsOperation ground (replace inner pos) := by
  refine .skipAny 1 (.current fun _ _ => .bind (skipIf_yields _).anywhere fun _ =>
    .bind (operand_yields yielding (by decide)).anywhere fun pattern =>
      .bind (furtherOperand_yields yielding '/').anywhere fun replacement =>
        .pure (fun _ _ => nofun) fun stage known => ?_)
  rintro _ ⟨⟩
  exact .operation holds
    (List.forall_mem_append.mpr ⟨Field.Drafted.operand known.1.2, Field.Drafted.operand known.2⟩)

theorem operation_yields : YieldsFreely ground (· = text) (operation inner)
    (fun operation behind => operation = none → behind = text)
    fun stage operation => ∀ it ∈ operation, (Node.operation it).Drafted ground stage.inside := by
  have some {reading : Reading (Option Operation)} (yields : YieldsOperation ground reading) :
      YieldsFreely ground (· = text) reading (fun operation behind => operation = none →
        behind = text)
        fun stage operation => ∀ it ∈ operation, (Node.operation it).Drafted ground stage.inside :=
    yields.imp (fun _ => id) (fun _ _ => trivial) (fun _ _ present absent => absurd absent present)
      fun _ _ _ => id
  refine .hereAt fun pos lies => .restAt ?_
  cases operandOperator? text with
  | some op => exact some (expand_yields yielding lies.holds op)
  | none =>
      refine .restAt ?_
      match text with
      | [] => exact .pure (fun _ same _ => same) fun _ _ => nofun
      | c :: rest =>
          refine .ite (fun _ => .pure (fun _ same _ => same) fun _ _ => nofun) fun _ =>
            .ite (fun _ => some (slice_yields yielding lies.holds)) fun _ =>
            .ite (fun _ => some (replace_yields yielding lies.holds)) fun _ =>
            .ite (fun _ => .skip 2 (.pure (fun _ _ => nofun) fun stage _ => ?_)) fun _ => .fail _
          rintro _ ⟨⟩
          exact .operation lies.holds nofun

omit yielding in
/-- A plain parameter in braces borders on the text behind its brace. -/
theorem Ground.Lies.borders {name : String} {behind : List Char}
    (lies : ground.Lies pos ('$' :: '{' :: name.toList ++ '}' :: behind)) {question : Question}
    {index : Option Word} {operation : Option Operation} :
    (Part.braced pos question name index operation).Borders ground behind := by
  rintro source known c ⟨named, pos', name', plain, rest, stands⟩
  obtain ⟨rfl, rfl⟩ : pos' = pos ∧ name' = name := by
    cases question <;> cases index <;> cases operation <;> simp_all [Part.plain?]
  obtain ⟨back, stands', ends⟩ := lies source known
  have whole := stands.unique stands'
  have same : c :: rest = behind ++ back := by simpa using whole
  cases behind with
  | cons d behind =>
      obtain ⟨rfl, -⟩ := List.cons.inj same
      rfl
  | nil =>
      have last := ends c (by rw [← List.nil_append back, ← same]; rfl) named
      rcases last with empty | newline
      · cases empty
      · rw [show '$' :: '{' :: name'.toList ++ ['}'] = ('$' :: '{' :: name'.toList) ++
          ['}'] from rfl,
          List.getLast?_concat] at newline
        cases newline

theorem braced_yields : YieldsPart ground ('$' :: '{' :: text) (braced inner) := by
  refine .hereAt fun pos lies => .skip 2 ?_
  refine .bind question_yields.any fun question => .pin fun second marked => ?_
  refine .bind parameterName_yields.any fun name => .pin fun third ⟨named, parameter⟩ => ?_
  refine .bind (optionalIndex_yields yielding).any fun index =>
    .pin fun fourth ⟨plain, complete⟩ => ?_
  refine .bind (namesMark_yields question).any fun _ => .pin fun fifth unmarked => ?_
  refine .bind (operation_yields yielding).any fun operation => .current fun last unchanged => ?_
  have written : text = question.mark ++ (name.toList ++ third) := by
    rw [← named]
    exact marked
  refine .ite (fun closed => .skip 1 (.pure (fun behind same => ⟨rfl, ?_⟩) fun stage known => ?_))
    fun _ => .failAt lies.holds _
  · -- only a plain parameter borders on the text, and then nothing else stands in the braces
    obtain ⟨tail, shape⟩ := List.head?_eq_some_iff.mp closed
    by_cases bare : question = .value ∧ index = none ∧ operation = none
    · obtain ⟨rfl, rfl, rfl⟩ := bare
      have same' : third = '}' :: behind := by
        rw [← plain rfl, ← unmarked rfl, ← unchanged rfl, same, shape]
        rfl
      refine Ground.Lies.borders ?_
      rw [written, same'] at lies
      exact lies
    · refine Part.borders_of_plain? ?_ behind
      cases question <;> cases index <;> cases operation <;> simp_all [Part.plain?]
  · refine .part lies.holds (fun source known => ?_) parameter rfl ?_
    · rw [written] at lies
      have split : '$' :: '{' :: (question.mark ++ (name.toList ++ third)) =
          ('$' :: '{' :: question.mark ++ name.toList) ++ third := by simp
      rw [split] at lies
      exact lies.occurs source known
    · cases operation with
      | none => exact Field.forall_optional.mpr fun it member => .index (complete it member)
      | some operation =>
          refine List.forall_mem_append.mpr ⟨Field.forall_optional.mpr fun it member =>
            .index (complete it member), Field.forall_one.mpr ?_⟩
          have loose : (Node.part (.braced pos question name index (some operation))).seals
            operation.slot =
              false := by cases operation <;> rfl
          rw [loose]
          exact .plain (known.2 operation rfl) nofun

theorem expansion_yields (quoted : Bool) (text : List Char) :
    YieldsExpansion ground text ('$' :: text) (expansion inner quoted) := by
  have present {start : List Char} {reading : Reading Part}
    (yields : YieldsPart ground start reading) :
      YieldsExpansion ground text start (some <$> reading) := by
    refine yields.map (fun _ _ => id) fun stage part drafted => ?_
    rintro _ ⟨⟩
    exact drafted
  refine .hereAt fun pos lies => .restAt ?_
  cases text with
  | nil => exact .pure (fun _ same => same) fun _ _ => nofun
  | cons c rest =>
      have brackets {count : Nat} {closing : String} {bracketed : Bool}
        (filled : closing.toList ≠ [])
          (special : ∀ c ∈ closing.toList.head?, isNameChar c = false) :
          YieldsExpansion ground (c :: rest) ('$' :: c :: rest) (do
            skip count
            return some (.arithmetic pos (← arithmeticParts inner closing) bracketed)) := by
        refine .skipAny _ (.bind (arithmeticParts_yields yielding filled special).anywhere
          fun parts =>
          .pure (fun _ _ => Part.behind_of_plain? rfl rfl _) fun stage known => ?_)
        rintro _ ⟨⟩
        exact .arithmetic lies.holds known.2
      have simple {name : List Char} {count : Nat}
        (written : ∃ behind, c :: rest = name ++ behind) :
          YieldsExpansion ground (c :: rest) ('$' :: c :: rest) (do
            skip count
            return some (.simple pos (String.ofList name))) := by
        refine .skipAny _ (.pure (fun _ _ => Part.behind_of_plain? rfl rfl _) fun stage _ => ?_)
        rintro _ ⟨⟩
        obtain ⟨behind, whole⟩ := written
        rw [whole] at lies
        refine .part lies.holds (fun source known => ?_) trivial rfl nofun
        have lies' : ground.Lies pos (('$' :: name) ++ behind) := lies
        simpa [Part.Spelled] using lies'.occurs source known
      refine .ite (fun quote => .skip 1 ?_) fun _ => .ite (fun _ => .skip 1 ?_) fun _ =>
        .ite (fun _ => .ite (fun _ => brackets (by decide) (by rintro _ ⟨⟩; decide)) fun _ => ?_)
        fun _ =>
        .ite (fun _ => brackets (by decide) (by rintro _ ⟨⟩; decide)) fun _ =>
          .ite (fun brace => ?_) fun _ =>
        .ite (fun _ => simple ⟨_, takeWhile_prefix_drop isNameChar _⟩) fun _ =>
        .ite (fun _ => @simple [c] _ ⟨rest, rfl⟩) fun _ =>
          .pure (fun _ same => same) fun _ _ => nofun
      · obtain rfl := of_decide_eq_true (Bool.and_eq_true_iff.mp quote).1
        exact present (singleQuoted_yields lies)
      · exact present (doubleQuoted_yields yielding lies.holds)
      · refine .bind (substituted_yields yielding _).anywhere fun items =>
          .pure (fun _ _ => Part.behind_of_plain? rfl rfl _) fun stage known => ?_
        rintro _ ⟨⟩
        exact .part lies.holds (fun _ _ => trivial) trivial rfl
          (Field.forall_many.mpr fun item member => .item (known.2 item member))
      · subst brace
        exact present (braced_yields yielding)

/-! ## Words -/

omit yielding in
theorem glob_yields {mark : Char} :
    YieldsPart ground (mark :: '(' :: text) (glob mark) := by
  refine .hereAt fun pos lies => .skip 2 (.restAt ?_)
  dsimp only [List.drop]
  cases found : bracketEnd? '(' ')' 0 1 text with
  | none => exact .failAt lies.holds _
  | some length =>
      obtain ⟨count, rfl, closed⟩ := bracketEnd?_found (by decide) found
      refine .skip _ (.pure (fun _ _ => Part.behind_of_plain? rfl rfl _) fun stage _ =>
        .part lies.holds (fun source known => ?_) trivial rfl (List.forall_mem_nil _))
      have split : mark :: '(' :: text =
          (mark :: '(' :: text.take count ++ [')']) ++ text.drop (count + 1) := by
        conv => lhs; rw [take_append_cons_drop closed]
        simp
      rw [split] at lies
      simpa [Part.Spelled] using lies.occurs source known

theorem wordRound_yields {delimiters : List Char} (special : ∀ c ∈ delimiters, isNameChar c = false)
    (pieces : Pieces) :
    Gathers ground id pieces (pieces.Gathered ground) (wordRound inner delimiters pieces) := by
  refine .here fun pos text gathered lies => .restAt ?_
  cases text with
  | nil => exact Gathers.finish gathered nofun
  | cons c rest =>
      refine .ite (fun escape => ?_) fun _ => .ite (fun process => ?_) fun _ =>
        .ite (fun stopped => Gathers.finish gathered ?_) fun _ => .ite (fun pattern => ?_) fun _ =>
        .ite (fun single => ?_) fun _ => .ite (fun double => ?_) fun _ =>
          .ite (fun backquote => ?_) fun _ =>
        .ite (fun dollar => ?_) fun _ =>
          .skip 1 (Gathers.again (gathered.push (List.cons_ne_nil _ _) lies) rfl)
      · subst escape
        refine .skip 2 (.ite (fun newline => ?_) fun _ =>
          Gathers.again (gathered.push_escape lies) rfl)
        obtain ⟨rest, rfl⟩ := List.head?_eq_some_iff.mp newline
        exact Gathers.again gathered.fold rfl
      · simp only [Bool.and_eq_true, Bool.or_eq_true, decide_eq_true_eq] at process
        obtain ⟨⟨mark, opening⟩, -⟩ := process
        obtain ⟨tail, rfl⟩ := List.head?_eq_some_iff.mp opening
        have plain : ∀ d ∈ (c :: '(' :: tail).head?, isNameChar d = false := by
          rintro d ⟨⟩
          rcases mark with rfl | rfl <;> decide
        refine .bind (substituted_yields yielding _).anywhere fun items =>
          .pure (fun behind _ => gathered.add plain rfl (Part.borders_of_plain? rfl behind))
          fun stage known =>
            gathered.add_drafted known.1 (.part lies.holds ?_ trivial rfl
              (Field.forall_many.mpr fun item member => .item (known.2 item member)))
        exact (show ground.Lies pos ([c, '('] ++ tail) from lies).occurs
      · rintro d ⟨⟩
        exact special c (List.contains_iff_mem.mp stopped)
      · obtain ⟨mark, opening⟩ := Bool.and_eq_true_iff.mp pattern
        obtain ⟨tail, rfl⟩ := List.head?_eq_some_iff.mp (of_decide_eq_true opening)
        have plain : ∀ d ∈ (c :: '(' :: tail).head?, isNameChar d = false := by
          rintro d ⟨⟩
          have marks : ∀ mark ∈ ['?', '*', '+', '@', '!'], isNameChar mark = false := by decide
          exact marks c (List.contains_iff_mem.mp mark)
        exact Gathers.add gathered plain (fun _ => rfl) glob_yields
      · subst single
        exact Gathers.add gathered (by rintro d ⟨⟩; decide) (fun _ => rfl)
          (singleQuoted_yields lies)
      · subst double
        exact Gathers.add gathered (by rintro d ⟨⟩; decide) (fun _ => rfl)
          (doubleQuoted_yields yielding lies.holds)
      · subst backquote
        exact Gathers.add gathered (by rintro d ⟨⟩; decide) (fun _ => rfl)
          (backquoted_yields yielding)
      · subst dollar
        exact Gathers.expansion yielding gathered lies (fun _ => rfl) rfl

theorem wordUpTo_yields {delimiters : List Char}
    (special : ∀ c ∈ delimiters, isNameChar c = false) :
    YieldsAll ground (wordUpTo inner delimiters)
      fun stage word => word.Drafted ground stage.inside := by
  refine .here fun pos _ _ lies => .bind (.gathers (wordRound_yields yielding special) rfl)
    fun parts =>
    .ite (fun _ => .current fun text _ => ?_) fun filled =>
      .returns fun stage known => ⟨.word lies.holds known.2, by simpa using filled⟩
  cases text.head? with
  | none | some c => exact .fail _

theorem word_yields : YieldsAll ground (word inner) fun stage word =>
    word.Drafted ground stage.inside :=
  wordUpTo_yields yielding (by decide)

/-! ## Between words -/

theorem hereDocBody_yields {redirect : Redirect} (takes : redirect.op.takesBody = true)
    (lies : ground.Lies pos text) :
    YieldsFreely ground (fun _ => True) (hereDocBody inner (.ofRedirect redirect) text pos)
      (fun body _ => redirect.Takes body ∧ Node.Everywhere (Finished ground) (.word body))
      fun _ _ => True := by
  refine .ite (fun quoted => .pure (fun _ _ => ⟨⟨takes, ?_⟩, ?_⟩) fun _ _ => trivial) fun plain =>
    (inlineWord_yields yielding lies).imp (fun _ => id) (fun _ => id)
      (fun body _ complete => ⟨⟨takes, ?_⟩, complete.2.everywhere⟩) fun _ _ _ => id
  · rw [if_pos quoted]
    exact ⟨_, _, rfl⟩
  · refine .node ⟨⟨trivial, List.isChain_singleton _, ?_⟩, fun source known => ?_⟩
      fun child member => ?_
    · refine Field.forall_many.mpr fun part member => ?_
      obtain rfl := List.mem_singleton.mp member
      exact ⟨fun _ => List.forall_mem_nil _, fun _ _ word => absurd word (by simp)⟩
    · exact ⟨lies.holds source known, trivial, trivial, fun c continued =>
        absurd continued.2 (by simp [Part.plain?]),
        trivial⟩
    · obtain rfl : child = .part (.literal pos (String.ofList text)) := by
        simpa [Node.children, Node.fields, Field.many] using member
      refine .node ⟨⟨trivial, .nil, List.forall_mem_nil _⟩, fun source known => ?_⟩
        (List.forall_mem_nil _)
      refine ⟨lies.holds source known, ⟨text, ?_, ?_⟩, trivial, trivial⟩
      · exact (show ground.Lies pos (text ++ []) by rwa [List.append_nil]).occurs source known
      · rw [String.toList_ofList]
        exact .refl text
  · rw [if_neg plain]
    exact complete.2.filled

/-- The lines of a here-document that a redirection has announced. -/
theorem hereDoc_reaches {awaited : Awaited}
    (sound : Sound ground redirects state) (announced : (state.stage redirects).Announces awaited) :
    Reached ground (fun _ => True) (fun _ _ => True) (fun _ _ => True) (state.stage redirects)
      (hereDoc inner awaited state) := by
  obtain ⟨redirect, member, takes, rfl⟩ := announced
  unfold hereDoc
  rw [cursor_bind]
  have rounds := (hereDocRounds_ends (.ofRedirect redirect) inner.rounds state).mono
    (fun error ⟨text, next, passes, here⟩ => here ▸ (sound.move passes).1.lies.holds)
    fun _ _ reached => reached
  refine Ends.bind rounds ?_
  rintro stop after ⟨front, back, passes, same, rfl, ends⟩
  obtain ⟨sound', leads⟩ := sound.move passes
  rw [← same] at sound' leads
  have split : state.cursor.rest = front ++ (back ++ after.cursor.rest) :=
    passes.rest_eq.trans (List.append_assoc ..)
  have window : ground.Lies state.cursor.position front := by
    refine (split ▸ sound.lies).window fun c first _ => ?_
    rcases ends with whole | ends
    · rw [List.append_right_eq_self.mp (split.symm.trans whole)] at first
      cases first
    · exact ends
  have taken : state.cursor.rest.take (state.cursor.offset + front.length - state.cursor.offset) =
      front := by
    rw [Nat.add_sub_cancel_left, split, List.take_left]
  change Reached ground (fun _ => True) (fun _ _ => True) (fun _ _ => True)
    (state.stage redirects) _
  rw [taken]
  refine ((hereDocBody_yields yielding takes window _ _ sound' trivial).next ?_).after leads
  intro body last others further sound'' held _
  refine ⟨others, .refl _, ?_, trivial, fun _ _ _ => trivial⟩
  refine ⟨sound''.lies, sound''.comments, sound''.awaited, fun entry inside => ?_,
    sound''.earlier, sound''.single⟩
  rcases List.mem_cons.mp inside with rfl | old
  · exact ⟨redirect, further.kept (leads.kept member), rfl, held.1, held.2⟩
  · exact sound''.bodies entry old

/-- Each here-document leaves the others announced. -/
theorem hereDocs_reach {awaited : List Awaited}
    (sound : Sound ground redirects state)
    (announced : ∀ it ∈ awaited, (state.stage redirects).Announces it) :
    Reached ground (fun _ => True) (fun _ _ => True) (fun _ _ => True) (state.stage redirects)
      (awaited.forM (hereDoc inner) state) := by
  induction awaited generalizing state redirects with
  | nil => exact ⟨redirects, .refl _, sound, trivial, fun _ _ _ => trivial⟩
  | cons first awaited ih =>
      refine (hereDoc_reaches yielding sound (announced first (by simp))).next ?_
      intro _ after others leads sound' _ _
      exact ih sound' fun it member => leads.announces (announced it (by simp [member]))

theorem newline_yields : YieldsAll ground (newline inner) fun _ _ => True := by
  refine .skipAny 1 fun state redirects sound _ => ?_
  rw [get_bind, modify_bind]
  have cleared : Sound ground redirects { state with awaited := [] } :=
    ⟨sound.lies, sound.comments, nofun, sound.bodies, sound.earlier, sound.single⟩
  exact hereDocs_reach yielding cleared sound.awaited

omit yielding in
theorem comment_yields : YieldsFreely ground (· = '#' :: text) comment
    (fun _ _ => True) fun stage it => Made ground stage.pending (.comment it) := by
  intro state redirects sound start
  have dropped : state.cursor.rest.drop 1 = text := by rw [start]; rfl
  have moved := sound.move (Cursor.advance_passes ((lineRun text).length + 1) state.cursor)
  unfold comment
  rw [here_bind, rest_bind, dropped, skip_bind, modify_bind]
  refine ⟨redirects, moved.2, { moved.1 with }, trivial, fun later leads _ =>
    ⟨⟨trivial, .nil, nofun⟩, ?_, nofun⟩⟩
  intro source known
  obtain ⟨back, stands, -⟩ := sound.lies source known
  rw [start] at stands
  rcases lineRun_cases text with whole | ⟨rest, whole⟩
  · -- the comment reaches the end of the text
    refine .inr ⟨back, ?_, leads.pending.ended _ ⟨?_, ?_⟩⟩
    · rw [String.toList_ofList, ← whole]
      exact stands
    · change (state.cursor.advance _).rest = []
      rw [Cursor.advance_rest, start, ← whole]
      exact List.drop_length
    · change (state.cursor.advance _).position = _
      rw [Cursor.advance_position, start, ← whole, String.toList_ofList]
      exact congrArg _ (@List.take_length _ ('#' :: text))
  · have written : Stands source state.cursor.position ('#' :: lineRun text)
        ('\n' :: rest ++ back) := by
      rw [whole] at stands
      exact stands.front
    refine .inl ⟨stands.occurs, ⟨'\n' :: rest ++ back, ?_, .inr rfl⟩, trivial, trivial⟩
    rw [String.toList_ofList]
    exact written

theorem linebreakRound_yields : YieldsRounds ground (fun _ _ => True) (linebreakRound inner)
    fun _ _ => True := by
  intro _
  refine .skipBlanks (.current fun text _ => ?_)
  split
  · exact .bind (newline_yields yielding).anywhere fun _ => .returns fun _ _ => trivial
  · next mark =>
      obtain ⟨rest, rfl⟩ := List.head?_eq_some_iff.mp mark
      intro state redirects sound start
      refine (comment_yields state redirects sound start).next
        fun it after others leads sound' _ made => ?_
      rw [modify_bind]
      refine ⟨others, .refl _, ⟨sound'.lies, fun other member => ?_, sound'.awaited,
        sound'.bodies, sound'.earlier,
        sound'.single⟩, trivial, fun _ _ _ => trivial⟩
      rcases List.mem_append.mp member with old | new
      · exact sound'.comments other old
      · obtain rfl := List.mem_singleton.mp new
        exact made _ (.refl _)
  · exact .returns fun _ _ => trivial

theorem linebreaks_yields : YieldsAll ground (linebreaks inner) fun _ _ => True :=
  .loop (linebreakRound_yields yielding) fun _ _ => trivial

end Levels

end RecipeLint
