import Mathlib.Data.List.TakeWhile
import RecipeLint.Proofs.Assembly
import RecipeLint.Proofs.Progress.Words

/-!
# How words are assembled

What the productions for quoted parts, expansions, words and the spaces between them build.
-/

namespace RecipeLint

/-! ## Parts -/

section Below

variable (pos : Position)

theorem below_word (word : Word) : (Node.word word).below = .of .placed (word.parts.map .part) :=
  Roots.ofFields_many ..

theorem below_braced (question : Question) (name : String) (index : Option Word)
    (operation : Option Operation) :
    (Node.part (.braced pos question name index operation)).below =
      .of .inset (index.toList.map .word) ++ .of .placed (operation.toList.map .operation) := by
  cases operation with
  | none => exact (Roots.ofFields_optional ..).trans (List.append_nil _).symm
  | some operation =>
      refine (Roots.ofFields_append ..).trans ?_
      rw [Roots.ofFields_optional, Roots.ofFields_one]
      cases operation <;> rfl

theorem below_expand (op : String) (operand : Option Word) :
    (Node.operation (.expand pos op operand)).below = .of .placed (operand.toList.map .word) :=
  Roots.ofFields_optional ..

end Below

/-- The roots of the parts read so far. -/
def Pieces.roots (pieces : Pieces) : Roots :=
  .of .placed (pieces.parts.reverse.map .part)

/-- A part comes behind the literal text gathered so far. -/
theorem Pieces.roots_add (pieces : Pieces) (part : Part) :
    (pieces.add part).roots = pieces.flush.roots ++ .of .placed [.part part] := by
  rw [roots, add, List.reverse_cons, List.map_append, Roots.of_append]
  rfl

/-- The roots of parts that have been read. -/
abbrev partRoots (parts : List Part) : Roots :=
  .of .placed (parts.map .part)

namespace Built

variable {loose : Bool} {start middle state : ReadState} {pieces : Pieces}

/-- Gathered literal text makes a part. -/
theorem flush (built : Built loose start pieces.roots state) :
    Built loose start pieces.flush.roots state := by
  unfold Pieces.flush
  split
  next => exact built
  next =>
    rw [Pieces.roots, List.reverse_cons, List.map_append, Roots.of_append]
    exact built.leaf rfl rfl (.plain rfl rfl)

theorem finish (built : Built loose start pieces.roots state) :
    Built loose start (partRoots pieces.finish) state :=
  built.flush

end Built

/-- The roots of items that have been read. -/
abbrev itemRoots (items : List Item) : Roots :=
  .of .placed (items.map Item.node)

/-- The trees of a list of statements have been built, each of which may stand in the place of a
command. -/
def Reading.Lists (loose : Bool) (start : ReadState) (before : Roots)
    (outcome : Outcome (List Item)) : Prop :=
  Ends (fun _ => True) (fun items state => Built loose start (before ++ itemRoots items) state ∧
    ∀ item ∈ items, item.Admits start.cursor) outcome

namespace Reading.Lists

variable {loose : Bool} {start state : ReadState} {before : Roots}

theorem after {outcome : Outcome (List Item)} (built : Built loose start before state)
    (lists : Lists loose state [] outcome) : Lists loose start before outcome :=
  Ends.imp lists fun _ _ further => ⟨built.seq further.1, built.admits further.2⟩

theorem bind {α : Type} {reading : Reading (List Item)} {next : List Item → Reading α}
    {goal : α → Roots} {origin : ReadState} (lists : Lists loose start before (reading state))
    (later : ∀ items state, Built loose start (before ++ itemRoots items) state →
      (∀ item ∈ items, item.Admits start.cursor) → Grows loose origin goal (next items state)) :
    Grows loose origin goal ((reading >>= next) state) :=
  Ends.bind lists fun items state built => later items state built.1 built.2

end Reading.Lists

/-- The productions of the level build the trees of what they read. -/
structure Inner.Building (inner : Inner) : Prop where
  statements : ∀ (loose : Bool) (stops : List String) (state : ReadState),
    Reading.Lists loose state [] (inner.statements stops state)
  command : ∀ state : ReadState,
    Reading.Grows true state (fun stmt => .of .placed [.stmt stmt]) (inner.command state)
  furtherConditional : ∀ state : ReadState,
    Reading.Grows true state (fun command => .of .placed [.command command])
      (inner.furtherConditional state)
  expansion : ∀ (loose quoted : Bool) (state : ReadState),
    Reading.Grows loose state (fun part => .of .placed (part.toList.map .part))
      (inner.expansion quoted state)
  compound : Reading.Gives (·.isCompound) inner.furtherConditional
  special : inner.Special

/-- The name of a parameter has no newline. -/
theorem newline_not_mem_parameterRun (text : List Char) : '\n' ∉ parameterRun text := by
  fun_cases parameterRun text with
  | case1 | case5 => exact List.not_mem_nil
  | case2 | case3 => exact fun member => absurd (List.mem_takeWhile_imp member) (by decide)
  | case4 c rest _ _ special =>
      rw [List.mem_singleton]
      rintro rfl
      revert special
      decide

namespace Reading

variable {inner : Inner} {loose : Bool} {start state : ReadState}

/-- A part is added to the pieces of a loop. -/
theorem Grows.adding {α β : Type} {reading : Reading Part} {taken : Part → α} {roots : α → Roots}
    {goal : β → Roots} {pieces : Pieces} (adds : ∀ part, roots (taken part) =
      (pieces.add part).roots)
    (built : Built loose start pieces.roots state)
    (grows : Grows loose state (fun part => .of .placed [.part part]) (reading state)) :
    Grows loose start (Round.elim roots goal)
      ((do return .again (taken (← reading)) : Reading (Round α β)) state) := by
  refine (Grows.after built.flush grows).bind fun part after built => .done ?_
  rw [Round.elim_again, adds, Pieces.roots_add]
  exact built

theorem singleQuoted_grows (pos : Position) (dollar : Bool) :
    Grows loose state (fun part => .of .placed [.part part]) (singleQuoted pos dollar state) := by
  unfold singleQuoted
  simp only [here_bind, skip_bind, rest_bind]
  cases singleEnd? dollar 0 (state.skip 1).cursor.rest with
  | none => exact .failed
  | some length => exact .done (((Built.skip 1 state).behind _).leaf rfl rfl (.plain rfl rfl))

theorem glob_grows (mark : Char) :
    Grows loose state (fun part => .of .placed [.part part]) (glob mark state) := by
  unfold glob
  simp only [here_bind, skip_bind, rest_bind]
  cases found : bracketEnd? '(' ')' 0 1 (state.skip 2).cursor.rest with
  | none => exact .failed
  | some length =>
      have matched := bracketEnd?_balances (by decide) found
      exact .done (((Built.skip 2 state).behind _).leaf rfl rfl (.glob (by simpa using matched)))

section Texts

variable (building : inner.Building)
include building

theorem backquoted_grows {rest : List Char} (opened : state.cursor.rest = '\x60' :: rest) :
    Grows loose state (fun part => .of .placed [.part part]) (backquoted inner state) := by
  have behind : (state.skip 1).cursor.rest = rest := by
    rw [ReadState.skip_cursor, Cursor.advance_rest, opened, List.drop_one, List.tail_cons]
  have place : (state.skip 1).cursor.position = state.cursor.position.after '\x60' := by
    rw [ReadState.skip_cursor, Cursor.advance_position, opened]
    rfl
  unfold backquoted
  simp only [here_bind, skip_bind, rest_bind, behind, place]
  cases closed : backquoteText? [] 0 rest with
  | none => exact .failed
  | some ended =>
      obtain ⟨text, length⟩ := ended
      have passes := (Cursor.advance_passes 1 state.cursor).trans
        (Cursor.advance_passes (length + 1) (state.skip 1).cursor)
      have high : ¬((state.skip 1).cursor.advance (length + 1)).position.Before
          ((state.cursor.position.after '\x60').along text) := by
        obtain ⟨_, rfl, lines, columns⟩ :=
          @backquoteText?_along _ _ _ _ _ (state.cursor.position.after '\x60') _ closed
            ⟨rfl, Int.le_refl _⟩
        rw [Cursor.advance_position, behind, place, List.take_add_one, Position.along_append]
        refine Position.not_before_trans ?_ (Position.not_along_before _ _)
        rw [Nat.sub_zero] at lines columns
        rw [Position.Before]
        omega
      have drawn (source : List Char)
        (excerpt : Excerpt source state.cursor.position state.cursor.rest) :
          Excerpt source (state.cursor.position.after '\x60') text :=
        .unescaped (opened ▸ excerpt) closed
      have low : ¬(state.cursor.position.after '\x60').Before state.cursor.position :=
        Position.not_along_before state.cursor.position ['\x60']
      simp only [skip_bind]
      refine Ends.bind (@Grows.within _ loose state _ _ _ _ _ _ _
        (?_ : Lists false (.ofText text (state.cursor.position.after '\x60')) [] _)
        passes low high drawn) ?_
      · refine Ends.bind (building.statements false [] _) fun items after built => ?_
        rw [current_bind]
        cases after.cursor.rest.head? with
        | none => exact built
        | some c => trivial
      rintro ⟨items, bodies⟩ after ⟨built, admits⟩
      refine Grows.done (built.wrap ?_ rfl (.listing rfl ?_))
      · rw [← Node.of_eq_below rfl rfl, placeItems_eq_map, List.map_map, List.map_map]
        exact congrArg (Roots.of .sealed) (List.map_congr_left fun item _ =>
          (Item.node_place bodies item).symm)
      · rw [Node.listed, placeItems_eq_map]
        exact List.forall_mem_map.mpr fun item member source excerpt =>
          (admits item member source (drawn source excerpt)).place bodies

/-- A dollar sign is read as an expansion or taken literally. -/
theorem expansion_or_literal_grows {α β : Type} {quoted : Bool} {taken : Part → α} {literal : α}
    {roots : α → Roots} {goal : β → Roots} {pieces : Pieces}
    (adds : ∀ part, roots (taken part) = (pieces.add part).roots)
    (plain : roots literal = pieces.roots) (built : Built loose start pieces.roots state) :
    Grows loose start (Round.elim roots goal) ((do
      match ← inner.expansion quoted with
      | some part => return .again (taken part)
      | none =>
          skip 1
          return .again literal : Reading (Round α β)) state) := by
  refine (building.expansion loose quoted state).bind fun part after further => ?_
  cases part with
  | none =>
      refine .done ?_
      rw [Round.elim_again, plain]
      exact (built.silent further).behind 1
  | some part =>
      refine .done ?_
      rw [Round.elim_again, adds, Pieces.roots_add]
      exact built.flush.seq further

theorem quotedRound_grows (stop : Option Char) (pieces : Pieces)
    (built : Built loose start pieces.roots state) :
    Grows loose start (Round.elim Pieces.roots partRoots)
      (quotedRound inner stop pieces state) := by
  unfold quotedRound
  simp only [here_bind, rest_bind]
  cases shape : state.cursor.rest with
  | nil => exact .done built.finish
  | cons c text =>
      simp only
      split
      · exact .done built.finish
      split
      · split
        · exact .done (built.behind 2)
        split
        · exact .done (built.behind 2)
        · exact .done (built.behind 1)
      split
      next mark => exact .adding (fun _ => rfl) built (backquoted_grows building (mark ▸ shape))
      split
      · exact expansion_or_literal_grows building (fun _ => rfl) rfl built
      · exact .done (built.behind 1)

theorem quotedParts_grows (stop : Option Char) :
    Grows loose state partRoots (quotedParts inner stop state) :=
  .iterate (fun pieces _ built => quotedRound_grows building stop pieces built)
  (.stay state) inner.rounds

theorem doubleQuoted_grows (pos : Position) (dollar : Bool) :
    Grows loose state (fun part => .of .placed [.part part])
      (doubleQuoted inner pos dollar state) := by
  unfold doubleQuoted
  simp only [here_bind, skip_bind]
  refine (Grows.skip 1 (quotedParts_grows building _)).bind fun parts after built => ?_
  rw [current_bind]
  split
  · exact .done ((built.wrap (Node.of_eq_below rfl rfl) rfl (.plain rfl rfl)).behind 1)
  · exact .failed

/-- A text of its own, read in any state, makes a word of the text that it lies in. -/
theorem inlineWord_ends {seat : Seat} (own : seat.own = true) {base : ReadState}
    {text raw : List Char}
    {pos : Position} {next : Cursor} (passes : Cursor.Passes raw base.cursor next)
    (low : ¬pos.Before base.cursor.position) (high : ¬next.position.Before (pos.along text))
    (drawn : ∀ source, Excerpt source base.cursor.position base.cursor.rest →
      Excerpt source pos text)
    (state : ReadState) :
    Ends (fun _ => True) (fun word after => ∃ found, after =
      { state with seen := found ++ state.seen } ∧
        ∀ loose, Built loose base (.of seat [.word word])
          { base with cursor := next, seen := found ++ base.seen })
      (inlineWord inner text pos state) := by
  have grows : Grows false (.ofText text pos) partRoots
      (quotedParts inner none (.ofText text pos)) :=
    quotedParts_grows building none
  unfold inlineWord
  match run : quotedParts inner none (.ofText text pos), grows with
  | .ok (parts, inside), built =>
      rw [bind_ok (by rw [Reading.within, run])]
      refine ⟨inside.seen, rfl, fun loose => @Built.enclose _ _ _ [] _ seat ?_ own⟩
      rw [placeParts_eq_map, List.map_map]
      have text := @Built.text loose _ _ _ _ _ _ _ seat built passes low high own drawn
      rwa [List.map_map] at text
  | .error _, _ =>
      rw [bind_error (by rw [Reading.within, run])]
      trivial

theorem substituted_lists {before : Roots} (built : Built loose start before state)
    (opening : String) :
    Lists loose start before (substituted inner opening state) := by
  unfold substituted
  simp only [here_bind, skip_bind]
  refine Ends.bind (Lists.after (built.behind 2) (building.statements loose _ _)) ?_
  rintro items after ⟨built, admits⟩
  rw [current_bind]
  split
  · exact ⟨built.behind 1, admits⟩
  · trivial

/-! ## Expansions -/

theorem arithmeticRound_grows (opening : Position) (closing : String) (nested : Nested Int)
    (built : Built loose start nested.pieces.roots state) :
    Grows loose start (Round.elim (fun nested => nested.pieces.roots) partRoots)
      (arithmeticRound inner opening closing nested state) := by
  unfold arithmeticRound
  simp only [here_bind, rest_bind]
  cases shape : state.cursor.rest with
  | nil => exact .failed
  | cons c text =>
      simp only [cursor_bind]
      split
      · exact .done built.finish
      split
      · exact .done (built.behind 2)
      split
      · exact expansion_or_literal_grows building (fun _ => rfl) rfl built
      split
      next mark => exact .adding (fun _ => rfl) built (backquoted_grows building (mark ▸ shape))
      split
      · exact .adding (fun _ => rfl) built (doubleQuoted_grows building _ _)
      split
      · exact .done (built.behind 1)
      split
      · exact .done (built.behind 1)
      · exact .done (built.behind 1)

theorem arithmeticParts_grows (closing : String) :
    Grows loose state partRoots (arithmeticParts inner closing state) := by
  unfold arithmeticParts
  simp only [here_bind]
  exact (Grows.iterate (fun nested _ built => arithmeticRound_grows building _ closing nested built)
    (.stay state) inner.rounds).bind fun parts after built => .done (built.behind _)

theorem operandRound_grows (stops : List Char) (nested : Nested Nat)
    (built : Built loose start nested.pieces.roots state) :
    Grows loose start (Round.elim (fun nested => nested.pieces.roots) partRoots)
      (operandRound inner stops nested state) := by
  unfold operandRound
  simp only [here_bind, rest_bind]
  cases shape : state.cursor.rest with
  | nil => exact .failed
  | cons c text =>
      simp only
      split
      · exact .done built.finish
      split
      · split
        · exact .done (built.behind 2)
        · exact .done (built.behind 2)
      split
      · exact .adding (fun _ => rfl) built (singleQuoted_grows _ _)
      split
      · exact .adding (fun _ => rfl) built (doubleQuoted_grows building _ _)
      split
      next mark => exact .adding (fun _ => rfl) built (backquoted_grows building (mark ▸ shape))
      split
      · exact expansion_or_literal_grows building (fun _ => rfl) rfl built
      split
      · exact .done (built.behind 1)
      split
      · exact .done (built.behind 1)
      · exact .done (built.behind 1)

theorem index_grows :
    Grows loose state (fun word => .of .inset [.word word]) (index inner state) := by
  unfold index
  simp only [skip_bind, here_bind, rest_bind]
  cases bracketEnd? '[' ']' 0 1 (state.skip 1).cursor.rest with
  | none => exact .failed
  | some length =>
      refine .skip 1
        (Ends.imp (inlineWord_ends building (rfl : Seat.inset.own = true)
          (Cursor.advance_passes (length + 1) _)
        (Position.Before.irrefl _) ?_ (fun _ excerpt => excerpt.take length) _) ?_)
      · rw [Cursor.advance_position, List.take_add_one, Position.along_append]
        exact Position.not_along_before _ _
      · rintro word _ ⟨found, rfl, built⟩
        exact built loose

omit building

theorem question_grows : Grows loose state (fun _ => []) (question state) := by
  unfold question
  rw [rest_bind]
  cases Question.of? state.cursor.rest with
  | none => exact .done (.stay state)
  | some question => exact .done (.skip 1 state)

theorem parameterName_ends {before : Roots} (built : Built loose start before state) :
    Ends (fun _ => True) (fun name after => Built loose start before after ∧ '\n' ∉ name.toList)
      (parameterName state) := by
  unfold parameterName
  rw [rest_bind]
  split
  · trivial
  · refine ⟨built.behind _, ?_⟩
    rw [String.toList_ofList]
    exact newline_not_mem_parameterRun _

theorem namesMark_grows (question : Question) :
    Grows loose state (fun _ => []) (namesMark question state) := by
  unfold namesMark
  rw [rest_bind]
  split
  · exact .done (.skip 1 state)
  · exact .done (.stay state)

theorem skipIf_grows (accepted : Char → Bool) :
    Grows loose state (fun _ => []) (skipIf accepted state) := by
  unfold skipIf
  rw [current_bind]
  split
  · exact .done (.skip 1 state)
  · exact .done (.stay state)

include building

theorem optionalIndex_grows :
    Grows loose state (fun index => .of .inset (index.toList.map .word))
      (optionalIndex inner state) := by
  unfold optionalIndex
  rw [current_bind]
  split
  · exact (index_grows building).map fun _ _ built => built
  · exact .done (.stay state)

variable (moving : inner.Moving)
include moving

/-- An operand is a word unless it is empty. -/
theorem operand_grows (stops : List Char) :
    Grows loose state (fun word => .of .placed (word.toList.map .word))
      (operand inner stops state) := by
  have parts : Ends (fun _ => True) (fun word after => (word = none ∧ Built loose state [] after) ∨
      ∃ it, word = some it ∧ it.pos = state.cursor.position ∧
      Built loose state (partRoots it.parts) after)
      (operand inner stops state) := by
    unfold operand
    simp only [here_bind]
    have loop : Grows loose state partRoots (iterate (operandRound inner stops) inner.rounds
        { pieces := .empty state.cursor.position, depth := 0 } state) :=
      .iterate (fun nested _ built => operandRound_grows building stops nested built)
      (.stay state) _
    refine Ends.bind loop fun parts after built => ?_
    cases parts with
    | nil => exact .inl ⟨rfl, built⟩
    | cons part parts => exact .inr ⟨_, rfl, rfl, built⟩
  refine Ends.imp (parts.and (operand_moves moving state stops)) ?_
  rintro word after ⟨⟨rfl, built⟩ | ⟨it, rfl, here, built⟩, text, passes, filled⟩
  · exact built
  · exact .word (below_word it ▸ built) here (passes.before (filled nofun))

/-- The roots of an operation that may be missing. -/
abbrev operationRoots (operation : Option Operation) : Roots :=
  .of .placed (operation.toList.map .operation)

theorem furtherOperand_grows (separator : Char) :
    Grows loose state (fun word => .of .placed (word.toList.map .word))
      (furtherOperand inner separator state) := by
  unfold furtherOperand
  rw [current_bind]
  split
  · exact .skip 1 (operand_grows building moving _)
  · exact .done (.stay state)

theorem expand_grows (pos : Position) (op : List Char) :
    Grows loose state operationRoots (expand inner pos op state) := by
  unfold expand
  rw [skip_bind]
  exact (Grows.skip _ (operand_grows building moving _)).bind fun word after built =>
    .done (built.wrap (below_expand ..).symm rfl (.plain rfl rfl))

theorem slice_grows (pos : Position) :
    Grows loose state operationRoots (slice inner pos state) := by
  unfold slice
  rw [skip_bind]
  refine (Grows.skip 1 (operand_grows building moving _)).bind fun offset after built => ?_
  exact (Grows.after built (furtherOperand_grows building moving _)).bind fun length after built =>
    .done (built.wrap (Node.append_eq_below rfl (Roots.ofFields_optional ..)
      (Roots.ofFields_optional ..)) rfl
      (.plain rfl rfl))

theorem replace_grows (pos : Position) :
    Grows loose state operationRoots (replace inner pos state) := by
  unfold replace
  rw [skip_bind, current_bind]
  refine (Grows.skip 1 (skipIf_grows _)).bind fun _ after built => ?_
  refine (Grows.after built (operand_grows building moving _)).bind fun pattern after built => ?_
  exact (Grows.after built (furtherOperand_grows building moving _)).bind
    fun replacement after built =>
    .done (built.wrap (Node.append_eq_below rfl (Roots.ofFields_optional ..)
      (Roots.ofFields_optional ..)) rfl
      (.plain rfl rfl))

theorem operation_grows : Grows loose state operationRoots (operation inner state) := by
  unfold operation
  simp only [here_bind, rest_bind]
  cases operandOperator? state.cursor.rest with
  | some op => exact expand_grows building moving _ op
  | none =>
      simp only [rest_bind]
      cases state.cursor.rest with
      | nil => exact .done (.stay state)
      | cons c text =>
          simp only
          split
          · exact .done (.stay state)
          split
          · exact slice_grows building moving _
          split
          · exact replace_grows building moving _
          split
          · exact .done ((Built.skip 2 state).leaf rfl rfl (.plain rfl rfl))
          · exact .failed

theorem braced_grows :
    Grows loose state (fun part => .of .placed [.part part]) (braced inner state) := by
  unfold braced
  simp only [here_bind, skip_bind]
  refine (Grows.skip 2 (question_grows)).bind fun question after built => ?_
  refine Ends.bind (parameterName_ends built) ?_
  rintro name after ⟨built, straight⟩
  refine (Grows.after built (optionalIndex_grows building)).bind fun index after built => ?_
  refine (Grows.quiet built (namesMark_grows question)).bind fun _ after built => ?_
  refine (Grows.after built (operation_grows building moving)).bind fun operation after built => ?_
  rw [current_bind]
  split
  · exact .done ((built.wrap (below_braced ..).symm rfl (.named straight rfl rfl rfl)).behind 1)
  · exact .failed

theorem expansion_grows (quoted : Bool) :
    Grows loose state (fun part => .of .placed (part.toList.map .part))
      (expansion inner quoted state) := by
  unfold expansion
  simp only [here_bind, rest_bind]
  cases state.cursor.rest.drop 1 with
  | nil => exact .done (.stay state)
  | cons c text =>
      simp only
      split
      · exact .skip 1 ((singleQuoted_grows _ _).map fun _ _ built => built)
      split
      · exact .skip 1 ((doubleQuoted_grows building _ _).map fun _ _ built => built)
      split
      · split
        · rw [skip_bind]
          exact .skip 3 ((arithmeticParts_grows building _).bind fun parts after built =>
            .done (built.wrap (Node.of_eq_below rfl rfl) rfl (.plain rfl rfl)))
        · exact (substituted_lists building (.stay state) _).bind fun items after built admits =>
            .done (built.wrap (Node.of_eq_below rfl rfl) rfl (.listing rfl admits))
      split
      · rw [skip_bind]
        exact .skip 2 ((arithmeticParts_grows building _).bind fun parts after built =>
          .done (built.wrap (Node.of_eq_below rfl rfl) rfl (.plain rfl rfl)))
      split
      · exact (braced_grows building moving).map fun _ _ built => built
      split
      · refine .done ((Built.skip _ state).leaf rfl rfl (.named ?_ rfl rfl rfl))
        rw [String.toList_ofList]
        exact fun newline => absurd (List.mem_takeWhile_imp newline) (by decide)
      split
      next special =>
        refine .done ((Built.skip 2 state).leaf rfl rfl (.named ?_ rfl rfl rfl))
        rw [String.toList_singleton, List.mem_singleton]
        rintro rfl
        revert special
        decide
      · exact .done (.stay state)

/-! ## Words -/

omit moving

theorem wordRound_grows (delimiters : List Char) (pieces : Pieces)
    (built : Built loose start pieces.roots state) :
    Grows loose start (Round.elim Pieces.roots partRoots)
      (wordRound inner delimiters pieces state) := by
  unfold wordRound
  simp only [here_bind, rest_bind]
  cases shape : state.cursor.rest with
  | nil => exact .done built.finish
  | cons c text =>
      simp only
      split
      · rw [skip_bind]
        split
        · exact .done (built.behind 2)
        · exact .done (built.behind 2)
      split
      · refine (substituted_lists building built.flush _).bind fun items after built admits =>
          .done ?_
        rw [Round.elim_again, Pieces.roots_add]
        refine .node ?_ rfl (.listing rfl admits)
        rwa [← Node.of_eq_below rfl rfl]
      split
      · exact .done built.finish
      split
      · exact .adding (fun _ => rfl) built (glob_grows _)
      split
      · exact .adding (fun _ => rfl) built (singleQuoted_grows _ _)
      split
      · exact .adding (fun _ => rfl) built (doubleQuoted_grows building _ _)
      split
      next mark => exact .adding (fun _ => rfl) built (backquoted_grows building (mark ▸ shape))
      split
      · exact expansion_or_literal_grows building (fun _ => rfl) rfl built
      · exact .done (built.behind 1)

include moving

theorem wordUpTo_grows {delimiters : List Char} (lines : delimiters.contains '\n' = true) :
    Grows loose state (fun word => .of .placed [.word word]) (wordUpTo inner delimiters state) := by
  have parts : Ends (fun _ => True) (fun word after => word.pos = state.cursor.position ∧
      Built loose state (partRoots word.parts) after) (wordUpTo inner delimiters state) := by
    unfold wordUpTo
    simp only [here_bind]
    have loop : Grows loose state partRoots (iterate (wordRound inner delimiters) inner.rounds
        (.empty state.cursor.position) state) :=
      .iterate (fun pieces _ built => wordRound_grows building delimiters pieces built)
      (.stay state) _
    refine Ends.bind loop fun parts after built => ?_
    split
    · rw [current_bind]
      cases after.cursor.rest.head? <;> trivial
    · exact ⟨rfl, built⟩
  refine Ends.imp (parts.and (wordUpTo_moves moving state lines)) ?_
  rintro word after ⟨⟨here, built⟩, text, passes, firm⟩
  exact .word (below_word word ▸ built) here (passes.before firm.1)

theorem word_grows :
    Grows loose state (fun word => .of .placed [.word word]) (word inner state) :=
  wordUpTo_grows building moving (by decide)

/-! ## Between words -/

omit moving

theorem hereDocBody_ends {base : ReadState} {text back : List Char} {next : Cursor}
    (awaited : Awaited)
    (passes : Cursor.Passes (text ++ back) base.cursor next) (state : ReadState) :
    Ends (fun _ => True) (fun word after => ∃ found, after =
      { state with seen := found ++ state.seen } ∧
        ∀ loose, Built loose base (.of .sealed [.word word])
          { base with cursor := next, seen := found ++ base.seen })
      (hereDocBody inner awaited text base.cursor.position state) := by
  unfold hereDocBody
  split
  · exact ⟨[], rfl, fun loose => @Built.literal _ _ _ [] _ (.move passes) rfl⟩
  · refine inlineWord_ends building rfl passes (Position.Before.irrefl _) ?_
      (fun _ excerpt => ?_) state
    · rw [passes.position_eq, Position.along_append]
      exact Position.not_along_before _ _
    · rw [passes.rest_eq, List.append_assoc] at excerpt
      exact excerpt.front

/-- The lines of a here-document are stored for the redirection that has waited for them. -/
theorem hereDoc_ends {roots : Roots} {awaited : Awaited} {others : List Awaited}
    (built : Built loose start roots { state with awaited := awaited :: others }) :
    Ends (fun _ => True) (fun _ after => after.awaited = state.awaited ∧
        Built loose start roots { after with awaited := others })
          (hereDoc inner awaited state) := by
  unfold hereDoc
  rw [cursor_bind]
  refine Ends.bind ((hereDocRounds_ends awaited inner.rounds state).mono (fun _ _ => trivial)
    fun _ _ reached => reached) ?_
  rintro stop after ⟨front, back, passes, same, rfl, -⟩
  have taken : state.cursor.rest.take (state.cursor.offset + front.length - state.cursor.offset) =
      front := by
    rw [Nat.add_sub_cancel_left, passes.rest_eq, List.append_assoc, List.take_left]
  rw [taken]
  refine Ends.bind (@hereDocBody_ends _ building { state with awaited := awaited :: others } _ _ _
    awaited passes after) ?_
  rintro body last ⟨found, rfl, stored⟩
  rw [same]
  exact ⟨rfl, @Built.store _ _
    { state with cursor := after.cursor, awaited := others, seen := found ++ state.seen } _ _ _
    (built.seq (stored loose))⟩

theorem hereDocs_grow {roots : Roots} (waiting : List Awaited) (state : ReadState)
    (none : state.awaited = [])
    (built : Built loose start roots { state with awaited := waiting }) :
    Grows loose start (fun _ => roots) (waiting.forM (hereDoc inner) state) := by
  induction waiting generalizing state with
  | nil =>
      rw [← none] at built
      exact .done built
  | cons awaited waiting ih =>
      refine Ends.bind (hereDoc_ends building built) ?_
      rintro _ after ⟨kept, built⟩
      exact ih after (kept.trans none) built

theorem newline_grows : Grows loose state (fun _ => []) (newline inner state) := by
  unfold newline
  rw [skip_bind, get_bind, modify_bind]
  exact hereDocs_grow building _ _ rfl (.skip 1 state)

omit building

theorem comment_eq {text : List Char} (shape : state.cursor.rest = '#' :: text) : ∃ it front next,
    comment state = .ok (it, { state with cursor := next, seen := it :: state.seen }) ∧
      Cursor.Passes front state.cursor next ∧ front ≠ [] ∧ it.pos = state.cursor.position := by
  refine ⟨_, _, _, rfl, Cursor.advance_passes _ _, ?_, rfl⟩
  rw [shape]
  exact List.cons_ne_nil _ _

include building

theorem linebreakRound_grows (value : Unit) (built : Built true start [] state) :
    Grows true start (Round.elim (fun _ => []) fun _ => []) (linebreakRound inner value state) := by
  unfold linebreakRound
  simp only [skipBlanks_bind, current_bind]
  generalize shape : state.skipBlanks.cursor.rest.head? = c
  split
  · exact (Grows.quiet built.behindBlanks (newline_grows building)).bind fun _ after built =>
      .done built
  · obtain ⟨text, whole⟩ := List.head?_eq_some_iff.mp shape
    obtain ⟨it, front, next, run, passes, filled, here⟩ := comment_eq whole
    rw [bind_ok run, modify_bind]
    exact .done (built.behindBlanks.silent (.hold passes filled here))
  · exact .done built.behindBlanks

theorem linebreaks_grows : Grows true state (fun _ => []) (linebreaks inner state) :=
  .iterate (fun value _ built => linebreakRound_grows building value built) (.stay state) _

end Texts

end Reading

end RecipeLint
