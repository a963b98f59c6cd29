import RecipeLint.Proofs.Lines
import RecipeLint.Proofs.Parameters
import RecipeLint.Proofs.Seam.Statements

/-!
# A parameter with and without its braces

The seam of two texts that differ at one parameter, which has braces in the first and none in the
second.  Both readings come to the parameter together or the first one takes it for something else;
behind the parameter they are together again, two columns apart up to the end of the line.

Where the first reading is lost, its values do not change when the parameter at the mark loses its
braces.  So none of them holds that parameter.
-/

namespace RecipeLint

/-- Columns are counted from one. -/
theorem Position.along_counted {position : Position} (counted : 0 < position.column)
    (text : List Char) :
    0 < (position.along text).column := by
  induction text generalizing position with
  | nil => exact counted
  | cons c text ih =>
      refine ih ?_
      rw [Position.after]
      split
      · exact Int.one_pos
      · exact Int.add_pos counted Int.one_pos

/-- A parameter in braces. -/
structure Brace where
  /-- Where its dollar sign stands. -/
  pos : Position
  name : List Char
  counted : 0 < pos.column

/-- A plain parameter in braces loses them. -/
theorem Part.recast_unbraced {change : Change} {pos : Position} (lost : change.unbraced pos = true)
    (name : String) :
    change.on (Part.braced pos .value name none none) = .simple (change.on pos) name := by
  simp [Change.on, Recastable.recast, Part.recast, lost]

namespace Brace

variable {brace : Brace} {text : List Char} {position : Position}

/-- The braces are lost, and nothing moves. -/
def fade (brace : Brace) : Change where
  place := id
  injective same := same
  unbraced other := other = brace.pos

/-- The braces are lost, and what follows them on the line goes two columns to the left.  The
columns that the parameter leaves go in front of the line. -/
def drop (brace : Brace) : Change where
  place other :=
    if other.line ≠ brace.pos.line then other
    else if brace.pos.column + brace.name.length + 3 ≤ other.column then
      ⟨other.line, other.column - 2⟩
    else if brace.pos.column + brace.name.length + 1 ≤ other.column then
      ⟨other.line, other.column - (brace.pos.column + brace.name.length + 2)⟩
    else if 0 < other.column then other
    else ⟨other.line, other.column - 2⟩
  injective {first second} same := by
    obtain ⟨line, column⟩ := first
    obtain ⟨line', column'⟩ := second
    have := brace.counted
    grind
  unbraced other := other = brace.pos

/-- Behind the dollar sign nothing is at its position. -/
theorem fade_along (brace : Brace) {front : List Char} (passed : front ≠ []) (text : List Char) :
    brace.fade.Along text (brace.pos.along front) (brace.pos.along front) := by
  induction text generalizing front with
  | nil => rfl
  | cons c text ih =>
      have later := @ih (front ++ [c]) (by simp)
      rw [Position.along_append, Position.along_cons, Position.along_nil] at later
      refine ⟨rfl, ?_, later⟩
      simpa [fade] using mt Position.eq_nil_of_along passed

/-- In front of the dollar sign nothing moves. -/
theorem along_before {change : Change} (unbraced : change.unbraced = fun other =>
    decide (other = brace.pos))
    (stays : ∀ text position, position.along text = brace.pos → 0 < position.column →
      change.place position = position)
    (counted : 0 < position.column) (reaches : position.along text = brace.pos) :
    change.Along text position position := by
  induction text generalizing position with
  | nil => exact stays [] position reaches counted
  | cons c text ih =>
      refine ⟨stays _ position reaches counted, ?_, ih ?_ reaches⟩
      · rw [unbraced, decide_eq_false_iff_not]
        rintro rfl
        cases Position.eq_nil_of_along reaches
      · exact Position.along_counted counted [c]

theorem drop_stays (reaches : position.along text = brace.pos) (counted : 0 < position.column) :
    brace.drop.place position = position := by
  have line := congrArg Position.line reaches
  rw [Position.along_line] at line
  by_cases same : position.line = brace.pos.line
  · have plain : '\n' ∉ text := fun member => by
      have := List.count_pos_iff.mpr member
      omega
    have column := congrArg Position.column reaches
    rw [Position.along_plain plain] at column
    simp only [Position.right] at column
    simp only [drop]
    grind
  · simp [drop, same]

/-- On later lines nothing moves. -/
theorem drop_along_below (text : List Char) (below : brace.pos.line < position.line) :
    brace.drop.Along text position position := by
  have stays : brace.drop.place position = position := if_pos (Int.ne_of_gt below)
  induction text generalizing position with
  | nil => exact stays
  | cons c text ih =>
      have further : brace.pos.line < (position.after c).line := by
        rw [Position.after]
        split
        · exact Int.lt_add_one_of_le (Int.le_of_lt below)
        · exact below
      refine ⟨stays, ?_, ih further (if_pos (Int.ne_of_gt further))⟩
      rw [drop, decide_eq_false_iff_not]
      rintro rfl
      exact Int.lt_irrefl _ below

/-- Behind the parameter both readings go on two columns apart, up to the end of the line. -/
theorem drop_along (text : List Char) {column : Int}
    (near : brace.pos.column + brace.name.length + 1 ≤ column) :
    brace.drop.Along text ⟨brace.pos.line, column + 2⟩ ⟨brace.pos.line, column⟩ := by
  have moved : brace.drop.place ⟨brace.pos.line, column + 2⟩ = ⟨brace.pos.line, column⟩ := by
    simp only [drop]
    grind
  induction text generalizing column with
  | nil => exact moved
  | cons c text ih =>
      refine ⟨moved, ?_, ?_⟩
      · rw [drop, decide_eq_false_iff_not]
        intro same
        have := congrArg Position.column same
        simp only at this
        omega
      · by_cases newline : c = '\n'
        · simp only [Position.after, newline, if_true]
          exact drop_along_below text (Int.lt_add_one_of_le (Int.le_refl _))
        · simp only [Position.after, newline, if_false]
          have next : column + 2 + 1 = column + 1 + 2 := by omega
          have further : brace.pos.column + brace.name.length + 1 ≤ column + 1 := by omega
          rw [next]
          refine ih further ?_
          simp only [drop]
          grind

/-- A text with the parameter in braces, and the same text with the parameter alone. -/
def seam (brace : Brace) (rounds rounds' : Nat) : Seam where
  rounds
  rounds'
  mark := '$'
  changes phase change :=
    match phase with
    | .before | .inside => change = .none ∨ change = brace.fade ∨ change = brace.drop
    | .after => change = brace.drop
    | .lost => change = .none ∨ change = brace.fade
  text _ text' := '\x60' ∉ text' ∧ ¬['\\', '\n'] <:+: text'
  joint first second position := position = brace.pos ∧ ∃ back, Trivial brace.name back ∧
    first = bracedText brace.name ++ back ∧ second = simpleText brace.name ++ back
  awaits awaited := awaited.quoted = false → Unexpanding awaited.delimiter
  marked := .inl rfl
  joint_mark := by
    rintro _ _ _ ⟨-, back, -, rfl, rfl⟩
    exact ⟨⟨_, rfl⟩, _, rfl⟩
  some_change phase := by
    cases phase with
    | before | inside | lost => exact ⟨_, .inl rfl⟩
    | after => exact ⟨_, rfl⟩
  changes_inside := Iff.rfl
  changes_leads {_ _ change} leads admitted := by
    cases leads with
    | stay => exact admitted
    | resume => exact .inr (.inr admitted)
    | lose => exact admitted.imp_right .inl
  text_drop count known :=
    ⟨fun member => known.1 (List.mem_of_mem_drop member),
      fun inside => known.2 (inside.trans (List.drop_suffix _ _).isInfix)⟩
  text_take count known :=
    ⟨fun member => known.1 (List.mem_of_mem_take member),
      fun inside => known.2 (inside.trans (List.take_prefix _ _).isInfix)⟩
  text_inside known := known
  text_crossed count _ known :=
    ⟨fun member => known.1 (List.mem_of_mem_drop member),
      fun inside => known.2 (inside.trans (List.drop_suffix _ _).isInfix)⟩
  along_crossed count joint admitted := by
    obtain ⟨rfl, back, -, rfl, -⟩ := joint
    rcases admitted with rfl | rfl
    · exact Change.none_uniform.along _ rfl
    · exact brace.fade_along (by simp [bracedText]) _
  backquotes := .inr fun known => known.1
  text_unescaped known found := by
    obtain ⟨count, -, closed, -⟩ := backquoteText?_found found
    exact absurd (List.mem_of_getElem? closed) known.1

variable {rounds rounds' : Nat} {front first second back : List Char} {cursor cursor' : Cursor}

/-- Both readings in front of the parameter are at the same position. -/
theorem position_eq
    (apart : (brace.seam rounds rounds').Apart .before front first second cursor cursor') :
    cursor'.position = cursor.position :=
  (apart.along .none (.inl rfl)).place.symm

/-- Behind the parameter both readings are in front of the same text. -/
theorem apart_after (count : Nat) (apart : (brace.seam rounds rounds').Apart .before front
      (bracedText brace.name ++ back) (simpleText brace.name ++ back) cursor cursor')
    (parameter : IsParameter brace.name) :
    (brace.seam rounds rounds').Apart .after (back.drop count) [] []
      (cursor.advance (front.length + (bracedText brace.name).length + count))
      (cursor'.advance (front.length + (simpleText brace.name).length + count)) := by
  have taken (text : List Char) :
      (front ++ (text ++ back)).take (front.length + text.length + count) =
        front ++ text ++ back.take count := by
    rw [← List.append_assoc, ← List.length_append, List.take_length_add_append]
  have dropped (text : List Char) :
      (front ++ (text ++ back)).drop (front.length + text.length + count) = back.drop count := by
    rw [← List.append_assoc, ← List.length_append, List.drop_length_add_append]
  obtain ⟨here, -⟩ := apart.ahead rfl
  have past : Phase.after ≠ .before := by decide
  refine ⟨?_, ?_, ?_, (absurd · past), (absurd · past), fun _ => ⟨rfl, rfl⟩, ?_, ?_, fun _ => ?_⟩
  · rw [Cursor.advance_rest, apart.rest₁, dropped, List.append_nil]
  · rw [Cursor.advance_rest, apart.rest₂, dropped, List.append_nil]
  · rintro _ rfl
    rw [Cursor.advance_position, Cursor.advance_position, apart.rest₁, apart.rest₂, taken, taken,
      Position.along_append, Position.along_append, Position.along_append, Position.along_append,
      position_eq apart, here, Position.along_plain (parameter.not_mem_bracedText (by simp)),
      Position.along_plain (parameter.not_mem_simpleText (by simp))]
    have behind : brace.pos.right (bracedText brace.name).length =
        ⟨brace.pos.line, brace.pos.column + brace.name.length + 1 + 2⟩ := by
      simp only [Position.right, bracedText, List.length_append, List.length_cons, List.length_nil,
        Position.mk.injEq, true_and]
      omega
    have behind' : brace.pos.right (simpleText brace.name).length =
        ⟨brace.pos.line, brace.pos.column + brace.name.length + 1⟩ := by
      simp only [Position.right, simpleText, List.length_cons, Position.mk.injEq, true_and]
      omega
    rw [behind, behind']
    exact (drop_along back (Int.le_refl _)).drop count
  · rw [Cursor.advance_rest]
    exact (brace.seam rounds rounds').text_drop _ apart.text
  · rw [Cursor.advance_rest, List.length_drop]
    exact Nat.lt_of_le_of_lt (Nat.sub_le _ _) apart.short
  · rw [Cursor.advance_rest, List.length_drop]
    exact Nat.lt_of_le_of_lt (Nat.sub_le _ _) (apart.short' (by decide))

/-- A text of its own that ends behind the parameter. -/
theorem paired_inside (count : Nat) (apart : (brace.seam rounds rounds').Apart .before front
      (bracedText brace.name ++ back) (simpleText brace.name ++ back) cursor cursor')
    (trivial : Trivial brace.name back) :
    (brace.seam rounds rounds').Paired .before
      (.ofText (front ++ (bracedText brace.name ++ back.take count)) cursor.position)
      (.ofText (front ++ (simpleText brace.name ++ back.take count)) cursor'.position) where
  cursors := by
    have text := (brace.seam rounds rounds').text_take
      (front.length + (bracedText brace.name).length + count) apart.text
    rw [apart.rest₁, ← List.append_assoc, ← List.length_append, List.take_length_add_append,
      List.append_assoc] at text
    have shorter (text : List Char) :
        (front ++ (text ++ back.take count)).length ≤ (front ++ (text ++ back)).length := by
      simp only [List.length_append, List.length_take]
      omega
    obtain ⟨here, -⟩ := apart.ahead rfl
    exact ⟨front, _, _, rfl, rfl, apart.along, fun _ => ⟨here, _, trivial.take count, rfl, rfl⟩,
      apart.marks, nofun, text, Nat.lt_of_le_of_lt (apart.rest₁ ▸ shorter _) apart.short,
      fun kept => Nat.lt_of_le_of_lt (apart.rest₂ ▸ shorter _) (apart.short' kept)⟩
  awaited := .nil
  bodies := .nil
  comments := .nil
  awaits := by simp [ReadState.ofText]
  announced := by simp [ReadState.ofText]

/-- Both texts from their start. -/
theorem apart_start (trivial : Trivial brace.name back)
    (reaches : Position.start.along front = brace.pos)
    (quiet : '\x60' ∉ front ++ (bracedText brace.name ++ back))
    (unfolded : ¬['\\', '\n'] <:+: front ++ (bracedText brace.name ++ back))
    (short : (front ++ (bracedText brace.name ++ back)).length < rounds)
    (short' : (front ++ (simpleText brace.name ++ back)).length < rounds') :
    (brace.seam rounds rounds').Apart .before front (bracedText brace.name ++ back)
      (simpleText brace.name ++ back) (.ofText (front ++ (bracedText brace.name ++ back)) .start)
      (.ofText (front ++ (simpleText brace.name ++ back)) .start) where
  rest₁ := rfl
  rest₂ := rfl
  along := by
    rintro _ (rfl | rfl | rfl)
    · exact Change.none_uniform.along _ rfl
    · exact along_before rfl (fun _ _ _ _ => rfl) Int.one_pos reaches
    · exact along_before rfl (fun _ _ => drop_stays) Int.one_pos reaches
  ahead _ := ⟨reaches, back, trivial, rfl, rfl⟩
  marks _ := ⟨.inl rfl, nofun⟩
  ended other := absurd rfl other
  text := ⟨quiet, unfolded⟩
  short
  short' _ := short'

end Brace

namespace Reading

variable {inner : Inner} {text : List Char} {pos : Position} {state : ReadState}

/-- Parts without a stop run to the end of the text. -/
theorem quotedParts_ends (inner : Inner) (state : ReadState) :
    Ends (fun _ => True) (fun _ after => after.cursor.rest = [])
      (quotedParts inner none state) := by
  unfold quotedParts
  rw [here_bind]
  refine .iterate (fun _ _ => True) (fun _ => trivial) (fun pieces state _ => ?_) _ _ _ trivial
  unfold quotedRound
  simp only [here_bind, rest_bind]
  generalize shape : state.cursor.rest = text
  cases text with
  | nil => exact shape
  | cons c text =>
      simp only [reduceCtorEq, if_false]
      split
      · split
        · trivial
        split
        · trivial
        · trivial
      split
      · exact (Ends.trivial _).bind fun _ _ _ => trivial
      split
      · refine (Ends.trivial _).bind fun part _ _ => ?_
        cases part with
        | none | some part => trivial
      · trivial

/-- A text of its own is read without regard to where it stands. -/
theorem inlineWord_eq (inner : Inner) (text : List Char) (pos : Position) (state : ReadState) :
    inlineWord inner text pos state =
      match quotedParts inner none (.ofText text pos) with
      | .ok (parts, inside) => .ok ({ pos, parts := placeParts inside.bodies parts },
          { state with seen := inside.seen ++ state.seen })
      | .error error => .error error := by
  unfold inlineWord
  cases run : quotedParts inner none (.ofText text pos) with
  | error fault =>
      have inside : within text pos (quotedParts inner none) state = .error fault := by
        simp only [within, run]
      exact bind_error inside
  | ok read =>
      have inside : within text pos (quotedParts inner none) state =
          .ok ((read.1, read.2.bodies), { state with seen := read.2.seen ++ state.seen }) := by
        simp only [within, run]
      exact bind_ok inside

end Reading

namespace Brace

open Reading

variable {brace : Brace} {rounds rounds' : Nat} {inner inner' : Inner} {text text' : List Char}
  {pos pos' : Position} {state state' : ReadState}

/-- A text of its own with the parameter in it is followed, given how both readings go on behind
it. -/
theorem inlineWord_crosses (level : (brace.seam rounds rounds').Level inner inner')
    (start : (brace.seam rounds rounds').Alike .before pos pos')
    (entered : (brace.seam rounds rounds').Paired .before (.ofText text pos) (.ofText text' pos'))
    (after : (brace.seam rounds rounds').Paired .after state state')
    (lost : ∃ other, (brace.seam rounds rounds').Paired .lost state other) :
    (brace.seam rounds rounds').Follows .before (inlineWord inner text pos state)
      (inlineWord inner' text' pos' state') := by
  have follows := Seam.quotedParts_follows level entered none
  have alike {phase : Phase} {parts₁ parts₂ : List Part} {inside inside' : ReadState}
      (leads : Phase.Leads .before phase)
      (parts : (brace.seam rounds rounds').Alike phase parts₁ parts₂)
      (paired : (brace.seam rounds rounds').Paired phase inside inside') :
      (brace.seam rounds rounds').Alike phase
        (Word.mk pos (placeParts inside.bodies parts₁))
        ⟨pos', placeParts inside'.bodies parts₂⟩ := by
    intro change admitted
    rw [Word.recast_mk, start.leads leads change admitted,
      Seam.placeParts_alike paired.bodies parts change admitted]
  rw [inlineWord_eq, inlineWord_eq]
  match run : quotedParts inner none (.ofText text pos), follows with
  | .error fault, _ => exact .unfollowed nofun
  | .ok (parts₁, inside), ⟨phase, parts₂, inside', leads, reached, parts, paired⟩ =>
      have ended := (quotedParts_ends inner _).of_ok run
      cases leads with
      | stay =>
          obtain ⟨front, first, second, apart⟩ := paired.cursors
          obtain ⟨⟨rest, rfl⟩, -⟩ := (brace.seam rounds rounds').joint_mark (apart.ahead rfl)
          rw [apart.rest₁] at ended
          simp at ended
      | resume =>
          rw [reached nofun]
          exact ⟨.after, _, _, .resume, fun _ => rfl, alike .resume parts paired, { after with }⟩
      | lose =>
          obtain ⟨other, lost⟩ := lost
          exact .lost (alike .lose parts paired) { lost with }

variable {front first second : List Char}

/-- At the parameter the first reading takes it with its braces and the second one without. -/
theorem expansion_resumes (quoted : Bool)
    (paired : (brace.seam rounds rounds').Paired .before state state')
    (apart : (brace.seam rounds rounds').Apart .before [] first second state.cursor state'.cursor) :
    (brace.seam rounds rounds').Follows .before (expansion inner quoted state)
      (expansion inner' quoted state') := by
  obtain ⟨here, back, trivial, rfl, rfl⟩ := apart.ahead rfl
  have behind := apart_after 0 apart trivial.parameter
  simp only [List.length_nil, Nat.zero_add, Nat.add_zero] at behind
  have same := position_eq apart
  rw [Position.along_nil] at here
  rw [expansion_braced quoted trivial.parameter apart.rest₁,
    expansion_simple quoted trivial apart.rest₂]
  refine ⟨.after, _, _, .resume, fun _ => rfl, ?_, ?_⟩
  · rintro _ rfl
    have lost : brace.drop.unbraced state.cursor.position = true := decide_eq_true here
    have stays : brace.drop.on state.cursor.position = state'.cursor.position := by
      rw [same]
      exact @drop_stays brace [] _ here (here ▸ brace.counted)
    rw [recast_some, Part.recast_unbraced lost, stays]
  · have long : (bracedText brace.name).length = brace.name.length + 3 := by simp [bracedText]
    rw [long] at behind
    exact paired.withCursors .resume ⟨_, _, _, behind⟩

/-- The head of an assignment with an index, whose text is read on its own. -/
theorem assignHead_eq {inner : Inner} {head : AssignHead} {index : List Char}
    (indexed : head.index = some index) (state : ReadState) :
    assignHead inner head state =
      (some <$> inlineWord inner index ((state.skip head.name.length).cursor.position.right 1))
        (state.skip head.text.length) := by
  rw [head.length_text, ReadState.skip_add]
  unfold assignHead
  rw [skip_bind, map_eq_bind]
  generalize state.skip head.name.length = middle
  generalize (head.indexText.getD []).length + head.operator.length = count
  cases run : quotedParts inner none (.ofText index (middle.cursor.position.right 1)) with
  | error fault =>
      have failed (state : ReadState) :
          inlineWord inner index (middle.cursor.position.right 1) state = .error fault := by
        rw [inlineWord_eq, run]
      have left : assignIndex inner head middle = .error fault := by
        unfold assignIndex
        rw [indexed]
        simp only [here_bind, map_eq_bind]
        exact bind_error (failed middle)
      rw [bind_error (failed _)]
      exact bind_error left
  | ok read =>
      obtain ⟨parts, inside⟩ := read
      generalize word_eq : Word.mk (middle.cursor.position.right 1)
        (placeParts inside.bodies parts) = word
      have done (state : ReadState) :
        inlineWord inner index (middle.cursor.position.right 1) state =
          .ok (word, { state with seen := inside.seen ++ state.seen }) := by
        rw [inlineWord_eq, run, ← word_eq]
      have left : assignIndex inner head middle =
          .ok (some word, { middle with seen := inside.seen ++ middle.seen }) := by
        unfold assignIndex
        rw [indexed]
        simp only [here_bind, map_eq_bind]
        exact bind_ok (done middle)
      rw [bind_ok left, skip_bind, bind_ok (done _)]
      rfl

/-- The index of an assignment's head, with the parameter in it. -/
theorem assignIndex_crosses (level : (brace.seam rounds rounds').Level inner inner')
    {name inside back : List Char}
    (paired : (brace.seam rounds rounds').Paired .before state state')
    (apart : (brace.seam rounds rounds').Apart .before (name ++ '[' :: inside)
      (bracedText brace.name ++ back) (simpleText brace.name ++ back) state.cursor state'.cursor)
    (trivial : Trivial brace.name back) (count more : Nat) :
    (brace.seam rounds rounds').Follows .before
      (inlineWord inner (inside ++ (bracedText brace.name ++ back.take count))
        ((state.skip name.length).cursor.position.right 1)
        (state.skip ((name ++ '[' :: inside).length + (bracedText brace.name).length +
          (count + more))))
      (inlineWord inner' (inside ++ (simpleText brace.name ++ back.take count))
        ((state'.skip name.length).cursor.position.right 1)
        (state'.skip ((name ++ '[' :: inside).length + (simpleText brace.name).length +
          (count + more)))) := by
  have bracket (cursor : Cursor) {rest : List Char}
    (shape : cursor.rest = name ++ '[' :: inside ++ rest) :
      (cursor.advance name.length).position.right 1 =
        (cursor.advance (name.length + 1)).position := by
    have next : (cursor.advance name.length).rest.take 1 = ['['] := by
      simp [Cursor.advance_rest, shape]
    rw [Cursor.advance_add, Cursor.advance_position 1, next]
    rfl
  have behind := apart.advance (fun _ => by simp : _ → name.length + 1 ≤ _)
  have left : (name ++ '[' :: inside).drop (name.length + 1) = inside := by
    rw [List.drop_length_add_append]
    rfl
  rw [left] at behind
  rw [ReadState.skip_cursor, ReadState.skip_cursor, bracket _ apart.rest₁, bracket _ apart.rest₂]
  refine inlineWord_crosses level (fun change admitted => (behind.along change admitted).place)
    (paired_inside count behind trivial) ?_ (paired.cross apart ?_)
  · exact paired.withCursors .resume ⟨_, _, _, apart_after (count + more) apart trivial.parameter⟩
  · simp only [bracedText, List.length_append, List.length_cons]
    omega

section Resuming

variable (level : (brace.seam rounds rounds').Level inner inner')
  (paired : (brace.seam rounds rounds').Paired .before state state')
  (apart : (brace.seam rounds rounds').Apart .before front first second state.cursor state'.cursor)

include level paired apart

/-- An index with the parameter in it. -/
theorem index_resumes {length : Nat}
    (found : bracketEnd? '[' ']' 0 1 state.cursor.rest = some length)
    (beyond : front.length ≤ length) :
    ∃ length₂, bracketEnd? '[' ']' 0 1 state'.cursor.rest = some length₂ ∧
      (brace.seam rounds rounds').Follows .before
        (inlineWord inner (state.cursor.rest.take length) state.cursor.position
          (state.skip (length + 1)))
        (inlineWord inner' (state'.cursor.rest.take length₂) state'.cursor.position
          (state'.skip (length₂ + 1))) := by
  obtain ⟨here, back, trivial, rfl, rfl⟩ := apart.ahead rfl
  have neutral : ∀ c ∈ bracedText brace.name, c ≠ '[' ∧ c ≠ ']' := fun c member =>
    ⟨fun same => trivial.parameter.not_mem_bracedText (by simp) (same ▸ member),
      fun same => trivial.parameter.not_mem_bracedText (by simp) (same ▸ member)⟩
  have neutral' : ∀ c ∈ simpleText brace.name, c ≠ '[' ∧ c ≠ ']' := fun c member =>
    ⟨fun same => trivial.parameter.not_mem_simpleText (by simp) (same ▸ member),
      fun same => trivial.parameter.not_mem_simpleText (by simp) (same ▸ member)⟩
  rw [apart.rest₁] at found
  obtain ⟨count, rfl, found₂⟩ := bracketEnd?_swap (by decide) neutral neutral' found (by omega)
  rw [← apart.rest₂] at found₂
  refine ⟨_, found₂, ?_⟩
  have taken (text : List Char) :
      (front ++ (text ++ back)).take (0 + (front.length + text.length + count)) =
        front ++ (text ++ back.take count) := by
    rw [Nat.zero_add, ← List.append_assoc, ← List.length_append, List.take_length_add_append,
      List.append_assoc]
  rw [apart.rest₁, apart.rest₂, taken, taken]
  refine inlineWord_crosses level paired.here (paired_inside count apart trivial) ?_
    (paired.cross apart (by omega))
  simp only [Nat.zero_add, Nat.add_assoc _ count 1]
  exact paired.withCursors .resume ⟨_, _, _, apart_after (count + 1) apart trivial.parameter⟩

/-- The head of an assignment with the parameter in its index. -/
theorem assignHead_resumes {name inside : List Char} (opened : AssignHead.Open front name inside) :
    (brace.seam rounds rounds').HeadsAgree .before inner inner' state state' := by
  obtain ⟨here, back, trivial, rfl, rfl⟩ := apart.ahead rfl
  have neutral : ∀ c ∈ bracedText brace.name, c ≠ ']' ∧ c ≠ '\n' := fun c member =>
    ⟨fun same => trivial.parameter.not_mem_bracedText (by simp) (same ▸ member),
      fun same => trivial.parameter.not_mem_bracedText (by simp) (same ▸ member)⟩
  have neutral' : ∀ c ∈ simpleText brace.name, c ≠ ']' ∧ c ≠ '\n' := fun c member =>
    ⟨fun same => trivial.parameter.not_mem_simpleText (by simp) (same ▸ member),
      fun same => trivial.parameter.not_mem_simpleText (by simp) (same ▸ member)⟩
  rw [Seam.HeadsAgree, apart.rest₁, apart.rest₂, AssignHead.of?_open opened rfl neutral,
    AssignHead.of?_open opened rfl neutral']
  generalize index_eq : (back.takeWhile fun c => c ≠ ']' && c ≠ '\n') = index
  dsimp only
  by_cases closed : back[index.length]? = some ']'
  · rw [if_pos closed, if_pos closed]
    cases operated : AssignHead.operator? (back.drop (index.length + 1)) with
    | none => exact .inl ⟨rfl, rfl⟩
    | some append =>
        refine .inr ⟨_, _, rfl, rfl, rfl, rfl, ?_⟩
        rw [assignHead_eq rfl, assignHead_eq rfl]
        refine Seam.Follows.map ?_ fun _ word => word.present
        obtain rfl := opened.front_eq
        have taken : back.take index.length = index := by
          rw [← index_eq]
          exact take_length_takeWhile _ back
        have crosses := assignIndex_crosses level paired apart trivial index.length
          (1 + (AssignHead.mk name none append).operator.length)
        rw [taken] at crosses
        have length (text : List Char) :
            (AssignHead.mk name (some (inside ++ text ++ index)) append).text.length =
              (name ++ '[' :: inside).length + text.length +
                (index.length + (1 + (AssignHead.mk name none append).operator.length)) := by
          simp only [AssignHead.text, AssignHead.indexText, AssignHead.operator, Option.map_some,
            Option.getD_some, List.length_append, List.length_cons, List.length_nil]
          omega
        rw [length, length, List.append_assoc, List.append_assoc]
        exact crosses
  · rw [if_neg closed, if_neg closed]
    exact .inl ⟨rfl, rfl⟩

variable {awaited awaited' : Awaited}
  (alike : (brace.seam rounds rounds').Alike .before awaited awaited')
  (known : (brace.seam rounds rounds').awaits awaited)
  (reached : front.length < (awaited.lines state.cursor.rest).1.length +
    (awaited.lines state.cursor.rest).2.length)

include alike known reached

/-- A here-document that is quoted takes the parameter as it is written. -/
theorem hereDoc_quoted (quoted : awaited.quoted = true) :
    (brace.seam rounds rounds').Follows .before (hereDoc inner awaited state)
      (hereDoc inner' awaited' state') := by
  rw [hereDoc_eq inner awaited state (level.rounds ▸ paired.short)]
  obtain ⟨other, lost⟩ := paired.cross apart reached
  unfold hereDocBody
  rw [if_pos quoted]
  generalize String.ofList (awaited.lines state.cursor.rest).1 = text
  have body : (brace.seam rounds rounds').Alike .before
      (awaited.pos, Word.mk state.cursor.position [.literal state.cursor.position text])
      (awaited'.pos, ⟨state'.cursor.position, [.literal state'.cursor.position text]⟩) := by
    intro change admitted
    rw [recast_pair, Word.recast_mk, recast_cons, Part.recast_literal, paired.here change admitted,
      ← alike change admitted]
    rfl
  exact .lost .unit (lost.withBodies (.cons (body.leads .lose) lost.bodies) ⟨awaited, known⟩)

/-- The lines of a here-document with the parameter in them. -/
theorem hereDoc_resumes :
    (brace.seam rounds rounds').Follows .before (hereDoc inner awaited state)
      (hereDoc inner' awaited' state') := by
  cases quoted : awaited.quoted with
  | true => exact hereDoc_quoted level paired apart alike known reached quoted
  | false =>
      obtain ⟨here, back, trivial, rfl, rfl⟩ := apart.ahead rfl
      have same : awaited'.quoted = false := (alike.same (·.quoted) fun _ _ => rfl).trans quoted
      rw [apart.rest₁] at reached
      obtain ⟨count, closing, lines, lines'⟩ := Awaited.lines_swap (known quoted)
        (trivial.parameter.not_mem_bracedText (by simp))
        (trivial.parameter.not_mem_simpleText (by simp))
        (IsParameter.expands_bracedText _) trivial.parameter.expands_simpleText reached
      rw [← Awaited.lines_of_delimiter (alike.same (·.tabs) fun _ _ => rfl)
        (alike.same (·.delimiter) fun _ _ => rfl)] at lines'
      rw [lines] at reached
      rw [hereDoc_eq inner awaited state (level.rounds ▸ paired.short),
        hereDoc_eq inner' awaited' state' (level.rounds' ▸ paired.short' nofun),
        apart.rest₁, apart.rest₂,
        lines, lines', hereDocBody, hereDocBody, if_neg (by simp [quoted]), if_neg (by simp [same])]
      have length (text : List Char) : (front ++ (text ++ back.take count)).length +
        closing.length =
          front.length + text.length + ((back.take count).length + closing.length) := by
        simp only [List.length_append]
        omega
      dsimp only at reached ⊢
      have after := paired.withCursors .resume ⟨_, _, _,
        apart_after ((back.take count).length + closing.length) apart trivial.parameter⟩
      rw [← length, ← length] at after
      refine (inlineWord_crosses level paired.here (paired_inside count apart trivial) after
        (paired.cross apart reached)).bind fun leads body paired => ?_
      refine .ok .unit (paired.withBodies (.cons (fun change admitted => ?_) paired.bodies)
        ⟨awaited, known⟩)
      rw [recast_pair, body change admitted, ← alike.leads leads change admitted]
      rfl

end Resuming

theorem resumes (level : (brace.seam rounds rounds').Level inner inner')
    (expanding : inner.Expanding) :
    (brace.seam rounds rounds').Resumes inner inner' where
  expansion quoted _ paired apart := expansion_resumes quoted paired apart
  index paired apart found beyond := index_resumes level paired apart found beyond
  assignHead _ paired apart opened := assignHead_resumes level paired apart opened
  hereDoc paired apart alike known reached := hereDoc_resumes level paired apart alike known reached
  announced {p state state' head target after} pos paired _ _ run := by
    refine Awaited.unexpanding_ofRedirect
      (word_delimits expanding (fun inside => paired.text.2 ?_) run)
    rw [ReadState.skipBlanks_cursor, Cursor.skipBlanks_rest, ReadState.skip_cursor,
      Cursor.advance_rest] at inside
    exact inside.trans ((List.drop_suffix _ _).trans (List.drop_suffix _ _)).isInfix

/-- Both texts are followed at every depth. -/
theorem level_depth (brace : Brace) (rounds rounds' depth : Nat) :
    (brace.seam rounds rounds').Level (Inner.level rounds depth) (Inner.level rounds' depth) := by
  induction depth with
  | zero => exact (brace.seam rounds rounds').level_tooDeep
  | succ depth ih => exact ih.around (resumes ih (level_expanding rounds depth))

end Brace
end RecipeLint
