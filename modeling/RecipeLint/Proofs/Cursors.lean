import Mathlib.Data.List.DropRight
import RecipeLint.Proofs.Scanning

/-!
# Cursors and their positions

However a cursor is used, it passes some of the text in front of it.  So its offset only grows, and
its line and column are those of the offset, counted from where the text starts.  Reading line by
line gives the text back. -/

namespace RecipeLint

/-- The column behind a text is counted from its last newline. -/
theorem Position.along_column (position : Position) (text : List Char) :
    (position.along text).column =
      if '\n' ∈ text then 1 + ((text.rtakeWhile (· ≠ '\n')).length : Int)
      else position.column + text.length := by
  induction text using List.reverseRecOn with
  | nil => simp
  | append_singleton text c ih =>
      rw [along_append, along_cons, along_nil, after]
      by_cases newline : c = '\n'
      · simp [newline]
      · rw [if_neg newline, ih, List.rtakeWhile_concat_pos _ _ _ (by simpa using newline)]
        simp only [List.mem_append, List.mem_singleton, Ne.symm newline, or_false,
          List.length_append, List.length_singleton]
        split <;> omega

/-- A text without the newline that it ends with, if it does. -/
def unterminated (text : List Char) : List Char :=
  if text.getLast? = some '\n' then text.dropLast else text

theorem unterminated_append {back : List Char} (filled : back ≠ []) (front : List Char) :
    unterminated (front ++ back) = front ++ unterminated back := by
  rw [unterminated, unterminated, List.getLast?_append_of_ne_nil _ filled,
    List.dropLast_append_of_ne_nil filled]
  split <;> rfl

namespace Cursor

variable {cursor : Cursor}

theorem readLine?_of_eq_nil (ended : cursor.rest = []) : cursor.readLine? = none := by
  simp [readLine?, atEnd, ended]

theorem readLine?_of_ne_nil (filled : cursor.rest ≠ []) : cursor.readLine? =
    some (lineRun cursor.rest, cursor.advance ((lineRun cursor.rest).length + 1)) := by
  simp [readLine?, atEnd, filled]

/-- A comment that cannot be read leaves the cursor where it is. -/
theorem cursor_of_readComment {fault : CommentExpected}
    (failed : cursor.readComment = .error fault) : fault.cursor = cursor := by
  unfold readComment at failed
  split at failed <;> cases failed
  rfl

/-- A use of a cursor. -/
inductive Call where
  | advance (count : Int)
  | skipBlanks
  | readComment
  | readName
  | readLine
  | current
  | peek (distance : Nat)
  | atEnd
  | startsWith (text : String)
  | wordEndsAt (distance : Nat)
  /-- One of the shapes is looked for in front of the text. -/
  | recognise

/-- The cursor after a call.  One that only looks leaves it where it is. -/
def Call.run : Call → Cursor → Cursor
  | advance count, cursor => cursor.advance count.toNat
  | skipBlanks, cursor => cursor.skipBlanks
  | readComment, cursor =>
      match cursor.readComment with
      | .ok (_, next) => next
      | .error fault => fault.cursor
  | readName, cursor => cursor.readName.2
  | readLine, cursor =>
      match cursor.readLine? with
      | some (_, next) => next
      | none => cursor
  | _, cursor => cursor

/-- The cursor after some calls. -/
def runs (calls : List Call) (cursor : Cursor) : Cursor :=
  calls.foldl (fun cursor call => call.run cursor) cursor

/-- Every call passes some text. -/
theorem Call.passes (call : Call) (cursor : Cursor) :
    ∃ text, Passes text cursor (call.run cursor) := by
  cases call with
  | advance | skipBlanks | readName => exact ⟨_, advance_passes _ _⟩
  | readComment =>
      cases read : cursor.readComment with
      | error fault =>
          simp only [run, read, cursor_of_readComment read]
          exact ⟨[], .refl cursor⟩
      | ok found =>
          simp only [run, read]
          unfold Cursor.readComment at read
          split at read <;> cases read
          exact ⟨_, advance_passes _ _⟩
  | readLine =>
      by_cases ended : cursor.rest = []
      · exact ⟨[], by simpa [run, readLine?_of_eq_nil ended] using .refl cursor⟩
      · simp only [run, readLine?_of_ne_nil ended]
        exact ⟨_, advance_passes _ _⟩
  | _ => exact ⟨[], .refl cursor⟩

theorem runs_passes (calls : List Call) (cursor : Cursor) :
    ∃ text, Passes text cursor (cursor.runs calls) := by
  induction calls generalizing cursor with
  | nil => exact ⟨[], .refl cursor⟩
  | cons call calls ih =>
      obtain ⟨front, first⟩ := call.passes cursor
      obtain ⟨back, later⟩ := ih (call.run cursor)
      exact ⟨front ++ back, first.trans later⟩

/-- The cursor's position is that of its offset in a source that starts at a given position. -/
structure Agrees (source : List Char) (start : Position) (cursor : Cursor) : Prop where
  inside : cursor.offset ≤ source.length
  rest : cursor.rest = source.drop cursor.offset
  line : cursor.position.line = start.line + (source.take cursor.offset).count '\n'
  column : cursor.position.column =
    if '\n' ∈ source.take cursor.offset then
      1 + (((source.take cursor.offset).rtakeWhile (· ≠ '\n')).length : Int)
    else start.column + cursor.offset

theorem Passes.agrees {text source : List Char} {start : Position}
    (passes : Passes text (.ofText source start) cursor) : cursor.Agrees source start := by
  have whole : source = text ++ cursor.rest := passes.rest_eq
  have length : cursor.offset = text.length := passes.offset_eq.trans (Nat.zero_add _)
  have taken : source.take cursor.offset = text := by rw [whole, length, List.take_left]
  refine ⟨?_, ?_, ?_, ?_⟩
  · rw [length, whole, List.length_append]
    exact Nat.le_add_right ..
  · rw [length, whole, List.drop_left]
  · rw [taken, passes.position_eq, Position.along_line]
    rfl
  · rw [taken, passes.position_eq, Position.along_column, length]
    rfl

/-- The lines that are read until none is left. -/
def lines (cursor : Cursor) : List (List Char) :=
  match _read : cursor.readLine? with
  | none => []
  | some (line, next) => line :: next.lines
termination_by cursor.rest.length
decreasing_by
  by_cases ended : cursor.rest = []
  · rw [readLine?_of_eq_nil ended] at _read
    cases _read
  · rw [readLine?_of_ne_nil ended] at _read
    cases _read
    have := List.length_pos_iff.mpr ended
    rw [advance_rest, List.length_drop]
    omega

theorem lines_of_eq_nil (ended : cursor.rest = []) : cursor.lines = [] := by
  rw [lines, readLine?_of_eq_nil ended]

theorem lines_of_ne_nil (filled : cursor.rest ≠ []) : cursor.lines =
    lineRun cursor.rest :: (cursor.advance ((lineRun cursor.rest).length + 1)).lines := by
  rw [lines, readLine?_of_ne_nil filled]

/-- The lines put together again are the text without the newline at its end. -/
theorem intercalate_lines (cursor : Cursor) :
    ['\n'].intercalate cursor.lines = unterminated cursor.rest := by
  by_cases ended : cursor.rest = []
  · rw [lines_of_eq_nil ended, ended]
    rfl
  have rest : (cursor.advance ((lineRun cursor.rest).length + 1)).rest =
      cursor.rest.drop ((lineRun cursor.rest).length + 1) := advance_rest _ _
  rw [lines_of_ne_nil ended]
  rcases Reading.lineRun_cases cursor.rest with whole | ⟨more, broken⟩
  · -- The last line has no newline, and nothing is left behind it.
    rw [← whole, List.drop_eq_nil_of_le (Nat.le_succ _)] at rest
    rw [← whole, lines_of_eq_nil rest, List.intercalate_singleton, unterminated, if_neg]
    intro last
    have member : '\n' ∈ lineRun cursor.rest := whole ▸ List.mem_of_getLast? last
    simpa using List.mem_takeWhile_imp member
  · generalize lineRun cursor.rest = line at broken rest
    have past : line.length + 1 = (line ++ ['\n']).length := by simp
    rw [broken, List.append_cons] at rest
    nth_rewrite 2 [past] at rest
    rw [List.drop_left] at rest
    rw [broken, List.append_cons]
    by_cases last : more = []
    · rw [lines_of_eq_nil (rest.trans last), List.intercalate_singleton, last]
      simp [unterminated]
    · have further : (cursor.advance (line.length + 1)).lines ≠ [] := by
        rw [lines_of_ne_nil (rest.symm ▸ last)]
        exact List.cons_ne_nil _ _
      rw [List.intercalate_cons_of_ne_nil further, intercalate_lines, rest,
        unterminated_append last]
termination_by cursor.rest.length
decreasing_by
  have := List.length_pos_iff.mpr ended
  rw [advance_rest, List.length_drop]
  omega

/-- After any calls the cursor agrees with its position, and further calls only move it on.  A
comment that cannot be read leaves it where it is, and the lines that are read until none is left
make up the rest of the source. -/
theorem calls_agree (source : List Char) (start : Position) (calls more : List Call) :
    let cursor := (ofText source start).runs calls
    cursor.Agrees source start ∧ cursor.offset ≤ (cursor.runs more).offset ∧
      (∀ fault, cursor.readComment = .error fault →
        fault.position = cursor.position ∧ Call.readComment.run cursor = cursor) ∧
      ['\n'].intercalate cursor.lines = unterminated (source.drop cursor.offset) := by
  intro cursor
  obtain ⟨text, passes⟩ := runs_passes calls (ofText source start)
  have agrees : cursor.Agrees source start := passes.agrees
  refine ⟨agrees, ?_, ?_, ?_⟩
  · obtain ⟨further, moves⟩ := runs_passes more cursor
    exact moves.offset_eq ▸ Nat.le_add_right ..
  · intro fault failed
    have same := cursor_of_readComment failed
    exact ⟨congrArg position same, by simp only [Call.run, failed, same]⟩
  · rw [← agrees.rest]
    exact intercalate_lines cursor

/-- No comment starts behind the first name, where the cursor stays. -/
theorem calls_agree_behind_name :
    let source := "a\n#b\n".toList
    let cursor := (ofText source ⟨7, 5⟩).runs [.readComment, .readName]
    cursor.readComment = .error ⟨cursor⟩ ∧ cursor.position = ⟨7, 6⟩ ∧
      Call.readComment.run cursor = cursor ∧ cursor.Agrees source ⟨7, 5⟩ ∧
      ['\n'].intercalate cursor.lines = "\n#b".toList := by
  intro source cursor
  have failed : cursor.readComment = .error ⟨cursor⟩ := rfl
  obtain ⟨agrees, -, unchanged, lines⟩ :=
    calls_agree source ⟨7, 5⟩ [.readComment, .readName] [.readLine]
  exact ⟨failed, rfl, (unchanged _ failed).2, agrees, lines⟩

end Cursor
end RecipeLint
