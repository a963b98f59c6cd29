import Mathlib.Algebra.GroupWithZero.Nat
import Mathlib.Data.List.Basic
import RecipeLint.Lint.Report

/-!
# Reports as lines

A text that is put together from whole lines has exactly these lines.  A message is a line if the
names that it speaks of are, so a report that is put together from such messages has one line for
each of them. -/

namespace RecipeLint

namespace Text

/-- The lines that end in a text. -/
def lines (text : String) : List String :=
  (text.toList.splitOn '\n').dropLast.map String.ofList

/-- A text without newlines. -/
def IsLine (text : String) : Prop :=
  '\n' ∉ text.toList

instance (text : String) : Decidable (IsLine text) :=
  inferInstanceAs (Decidable ('\n' ∉ text.toList))

theorem IsLine.append {front back : String} (first : IsLine front) (second : IsLine back) :
    IsLine (front ++ back) := by
  rw [IsLine, String.toList_append, List.mem_append, not_or]
  exact ⟨first, second⟩

theorem isLine_natText (number : Nat) : IsLine (natText number) := by
  intro member
  rw [natText, String.toList_ofList] at member
  cases Nat.isDigit_of_mem_toDigits (by decide) (by decide) member

theorem isLine_intText (number : Int) : IsLine (intText number) := by
  cases number with
  | ofNat number => exact isLine_natText number
  | negSucc number => exact .append (by decide) (isLine_natText _)

/-- A text that consists of whole lines. -/
def IsWhole (text : String) : Prop :=
  text = "" ∨ ∃ front, text = front ++ "\n"

theorem isWhole_line (front : String) : IsWhole (front ++ "\n") := .inr ⟨front, rfl⟩

theorem IsWhole.append {front back : String} (first : IsWhole front) (second : IsWhole back) :
    IsWhole (front ++ back) := by
  obtain rfl | ⟨text, rfl⟩ := second
  · rwa [String.append_empty]
  · rw [← String.append_assoc]
    exact isWhole_line _

theorem lines_append {front : String} (whole : IsWhole front) (back : String) :
    lines (front ++ back) = lines front ++ lines back := by
  have split (text more : List Char) :
      (text ++ '\n' :: more).splitOn '\n' = text.splitOn '\n' ++ more.splitOn '\n' :=
    List.splitOnP_append_cons text more (by rfl)
  obtain rfl | ⟨text, rfl⟩ := whole
  · rw [String.empty_append]
    rfl
  · have behind : (text ++ "\n" ++ back).toList = text.toList ++ '\n' :: back.toList := by simp
    have alone : (text ++ "\n").toList = text.toList ++ '\n' :: [] := by simp
    have filled : back.toList.splitOn '\n' ≠ [] := List.splitOnP_ne_nil _ _
    rw [lines, lines, behind, alone, split, split, List.dropLast_append_of_ne_nil filled,
      List.dropLast_append_of_ne_nil (by exact List.splitOnP_ne_nil _ _),
      List.map_append, List.map_append]
    simp [lines]

theorem lines_line {line : String} (straight : IsLine line) : lines (line ++ "\n") = [line] := by
  have split : (line.toList ++ '\n' :: []).splitOn '\n' = line.toList :: [].splitOn '\n' := by
    refine List.splitOnP_append_cons_of_forall_mem (fun c member => ?_) '\n' (by rfl) []
    simpa using fun (same : c = '\n') => straight (same ▸ member)
  rw [lines, String.toList_append]
  change (List.map String.ofList ((line.toList ++ '\n' :: []).splitOn '\n').dropLast) = [line]
  rw [split]
  simp

theorem lines_join {texts : List String} (whole : ∀ text ∈ texts, IsWhole text) :
    lines (String.join texts) = texts.flatMap lines := by
  induction texts with
  | nil => rfl
  | cons text texts ih =>
      obtain ⟨first, later⟩ := List.forall_mem_cons.mp whole
      rw [String.join_cons, lines_append first, ih later, List.flatMap_cons]

end Text

theorem Position.isLine_text (pos : Position) : Text.IsLine pos.text :=
  .append (.append (Text.isLine_intText _) (by decide)) (Text.isLine_intText _)

theorem ViolationKind.isLine_sentence (kind : ViolationKind) :
    Text.IsLine kind.sentence.1 ∧ ∀ text ∈ kind.sentence.2, Text.IsLine text := by
  cases kind <;> decide +kernel

theorem isLine_fillGaps {texts names : List String} (straight : ∀ text ∈ texts, Text.IsLine text)
    (named : ∀ name ∈ names, Text.IsLine name) : Text.IsLine (fillGaps texts names) := by
  fun_induction fillGaps texts names with
  | case1 => decide
  | case2 text texts ih =>
      obtain ⟨first, later⟩ := List.forall_mem_cons.mp straight
      exact first.append (ih later named)
  | case3 text texts name names ih =>
      obtain ⟨first, later⟩ := List.forall_mem_cons.mp straight
      obtain ⟨name, others⟩ := List.forall_mem_cons.mp named
      exact (name.append first).append (ih later others)

namespace Violation

variable {violation : Violation}

theorem isLine_message (named : ∀ name ∈ violation.names, Text.IsLine name) :
    Text.IsLine violation.message := by
  obtain ⟨first, texts⟩ := violation.kind.isLine_sentence
  exact first.append (isLine_fillGaps texts named)

theorem isLine_line {name : String} (named : Text.IsLine name)
    (straight : Text.IsLine violation.message) :
    Text.IsLine (violation.line name) := by
  have colon : Text.IsLine ": " := by decide
  unfold line
  split
  next pos _ =>
    exact (((named.append (by decide)).append pos.isLine_text).append colon).append straight
  next => exact (named.append colon).append straight

end Violation

namespace Report

/-- Adds the violations of several recipes, one after the other, and gives their numbers. -/
def addAll (report : Report) : List (String × List Violation) → List Nat × Report
  | [] => ([], report)
  | (name, violations) :: rest =>
      let added := report.add name violations
      let (counts, last) := added.2.addAll rest
      (added.1 :: counts, last)

/-- The lines about the violations of several recipes. -/
def linesAbout (reports : List (String × List Violation)) : List String :=
  reports.flatMap fun (name, violations) => violations.map (·.line name)

theorem addAll_counts (report : Report) (reports : List (String × List Violation)) :
    (report.addAll reports).1 = reports.map (·.2.length) := by
  induction reports generalizing report with
  | nil => rfl
  | cons _ _ ih => exact congrArg _ (ih _)

theorem addAll_written (report : Report) (reports : List (String × List Violation)) :
    (report.addAll reports).2.written =
      report.written ++ String.join ((linesAbout reports).map (· ++ "\n")) := by
  induction reports generalizing report with
  | nil => exact (String.append_empty).symm
  | cons first reports ih =>
      obtain ⟨name, violations⟩ := first
      rw [addAll]
      simp only [ih, add, textOf, linesAbout, List.flatMap_cons, List.map_append,
        String.join_append, String.append_assoc, List.map_map, Function.comp_def]

theorem addAll_found (report : Report) (reports : List (String × List Violation)) :
    (report.addAll reports).2.found = (report.found || reports.any (!·.2.isEmpty)) := by
  induction reports generalizing report with
  | nil => simp [addAll]
  | cons first reports ih =>
      obtain ⟨name, violations⟩ := first
      rw [addAll]
      simp only [ih, add, List.any_cons, Bool.or_assoc]

theorem linesAbout_length (reports : List (String × List Violation)) :
    (linesAbout reports).length = (reports.map (·.2.length)).sum := by
  simp [linesAbout, List.length_flatMap]

theorem any_filled_iff (reports : List (String × List Violation)) :
    reports.any (!·.2.isEmpty) = true ↔ 0 < (reports.map (·.2.length)).sum := by
  induction reports with
  | nil => simp
  | cons first reports ih =>
      rw [List.any_cons, Bool.or_eq_true, ih, List.map_cons, List.sum_cons,
        Nat.add_pos_iff_pos_or_pos]
      simp [List.length_pos_iff]

/-- A report about messages without newlines has one line for each violation. -/
theorem lines_addAll {reports : List (String × List Violation)}
    (straight : ∀ line ∈ linesAbout reports, Text.IsLine line) :
    Text.lines (addAll {} reports).2.written = linesAbout reports := by
  rw [addAll_written, String.empty_append, Text.lines_join]
  · rw [List.flatMap_map, List.flatMap_congr fun line member =>
      Text.lines_line (straight line member)]
    exact List.flatMap_singleton' _
  · exact List.forall_mem_map.mpr fun line _ => Text.isWhole_line line

end Report
end RecipeLint
