import RecipeLint.Proofs.Running

/-!
# Scans

Quotation marks, brackets and the lines of here-documents are scanned for their end before their
inside is read.  What a scan finds stands where it says, and a scan that ends inside the front of a
text does not depend on what follows that front.  A scan for a bracket passes over exactly the
balanced texts. -/

namespace RecipeLint

variable {length stop : Nat} {rest inside front back : List Char}

theorem singleEnd?_found {escapes : Bool} {text : List Char}
    (found : singleEnd? escapes length text = some stop) :
    ∃ count, stop = length + count ∧ text[count]? = some '\'' := by
  fun_induction singleEnd? escapes length text with
  | case1 => cases found
  | case2 length rest =>
      cases found
      exact ⟨0, rfl, rfl⟩
  | case3 length c rest escaping ih =>
      obtain ⟨count, rfl, closed⟩ := ih found
      exact ⟨count + 2, by omega, closed⟩
  | case4 length c rest literal ih | case5 length c rest _ _ ih =>
      obtain ⟨count, rfl, closed⟩ := ih found
      exact ⟨count + 1, by omega, closed⟩

theorem backquoteText?_found {text : List Char}
    (found : backquoteText? text length rest = some (inside, stop)) :
    ∃ count, stop = length + count ∧ rest[count]? = some '\x60' ∧
      inside.length ≤ text.length + count := by
  fun_induction backquoteText? text length rest with
  | case1 => cases found
  | case2 text length rest =>
      cases found
      exact ⟨0, rfl, rfl, by simp⟩
  | case3 text length c rest special ih =>
      obtain ⟨count, rfl, closed, short⟩ := ih found
      exact ⟨count + 2, by omega, closed, by simp at short; omega⟩
  | case4 text length c rest plain ih | case5 text length c rest _ _ ih =>
      obtain ⟨count, rfl, closed, short⟩ := ih found
      exact ⟨count + 1, by omega, closed, by simp at short; omega⟩

/-- The text in backquotes is no longer than it is written. -/
theorem backquoteText?_length
    (found : backquoteText? [] 0 rest = some (inside, stop)) : inside.length ≤ rest.length := by
  obtain ⟨count, -, closed, short⟩ := backquoteText?_found found
  have fits := (List.getElem?_eq_some_iff.mp closed).1
  simp only [List.length_nil, Nat.zero_add] at short
  omega

/-- The text in backquotes takes no more lines and columns than it is written with. -/
theorem backquoteText?_along {text : List Char} {pos outer : Position}
    (found : backquoteText? text length rest = some (inside, stop))
    (abreast : pos.line = outer.line ∧ pos.column ≤ outer.column) :
    ∃ more, inside = text.reverse ++ more ∧
      (pos.along more).line = (outer.along (rest.take (stop - length))).line ∧
        (pos.along more).column ≤ (outer.along (rest.take (stop - length))).column := by
  have step (c : Char) {pos outer : Position} (abreast : pos.line = outer.line ∧
    pos.column ≤ outer.column) :
      (pos.after c).line = (outer.after c).line ∧ (pos.after c).column ≤
        (outer.after c).column := by
    unfold Position.after
    split
    · exact ⟨congrArg (· + 1) abreast.1, Int.le_refl _⟩
    · exact ⟨abreast.1, Int.add_le_add_right abreast.2 1⟩
  fun_induction backquoteText? text length rest generalizing pos outer with
  | case1 => cases found
  | case2 text length rest =>
      cases found
      exact ⟨[], (List.append_nil _).symm, by simpa using abreast⟩
  | case3 text length c rest special ih =>
      -- the backslash is left out
      have wider : (pos.after c).line = ((outer.after '\\').after c).line ∧
          (pos.after c).column ≤ ((outer.after '\\').after c).column := by
        refine step c ⟨abreast.1, ?_⟩
        have := abreast.2
        simp only [Position.after, Char.reduceEq, if_false]
        omega
      obtain ⟨more, rfl, along⟩ := ih found wider
      obtain ⟨count, rfl, -⟩ := backquoteText?_found found
      refine ⟨c :: more, by simp, ?_⟩
      rw [show length + 2 + count - length = count + 2 by omega]
      rw [Nat.add_sub_cancel_left] at along
      exact along
  | case4 text length c rest plain ih =>
      obtain ⟨more, rfl, along⟩ := ih found (step '\\' abreast)
      obtain ⟨count, rfl, -⟩ := backquoteText?_found found
      refine ⟨'\\' :: more, by simp, ?_⟩
      rw [show length + 1 + count - length = count + 1 by omega]
      rw [Nat.add_sub_cancel_left] at along
      exact along
  | case5 text length c rest _ _ ih =>
      obtain ⟨more, rfl, along⟩ := ih found (step c abreast)
      obtain ⟨count, rfl, -⟩ := backquoteText?_found found
      refine ⟨c :: more, by simp, ?_⟩
      rw [show length + 1 + count - length = count + 1 by omega]
      rw [Nat.add_sub_cancel_left] at along
      exact along

theorem exists_cons_cons (long : 1 < front.length) : ∃ c d rest, front = c :: d :: rest := by
  obtain ⟨c, behind, rfl⟩ := List.exists_cons_of_length_pos (by omega : 0 < front.length)
  obtain ⟨d, rest, rfl⟩ := List.exists_cons_of_length_pos (Nat.lt_of_succ_lt_succ long)
  exact ⟨c, d, rest, rfl⟩

theorem singleEnd?_local {escapes : Bool}
    (other : List Char) (found : singleEnd? escapes length (front ++ back) = some stop)
    (inside : stop < length + front.length) :
    singleEnd? escapes length (front ++ other) = some stop := by
  generalize whole : front ++ back = text at found
  fun_induction singleEnd? escapes length text generalizing front with
  | case1 => cases found
  | case2 length rest =>
      cases found
      obtain ⟨c, front, rfl⟩ := List.exists_cons_of_length_pos (by omega : 0 < front.length)
      obtain ⟨rfl, -⟩ := List.cons.inj whole
      simp [singleEnd?]
  | case3 length c rest escaping ih =>
      obtain ⟨count, rfl, -⟩ := singleEnd?_found found
      obtain ⟨_, d, front, rfl⟩ := exists_cons_cons (by omega : 1 < front.length)
      obtain ⟨rfl, rfl, rest_eq⟩ : _ ∧ _ ∧ front ++ back = rest := by simpa using whole
      have later := @ih front (by simp only [List.length_cons] at inside; omega) rest_eq found
      simpa [singleEnd?, escaping] using later
  | case4 length c rest literal ih =>
      obtain ⟨count, rfl, -⟩ := singleEnd?_found found
      obtain ⟨_, d, front, rfl⟩ := exists_cons_cons (by omega : 1 < front.length)
      obtain ⟨rfl, rest_eq⟩ := List.cons.inj whole
      have later := @ih (d :: front) (by simp only [List.length_cons] at inside ⊢; omega)
        rest_eq found
      simpa [singleEnd?, literal] using later
  | case5 length c rest unquoted alone ih =>
      obtain ⟨count, rfl, closed⟩ := singleEnd?_found found
      obtain ⟨d, front, rfl⟩ := List.exists_cons_of_length_pos (by omega : 0 < front.length)
      obtain ⟨rfl, rest_eq⟩ := List.cons.inj whole
      have later := @ih front (by simp only [List.length_cons] at inside; omega) rest_eq found
      have plain : d ≠ '\\' := by
        rintro rfl
        cases rest with
        | nil => simp at closed
        | cons c rest => exact alone c rest rfl rfl
      simpa [singleEnd?, plain, unquoted] using later

theorem backquoteText?_local {text : List Char}
    (other : List Char) (found : backquoteText? text length (front ++ back) = some (inside, stop))
    (within : stop < length + front.length) :
    backquoteText? text length (front ++ other) = some (inside, stop) := by
  generalize whole : front ++ back = rest at found
  fun_induction backquoteText? text length rest generalizing front with
  | case1 => cases found
  | case2 text length rest =>
      cases found
      obtain ⟨c, front, rfl⟩ := List.exists_cons_of_length_pos (by omega : 0 < front.length)
      obtain ⟨rfl, -⟩ := List.cons.inj whole
      simp [backquoteText?]
  | case3 text length c rest special ih =>
      obtain ⟨count, rfl, -⟩ := backquoteText?_found found
      obtain ⟨_, d, front, rfl⟩ := exists_cons_cons (by omega : 1 < front.length)
      obtain ⟨rfl, rfl, rest_eq⟩ : _ ∧ _ ∧ front ++ back = rest := by simpa using whole
      have later := @ih front (by simp only [List.length_cons] at within; omega) rest_eq found
      simpa only [List.cons_append, backquoteText?, special, if_true] using later
  | case4 text length c rest literal ih =>
      obtain ⟨count, rfl, -⟩ := backquoteText?_found found
      obtain ⟨_, d, front, rfl⟩ := exists_cons_cons (by omega : 1 < front.length)
      obtain ⟨rfl, rest_eq⟩ := List.cons.inj whole
      have later := @ih (d :: front) (by simp only [List.length_cons] at within ⊢; omega)
        rest_eq found
      obtain ⟨rfl, -⟩ := List.cons.inj rest_eq
      simpa only [List.cons_append, backquoteText?, literal, Bool.false_eq_true,
        if_false] using later
  | case5 text length c rest unquoted alone ih =>
      obtain ⟨count, rfl, closed, -⟩ := backquoteText?_found found
      obtain ⟨d, front, rfl⟩ := List.exists_cons_of_length_pos (by omega : 0 < front.length)
      obtain ⟨rfl, rest_eq⟩ := List.cons.inj whole
      have later := @ih front (by simp only [List.length_cons] at within; omega) rest_eq found
      have plain : d ≠ '\\' := by
        rintro rfl
        cases rest with
        | nil => simp at closed
        | cons c rest => exact alone c rest rfl rfl
      simpa [backquoteText?, plain, unquoted] using later

/-! ## Brackets -/

section Brackets

variable {opening closing c : Char} {depth : Nat} {text : List Char}

/-- The text closes `depth` brackets more than it opens, and no front of it closes more than that.
For depth zero the text is balanced. -/
def Balances (opening closing : Char) (depth : Nat) (text : List Char) : Prop :=
  (∀ front, front <+: text → front.count closing ≤ front.count opening + depth) ∧
    text.count closing = text.count opening + depth

theorem balances_nil : Balances opening closing depth [] ↔ depth = 0 := by
  simp [Balances, eq_comm]

theorem balances_cons : Balances opening closing depth (c :: text) ↔
    (∀ front, front <+: text → (c :: front).count closing ≤ (c :: front).count opening + depth) ∧
      (c :: text).count closing = (c :: text).count opening + depth := by
  constructor
  · rintro ⟨fronts, total⟩
    exact ⟨fun front start => fronts _ (List.cons_prefix_cons.mpr ⟨rfl, start⟩), total⟩
  · rintro ⟨fronts, total⟩
    refine ⟨fun front start => ?_, total⟩
    cases front with
    | nil => simp
    | cons d front =>
        obtain ⟨rfl, later⟩ := List.cons_prefix_cons.mp start
        exact fronts front later

theorem balances_other (first : c ≠ opening) (second : c ≠ closing) :
    Balances opening closing depth (c :: text) ↔ Balances opening closing depth text := by
  rw [balances_cons]
  simp only [Balances, List.count_cons_of_ne first, List.count_cons_of_ne second]

section

variable (distinct : opening ≠ closing)

include distinct

theorem balances_opening :
    Balances opening closing depth (opening :: text) ↔
      Balances opening closing (depth + 1) text := by
  rw [balances_cons]
  simp only [Balances, List.count_cons_self, List.count_cons_of_ne distinct,
    Nat.add_assoc, Nat.add_comm 1]

theorem balances_closing :
    Balances opening closing (depth + 1) (closing :: text) ↔
      Balances opening closing depth text := by
  rw [balances_cons]
  simp only [Balances, List.count_cons_self, List.count_cons_of_ne distinct.symm, ← Nat.add_assoc,
    Nat.add_le_add_iff_right, Nat.add_right_cancel_iff]

theorem not_balances_closing : ¬Balances opening closing 0 (closing :: text) := by
  intro balances
  have front := balances.1 [closing] (by simp)
  simp [distinct.symm] at front

/-- Text without brackets makes no difference. -/
theorem balances_insert {neutral : List Char} (free : ∀ c ∈ neutral, c ≠ opening ∧ c ≠ closing) :
    Balances opening closing depth (front ++ (neutral ++ back)) ↔
      Balances opening closing depth (front ++ back) := by
  induction front generalizing depth with
  | nil =>
      induction neutral with
      | nil => rfl
      | cons c neutral ih =>
          obtain ⟨first, later⟩ := List.forall_mem_cons.mp free
          exact (balances_other first.1 first.2).trans (ih later)
  | cons c front ih =>
      rw [List.cons_append, List.cons_append]
      by_cases opens : c = opening
      · rw [opens, balances_opening distinct, balances_opening distinct, ih]
      by_cases closes : c = closing
      · subst closes
        cases depth with
        | zero => exact iff_of_false (not_balances_closing distinct) (not_balances_closing distinct)
        | succ depth => rw [balances_closing distinct, balances_closing distinct, ih]
      · rw [balances_other opens closes, balances_other opens closes, ih]

/-- A scan finds the end of the first front that closes all brackets but one, which the next
character closes. -/
theorem bracketEnd?_eq_some_iff : bracketEnd? opening closing length (depth + 1) text = some stop ↔
    ∃ inside back, text = inside ++ closing :: back ∧ Balances opening closing depth inside ∧
      stop = length + inside.length := by
  induction text generalizing length depth with
  | nil => simp [bracketEnd?]
  | cons c rest ih =>
      have split : (∃ inside back, c :: rest = inside ++ closing :: back ∧
          Balances opening closing depth inside ∧ stop = length + inside.length) ↔
          c = closing ∧ depth = 0 ∧ stop = length ∨ ∃ inside back, rest =
            inside ++ closing :: back ∧
            Balances opening closing depth (c :: inside) ∧ stop = length + 1 + inside.length := by
        constructor
        · rintro ⟨inside, back, same, balances, rfl⟩
          cases inside with
          | nil => exact .inl ⟨(List.cons.inj same).1, balances_nil.mp balances, rfl⟩
          | cons d inside =>
              obtain ⟨rfl, rfl⟩ := List.cons.inj same
              exact .inr ⟨inside, back, rfl, balances, by simp only [List.length_cons]; omega⟩
        · rintro (⟨rfl, rfl, rfl⟩ | ⟨inside, back, rfl, balances, rfl⟩)
          · exact ⟨[], rest, rfl, balances_nil.mpr rfl, rfl⟩
          · exact ⟨c :: inside, back, rfl, balances, by simp only [List.length_cons]; omega⟩
      rw [split, bracketEnd?.eq_def]
      by_cases opens : c = opening
      · simp only [opens, if_true, ih, balances_opening distinct, distinct, false_and, false_or]
      by_cases closes : c = closing
      · cases depth with
        | zero => simp [closes, distinct.symm, not_balances_closing distinct, eq_comm]
        | succ depth => simp [closes, distinct.symm, balances_closing distinct, ih]
      · simp only [opens, closes, if_false, ih, balances_other opens closes, false_and, false_or]

theorem bracketEnd?_of_balances (balanced : Balances opening closing 0 text) :
    bracketEnd? opening closing 0 1 (text ++ [closing] ++ back) = some text.length :=
  (bracketEnd?_eq_some_iff distinct).mpr ⟨text, back, by simp, balanced, (Nat.zero_add _).symm⟩

theorem bracketEnd?_found (found : bracketEnd? opening closing length (depth + 1) text =
    some stop) :
    ∃ count, stop = length + count ∧ text[count]? = some closing := by
  obtain ⟨inside, back, rfl, -, rfl⟩ := (bracketEnd?_eq_some_iff distinct).mp found
  exact ⟨inside.length, rfl, by simp⟩

/-- What a scan passes over is balanced. -/
theorem bracketEnd?_balances (found : bracketEnd? opening closing 0 (depth + 1) text = some stop) :
    Balances opening closing depth (text.take stop) := by
  obtain ⟨inside, back, rfl, balances, rfl⟩ := (bracketEnd?_eq_some_iff distinct).mp found
  rwa [Nat.zero_add, List.take_left]

theorem bracketEnd?_local (other : List Char)
    (found : bracketEnd? opening closing length (depth + 1) (front ++ back) = some stop)
    (within : stop < length + front.length) :
    bracketEnd? opening closing length (depth + 1) (front ++ other) = some stop := by
  rw [bracketEnd?_eq_some_iff distinct] at found ⊢
  obtain ⟨inside, behind, same, balances, rfl⟩ := found
  obtain ⟨middle, rfl⟩ : inside ++ [closing] <+: front :=
    List.prefix_of_prefix_length_le (by rw [same]; simp) (List.prefix_append front back)
      (by simp; omega)
  exact ⟨inside, middle ++ other, by simp, balances, rfl⟩

/-- Text without brackets in front of the closing one may be put in place of another. -/
theorem bracketEnd?_swap {first second : List Char}
    (neutral : ∀ c ∈ first, c ≠ opening ∧ c ≠ closing)
    (neutral' : ∀ c ∈ second, c ≠ opening ∧ c ≠ closing)
    (found : bracketEnd? opening closing length (depth + 1) (front ++ (first ++ back)) = some stop)
    (behind : length + front.length ≤ stop) :
    ∃ count, stop = length + (front.length + first.length + count) ∧
      bracketEnd? opening closing length (depth + 1) (front ++ (second ++ back)) =
        some (length + (front.length + second.length + count)) := by
  obtain ⟨inside, after, same, balances, rfl⟩ := (bracketEnd?_eq_some_iff distinct).mp found
  obtain ⟨later, rfl⟩ : front <+: inside :=
    List.prefix_of_prefix_length_le (List.prefix_append ..)
      (by rw [same]; exact List.prefix_append ..) (by omega)
  rw [List.append_assoc, List.append_cancel_left_eq, List.append_eq_append_iff] at same
  -- the closing bracket stands behind the first text, which has none
  obtain ⟨middle, rfl, rfl⟩ : ∃ middle, later = first ++ middle ∧
    back = middle ++ closing :: after := by
    rcases same with ⟨middle, rfl, rfl⟩ | ⟨middle, rfl, reached⟩
    · exact ⟨middle, rfl, rfl⟩
    · cases middle with
      | nil => exact ⟨[], by simp, reached.symm⟩
      | cons c middle =>
          cases (List.cons.inj reached).1
          exact absurd rfl (neutral closing (by simp)).2
  refine ⟨middle.length, by simp [Nat.add_assoc], (bracketEnd?_eq_some_iff distinct).mpr ?_⟩
  refine ⟨front ++ (second ++ middle), after, by simp, ?_, by simp [Nat.add_assoc]⟩
  rw [balances_insert distinct neutral] at balances
  exact (balances_insert distinct neutral').mpr balances

end

end Brackets

/-! ## Lines -/

theorem lineRun_newline (text : List Char) : lineRun ('\n' :: text) = [] := rfl

theorem lineRun_cons {c : Char} (other : c ≠ '\n') (text : List Char) :
    lineRun (c :: text) = c :: lineRun text :=
  List.takeWhile_cons_of_pos (by simpa using other)

theorem lineRun_append_of_mem (broken : '\n' ∈ front) (back : List Char) :
    lineRun (front ++ back) = lineRun front := by
  induction front with
  | nil => simp at broken
  | cons c front ih =>
      by_cases newline : c = '\n'
      · rw [newline, List.cons_append, lineRun_newline, lineRun_newline]
      · rw [List.cons_append, lineRun_cons newline, lineRun_cons newline,
          ih (by simpa [Ne.symm newline] using broken)]

theorem lineRun_append_of_not_mem (whole : '\n' ∉ front) (back : List Char) :
    lineRun (front ++ back) = front ++ lineRun back := by
  induction front with
  | nil => rfl
  | cons c front ih =>
      rw [List.cons_append, lineRun_cons (fun same => whole (by simp [same])),
        ih fun member => whole (by simp [member])]
      rfl

theorem length_lineRun_lt {text : List Char} (broken : '\n' ∈ text) :
    (lineRun text).length < text.length := by
  induction text with
  | nil => simp at broken
  | cons c text ih =>
      by_cases newline : c = '\n'
      · simp [newline, lineRun_newline]
      · have later := ih (by simpa [Ne.symm newline] using broken)
        simpa [lineRun_cons newline] using later

namespace Awaited

/-- The lines of a here-document in front of a text, and the line that closes it. -/
def lines (awaited : Awaited) (text : List Char) : List Char × List Char :=
  if text.isEmpty then
    ([], [])
  else
    let line := text.take ((lineRun text).length + 1)
    if awaited.closedBy (lineRun text) then
      ([], line)
    else
      let below := awaited.lines (text.drop ((lineRun text).length + 1))
      (line ++ below.1, below.2)
termination_by text.length
decreasing_by
  have filled : text ≠ [] := by simpa using ‹¬text.isEmpty = true›
  have := List.length_pos_iff.mpr filled
  simp only [List.length_drop]
  omega

variable {awaited : Awaited} {text : List Char}

@[simp]
theorem lines_nil (awaited : Awaited) : awaited.lines [] = ([], []) := by
  rw [lines]
  rfl

theorem lines_closed (filled : text ≠ []) (closed : awaited.closedBy (lineRun text) = true) :
    awaited.lines text = ([], text.take ((lineRun text).length + 1)) := by
  rw [lines, if_neg (by simpa using filled), if_pos closed]

theorem lines_further (filled : text ≠ []) (further : ¬awaited.closedBy (lineRun text) = true) :
    awaited.lines text =
      (text.take ((lineRun text).length + 1) ++
        (awaited.lines (text.drop ((lineRun text).length + 1))).1,
        (awaited.lines (text.drop ((lineRun text).length + 1))).2) := by
  rw [lines, if_neg (by simpa using filled), if_neg further]

/-- The lines of a here-document stand in front of the text. -/
theorem lines_front (awaited : Awaited) (text : List Char) :
    ∃ rest, text = (awaited.lines text).1 ++ (awaited.lines text).2 ++ rest := by
  fun_induction lines awaited text with
  | case1 text => exact ⟨text, rfl⟩
  | case2 text filled line closed => exact ⟨_, (List.take_append_drop _ text).symm⟩
  | case3 text filled line further below ih =>
      obtain ⟨rest, eq⟩ := ih
      refine ⟨rest, ?_⟩
      calc
        text = line ++ text.drop ((lineRun text).length + 1) := (List.take_append_drop _ text).symm
        _ = line ++ (below.1 ++ below.2 ++ rest) := congrArg (line ++ ·) eq
        _ = line ++ below.1 ++ below.2 ++ rest := by simp only [List.append_assoc]

theorem take_lines (awaited : Awaited) (text : List Char) :
    text.take (awaited.lines text).1.length = (awaited.lines text).1 := by
  obtain ⟨rest, front⟩ := awaited.lines_front text
  have whole := congrArg (List.take (awaited.lines text).1.length) front
  rwa [List.append_assoc, List.take_left] at whole

section

variable {front : List Char} (broken : '\n' ∈ front) (rest : List Char)

include broken

theorem lines_closed_append (closed : awaited.closedBy (lineRun front) = true) :
    awaited.lines (front ++ rest) = ([], front.take ((lineRun front).length + 1)) := by
  rw [lines_closed (List.append_ne_nil_of_left_ne_nil (List.ne_nil_of_mem broken) rest)
    (by rwa [lineRun_append_of_mem broken]), lineRun_append_of_mem broken,
    List.take_append_of_le_length (length_lineRun_lt broken)]

/-- A whole line in front that does not close the document is the first one, whatever follows. -/
theorem lines_further_append (further : ¬awaited.closedBy (lineRun front) = true) :
    awaited.lines (front ++ rest) = (front.take ((lineRun front).length + 1) ++
      (awaited.lines (front.drop ((lineRun front).length + 1) ++ rest)).1,
      (awaited.lines (front.drop ((lineRun front).length + 1) ++ rest)).2) := by
  have shorter := length_lineRun_lt broken
  rw [lines_further (List.append_ne_nil_of_left_ne_nil (List.ne_nil_of_mem broken) rest)
    (by rwa [lineRun_append_of_mem broken]), lineRun_append_of_mem broken,
    List.take_append_of_le_length shorter, List.drop_append_of_le_length shorter]

end

/-- Lines that end in front of some text do not depend on it. -/
theorem lines_local {front : List Char} (other : List Char) (filled : back ≠ [])
    (inside : (awaited.lines (front ++ back)).1.length + (awaited.lines (front ++ back)).2.length ≤
      front.length) : awaited.lines (front ++ other) = awaited.lines (front ++ back) := by
  by_cases broken : '\n' ∈ front
  · have shorter := length_lineRun_lt broken
    by_cases closed : awaited.closedBy (lineRun front) = true
    · rw [lines_closed_append broken other closed, lines_closed_append broken back closed]
    · have further := fun rest => lines_further_append broken rest closed
      rw [further back] at inside
      have below : awaited.lines (front.drop ((lineRun front).length + 1) ++ other) =
          awaited.lines (front.drop ((lineRun front).length + 1) ++ back) :=
        lines_local other filled (by
          simp only [List.length_append, List.length_take, List.length_drop] at inside ⊢
          omega)
      rw [further, further, below]
  · -- the first line already reaches beyond the front
    exfalso
    have present : front ++ back ≠ [] := fun empty => filled (List.append_eq_nil_iff.mp empty).2
    have long : front.length <
        ((front ++ back).take ((lineRun (front ++ back)).length + 1)).length := by
      have := List.length_pos_iff.mpr filled
      rw [lineRun_append_of_not_mem broken]
      simp only [List.length_take, List.length_append]
      omega
    by_cases closed : awaited.closedBy (lineRun (front ++ back)) = true
    · rw [lines_closed present closed] at inside
      simp only [List.length_nil] at inside
      omega
    · rw [lines_further present closed] at inside
      simp only [List.length_append] at inside long
      omega
termination_by front.length
decreasing_by
  have := List.length_pos_iff.mpr (List.ne_nil_of_mem broken)
  simp only [List.length_drop]
  omega

/-- The lines of a here-document do not depend on where it was announced. -/
theorem lines_of_delimiter {awaited other : Awaited} (tabs : other.tabs = awaited.tabs)
    (delimiter : other.delimiter = awaited.delimiter) (text : List Char) :
    other.lines text = awaited.lines text := by
  have closes (line : List Char) : other.closedBy line = awaited.closedBy line := by
    simp only [closedBy, tabs, delimiter]
  fun_induction lines awaited text with
  | case1 text empty => rw [lines, if_pos empty]
  | case2 text filled line closed =>
      rw [lines, if_neg filled, if_pos (by rw [closes, closed])]
  | case3 text filled line further below ih =>
      rw [lines, if_neg filled, if_neg (by rwa [closes]), ih]

end Awaited

namespace Reading

variable {awaited : Awaited} {state : ReadState}

theorem hereDocRound_ended (ended : state.cursor.rest = []) :
    hereDocRound awaited () state = .ok (.done state.cursor.offset, state) := by
  simp [hereDocRound, Cursor.readLine?, Cursor.atEnd, ended]

theorem hereDocRound_closed (filled : state.cursor.rest ≠ [])
    (closed : awaited.closedBy (lineRun state.cursor.rest) = true) :
    hereDocRound awaited () state =
      .ok (.done state.cursor.offset, state.skip ((lineRun state.cursor.rest).length + 1)) := by
  simp [hereDocRound, Cursor.readLine?, Cursor.atEnd, filled, closed, move, ReadState.skip]

theorem hereDocRound_further (filled : state.cursor.rest ≠ [])
    (further : ¬awaited.closedBy (lineRun state.cursor.rest) = true) :
    hereDocRound awaited () state =
      .ok (.again (), state.skip ((lineRun state.cursor.rest).length + 1)) := by
  simp [hereDocRound, Cursor.readLine?, Cursor.atEnd, filled, further, move, ReadState.skip]

theorem lineRun_cases (text : List Char) :
    text = lineRun text ∨ ∃ rest, text = lineRun text ++ '\n' :: rest := by
  induction text with
  | nil => exact .inl rfl
  | cons c text ih =>
      by_cases newline : c = '\n'
      · subst newline
        exact .inr ⟨text, rfl⟩
      · rw [lineRun_cons newline]
        rcases ih with whole | ⟨rest, whole⟩
        · exact .inl (congrArg (c :: ·) whole)
        · exact .inr ⟨rest, congrArg (c :: ·) whole⟩

/-- The lines of a here-document are followed by another line, unless they are the last ones. -/
theorem hereDocRounds_ends (awaited : Awaited) (rounds : Nat) (state : ReadState) :
    Ends (fun error => ∃ text next, Cursor.Passes text state.cursor next ∧
      error.pos = next.position)
      (fun stop after => ∃ front back, Cursor.Passes (front ++ back) state.cursor after.cursor ∧
        after = { state with cursor := after.cursor } ∧ stop = state.cursor.offset + front.length ∧
          (state.cursor.rest = front ∨ front = [] ∨ front.getLast? = some '\n'))
      (iterate (hereDocRound awaited) rounds () state) := by
  induction rounds generalizing state with
  | zero => exact ⟨[], state.cursor, .refl _, rfl⟩
  | succ rounds ih =>
      by_cases ended : state.cursor.rest = []
      · rw [iterate_done (hereDocRound_ended ended)]
        exact ⟨[], [], .refl _, rfl, rfl, .inl ended⟩
      by_cases closed : awaited.closedBy (lineRun state.cursor.rest) = true
      · rw [iterate_done (hereDocRound_closed ended closed)]
        exact ⟨[], _, Cursor.advance_passes _ _, rfl, rfl, .inr (.inl rfl)⟩
      · rw [iterate_again (hereDocRound_further ended closed)]
        have passes := Cursor.advance_passes ((lineRun state.cursor.rest).length + 1) state.cursor
        refine (ih _).mono ?_ ?_
        · rintro error ⟨text, next, further, here⟩
          exact ⟨_, next, passes.trans further, here⟩
        rintro stop after ⟨front, back, further, same, rfl, ends⟩
        refine ⟨state.cursor.rest.take ((lineRun state.cursor.rest).length + 1) ++ front,
          back, ?_, same, ?_, ?_⟩
        · rw [List.append_assoc]
          exact passes.trans further
        · rw [ReadState.skip_cursor, passes.offset_eq, List.length_append, Nat.add_assoc]
        · rcases ends with whole | empty | newline
          · exact .inl (whole ▸ passes.rest_eq)
          · subst empty
            rw [List.append_nil]
            rcases lineRun_cases state.cursor.rest with whole | ⟨rest, whole⟩
            · refine .inl (List.take_of_length_le ?_).symm
              rw [← whole]
              exact Nat.le_succ _
            · refine .inr (.inr ?_)
              generalize lineRun state.cursor.rest = line at whole ⊢
              rw [whole, List.take_append]
              simp
          · refine .inr (.inr ?_)
            rw [List.getLast?_append, newline]
            rfl

/-- The search for the closing line of a here-document, in closed form. -/
theorem iterate_hereDocRound (awaited : Awaited) (rounds : Nat) (state : ReadState)
    (enough : state.cursor.rest.length < rounds) :
    iterate (hereDocRound awaited) rounds () state =
      .ok (state.cursor.offset + (awaited.lines state.cursor.rest).1.length,
        state.skip ((awaited.lines state.cursor.rest).1.length +
          (awaited.lines state.cursor.rest).2.length)) := by
  induction rounds generalizing state with
  | zero => omega
  | succ rounds ih =>
      by_cases ended : state.cursor.rest = []
      · rw [iterate_done (hereDocRound_ended ended), ended, Awaited.lines_nil]
        rfl
      by_cases closed : awaited.closedBy (lineRun state.cursor.rest) = true
      · rw [iterate_done (hereDocRound_closed ended closed), Awaited.lines_closed ended closed,
          List.length_nil, Nat.zero_add, ReadState.skip_length_take]
        rfl
      · have filled := List.length_pos_iff.mpr ended
        rw [iterate_again (hereDocRound_further ended closed), ih _ (by simp; omega),
          Awaited.lines_further ended closed]
        generalize (lineRun state.cursor.rest).length + 1 = count
        have moved := (Cursor.advance_passes count state.cursor).offset_eq
        rw [List.length_append, Nat.add_assoc, ReadState.skip_add state,
          ReadState.skip_length_take, ReadState.skip_cursor, moved, Cursor.advance_rest,
          Nat.add_assoc]

/-- A here-document: its lines are taken as a text of their own, and the cursor stands behind the
line that closes them. -/
theorem hereDoc_eq (inner : Inner) (awaited : Awaited) (state : ReadState)
    (enough : state.cursor.rest.length < inner.rounds) :
    hereDoc inner awaited state =
      (hereDocBody inner awaited (awaited.lines state.cursor.rest).1 state.cursor.position >>=
        fun body => modify fun state =>
          { state with bodies := (awaited.pos, body) :: state.bodies })
        (state.skip ((awaited.lines state.cursor.rest).1.length +
          (awaited.lines state.cursor.rest).2.length)) := by
  unfold hereDoc
  rw [cursor_bind, bind_ok (iterate_hereDocRound awaited inner.rounds state enough)]
  simp only [Nat.add_sub_cancel_left, Awaited.take_lines]

end Reading

end RecipeLint
