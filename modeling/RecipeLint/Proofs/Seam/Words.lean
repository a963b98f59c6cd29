import RecipeLint.Proofs.Seam.Expansions

/-!
# Words across a seam

Words, and what separates them, in two readings side by side.
-/

namespace RecipeLint
namespace Seam

open Reading

variable {seam : Seam} {inner inner' : Inner} {p : Phase} {state state' : ReadState}

theorem Paired.withBodies (paired : seam.Paired p state state') {bodies₁ bodies₂ : Bodies}
    (bodies : seam.Alike p bodies₁ bodies₂) (announced : ∃ awaited, seam.awaits awaited) :
    seam.Paired p { state with bodies := bodies₁ } { state' with bodies := bodies₂ } :=
  { paired with bodies, announced := fun _ => announced }

/-- The rest of a line is the same in both texts, or it reaches beyond the mark. -/
theorem Paired.line (hash : state.cursor.rest.head? = some '#')
    (paired : seam.Paired p state state') :
    lineRun (state'.cursor.rest.drop 1) = lineRun (state.cursor.rest.drop 1) ∨
      p = .before ∧ ∃ front first second,
        seam.Apart .before front first second state.cursor state'.cursor ∧
          front.length < (lineRun (state.cursor.rest.drop 1)).length + 1 := by
  by_cases early : p = .before
  · subst early
    obtain ⟨front, first, second, apart⟩ := paired.cursors
    obtain ⟨⟨rest, rfl⟩, rest', rfl⟩ := seam.joint_mark (apart.ahead rfl)
    cases front with
    | nil =>
        rw [apart.rest₁] at hash
        have mark := Option.some.inj hash
        rcases seam.marked with marked | marked <;> simp [marked] at mark
    | cons c front =>
        rw [apart.rest₁, apart.rest₂]
        simp only [List.cons_append, List.drop_succ_cons, List.drop_zero]
        by_cases broken : '\n' ∈ front
        · rw [lineRun_append_of_mem broken, lineRun_append_of_mem broken]
          exact .inl rfl
        rw [lineRun_append_of_not_mem broken, lineRun_append_of_not_mem broken]
        rcases seam.marked with marked | marked
        · refine .inr ⟨trivial, c :: front, _, _, apart, ?_⟩
          rw [marked, lineRun_cons (by decide)]
          simp only [List.length_cons, List.length_append]
          omega
        · rw [marked]
          exact .inl rfl
  · rw [paired.rest_eq early]
    exact .inl rfl

section

variable (level : seam.Level inner inner') (resumes : seam.Resumes inner inner')
  (paired : seam.Paired p state state')

include level resumes paired

omit level resumes in
theorem glob_follows (mark : Char) : seam.Follows p (glob mark state) (glob mark state') := by
  have here := paired.here
  have alike {q : Phase} (leads : p.Leads q) (pattern : String) :
      seam.Alike q (Part.glob state.cursor.position mark pattern)
        (.glob state'.cursor.position mark pattern) :=
    fun change admitted => by simp [here.leads leads change admitted]
  unfold glob
  simp only [here_bind]
  refine .skip paired 2 fun {q after'} leads paired => ?_
  simp only [rest_bind]
  rcases paired.scan (local_bracketEnd? (show '(' ≠ ')' by decide)) with ⟨same, found_same⟩ |
    ⟨rfl, front, first, second, apart, beyond⟩
  · rw [same]
    cases found : bracketEnd? '(' ')' 0 1 (state.skip 2).cursor.rest with
    | none => exact .error (here.leads leads)
    | some length =>
        obtain ⟨taken, paired, -⟩ := found_same found
        simp only [id_eq] at taken
        simp only [taken, skip_bind]
        exact .ok (alike leads _) paired
  · cases found : bracketEnd? '(' ')' 0 1 (state.skip 2).cursor.rest with
    | none => exact .unfollowed (by decide)
    | some length =>
        obtain ⟨after', paired⟩ := paired.cross apart (Nat.lt_succ_of_le (beyond found))
        exact .lost (alike (leads.trans .lose) _) paired

omit resumes in
theorem wordRound_follows (delimiters : List Char) {pieces₁ pieces₂ : Pieces}
    (pieces : seam.Alike p pieces₁ pieces₂) :
    seam.Follows p (wordRound inner delimiters pieces₁ state)
      (wordRound inner' delimiters pieces₂ state') := by
  have here := paired.here
  have empty : pieces₂.isEmpty = pieces₁.isEmpty :=
    pieces.same Pieces.isEmpty fun change pieces => pieces.isEmpty_recast change
  unfold wordRound
  simp only [here_bind, rest_bind]
  rcases paired.rest_cases with ⟨shape, shape'⟩ | ⟨c, text, text', shape, shape', next⟩
  · rw [shape, shape']
    exact .ok pieces.finish.done paired
  rw [shape, shape']
  simp only [empty]
  refine .ite (fun escape => ?_) fun _ => ?_
  · obtain ⟨head, first⟩ := next (by simp [escape]) (by simp [escape])
    rw [head, first]
    refine .skip paired 2 fun leads paired => ?_
    exact .ite (fun _ => .ok (pieces.leads leads).again paired)
      fun _ => .ok ((pieces.push here _).again.leads leads) paired
  have process : ((c = '<' || c = '>') && text'.head? = some '(' && pieces₁.isEmpty) =
      ((c = '<' || c = '>') && text.head? = some '(' && pieces₁.isEmpty) := by
    by_cases angle : c = '<' ∨ c = '>'
    · rw [(next (by rintro rfl; simp at angle) (by rintro rfl; simp at angle)).1]
    · rw [not_or] at angle
      simp [angle.1, angle.2]
  have pattern : (['?', '*', '+', '@', '!'].contains c && text'.head? = some '(') =
      (['?', '*', '+', '@', '!'].contains c && text.head? = some '(') := by
    by_cases marked : ['?', '*', '+', '@', '!'].contains c = true
    · rw [(next (by rintro rfl; simp at marked) (by rintro rfl; simp at marked)).1]
    · rw [Bool.not_eq_true] at marked
      rw [marked, Bool.false_and, Bool.false_and]
  simp only [process, pattern]
  refine .ite (fun _ => ?_) fun _ => .ite (fun _ => .ok pieces.finish.done paired) fun _ =>
    .ite (fun _ => ?_) fun _ => .ite (fun _ => ?_) fun _ => .ite (fun _ => ?_) fun _ =>
      .ite (fun quote => ?_) fun _ => .ite (fun dollar => ?_) fun _ =>
        .ended paired 1 (pieces.push here [c]).again
  · refine (substituted_follows level paired _).returning fun leads items => ?_
    refine (pieces.add leads fun change admitted => ?_).again
    simp [here.leads leads change admitted, items change admitted]
  · exact (glob_follows paired c).returning fun leads parts => (pieces.add leads parts).again
  · exact (singleQuoted_follows paired false here).returning
      fun leads parts => (pieces.add leads parts).again
  · exact (doubleQuoted_follows level paired false here).returning
      fun leads parts => (pieces.add leads parts).again
  · exact (backquoted_follows level paired (by simp [shape, quote])).returning
      fun leads parts => (pieces.add leads parts).again
  · exact expansion_or_literal_follows level paired (by simp [shape, dollar])
      pieces.add (pieces.push here _)

omit resumes in
theorem wordUpTo_follows {delimiters : List Char} (lines : delimiters.contains '\n' = true) :
    seam.Follows p (wordUpTo inner delimiters state) (wordUpTo inner' delimiters state') := by
  have here := paired.here
  unfold wordUpTo
  simp only [here_bind]
  refine Follows.bind (level.iterate
    (fun moving pieces state => (wordRound_moves moving state lines pieces).filled)
    (fun _ pieces paired => wordRound_follows level paired delimiters pieces)
    (fun change admitted => by simp [here change admitted]) paired)
    fun {q parts₁ parts₂ after after'} leads parts paired => ?_
  have empty : parts₂.isEmpty = parts₁.isEmpty := parts.same List.isEmpty isEmpty_recast
  simp only [empty]
  refine .ite (fun _ => ?_) fun _ => ?_
  · refine .current paired fun c _ => ?_
    cases c with
    | none | some c => exact .fail paired
  · exact .ok (fun change admitted => by
      simp [here.leads leads change admitted, parts change admitted]) paired

omit resumes in
theorem word_follows : seam.Follows p (word inner state) (word inner' state') :=
  wordUpTo_follows level paired (by decide)

/-! ## Here-documents -/

omit resumes in
theorem hereDocBody_follows {awaited awaited' : Awaited} (quoted : awaited'.quoted = awaited.quoted)
    {text : List Char} {pos pos' : Position} (start : seam.Alike p pos pos')
    (entered : seam.Paired p.within (.ofText text pos) (.ofText text pos')) :
    seam.Follows p (hereDocBody inner awaited text pos state)
      (hereDocBody inner' awaited' text pos' state') := by
  unfold hereDocBody
  rw [quoted]
  exact .ite (fun _ => .ok (fun change admitted => by simp [start change admitted]) paired)
    fun _ => inlineWord_follows level paired start entered

theorem hereDoc_follows {awaited awaited' : Awaited} (alike : seam.Alike p awaited awaited')
    (known : seam.awaits awaited) :
    seam.Follows p (hereDoc inner awaited state) (hereDoc inner' awaited' state') := by
  obtain ⟨front, first, second, apart⟩ := paired.cursors
  by_cases crossed : p = .before ∧ front.length <
      (awaited.lines state.cursor.rest).1.length + (awaited.lines state.cursor.rest).2.length
  · obtain ⟨rfl, beyond⟩ := crossed
    exact resumes.hereDoc paired apart alike known beyond
  have inside (early : p = .before) : (awaited.lines state.cursor.rest).1.length +
      (awaited.lines state.cursor.rest).2.length ≤ front.length :=
    Nat.le_of_not_lt fun beyond => crossed ⟨early, beyond⟩
  have lines : awaited'.lines state'.cursor.rest = awaited.lines state.cursor.rest := by
    rw [Awaited.lines_of_delimiter (alike.same (·.tabs) fun _ _ => rfl)
      (alike.same (·.delimiter) fun _ _ => rfl)]
    by_cases early : p = .before
    · have enough := inside early
      rw [apart.rest₁] at enough ⊢
      rw [apart.rest₂]
      refine Awaited.lines_local second ?_ enough
      obtain ⟨⟨rest, rfl⟩, -⟩ := seam.joint_mark (apart.ahead early)
      simp
    · rw [paired.rest_eq early]
  have entered := apart.window fun early => Nat.le_trans (Nat.le_add_right _ _) (inside early)
  rw [Awaited.take_lines] at entered
  have skipped : seam.Paired p (state.skip _) (state'.skip _) :=
    paired.withCursors (.stay p) ⟨_, _, _, apart.advance inside⟩
  rw [hereDoc_eq inner awaited state (level.rounds ▸ paired.short)]
  refine .through (.stay p)
    (fun kept => hereDoc_eq inner' awaited' state' (level.rounds' ▸ paired.short' kept)) ?_
  rw [lines]
  refine (hereDocBody_follows level skipped (alike.same (·.quoted) fun _ _ => rfl) paired.here
    entered).bind fun leads body paired => ?_
  refine .ok .unit (paired.withBodies ?_ ⟨awaited, known⟩)
  refine .cons (fun change admitted => ?_) paired.bodies
  rw [recast_pair, body change admitted, ← alike.leads leads change admitted]
  rfl

theorem hereDocs_follow {awaited₁ awaited₂ : List Awaited} (alike : seam.Alike p awaited₁ awaited₂)
    (known : ∀ awaited ∈ awaited₁, seam.awaits awaited) :
    seam.Follows p (awaited₁.forM (hereDoc inner) state)
      (awaited₂.forM (hereDoc inner') state') := by
  induction awaited₁ generalizing p awaited₂ state state' with
  | nil =>
      obtain rfl := alike.of_nil
      exact .ok .unit paired
  | cons awaited awaited₁ ih =>
      obtain ⟨awaited', awaited₂, rfl, head, tail⟩ := alike.of_cons
      refine (hereDoc_follows level resumes paired head (known _ (by simp))).bind
        fun leads _ paired => ?_
      exact ih paired (tail.leads leads) fun awaited member => known awaited (by simp [member])

theorem newline_follows : seam.Follows p (newline inner state) (newline inner' state') := by
  unfold newline
  refine .skip paired 1 fun leads paired => ?_
  simp only [get_bind, modify_bind]
  refine hereDocs_follow level resumes ?_ paired.awaited paired.awaits
  exact { paired with awaited := .nil, awaits := by simp }

/-! ## Comments and line breaks -/

omit level resumes in
theorem comment_follows (hash : state.cursor.rest.head? = some '#') :
    seam.Follows p (comment state) (comment state') := by
  have here := paired.here
  have alike (text : String) : seam.Alike p (Comment.mk state.cursor.position text)
      ⟨state'.cursor.position, text⟩ :=
    fun change admitted => by simp [here change admitted]
  unfold comment
  simp only [here_bind, rest_bind]
  rcases paired.line hash with same | ⟨rfl, front, first, second, apart, beyond⟩
  · rw [same]
    exact .skip paired _ fun leads paired => .ok ((alike _).leads leads) { paired with }
  · obtain ⟨after', lost⟩ := paired.cross apart beyond
    exact .lost ((alike _).leads .lose) { lost with }

theorem linebreakRound_follows :
    seam.Follows p (linebreakRound inner () state) (linebreakRound inner' () state') := by
  unfold linebreakRound
  refine .skipBlanks paired fun _ paired => ?_
  refine .current paired fun c shape => ?_
  split
  · exact (newline_follows level resumes paired).returning fun _ _ => .again .unit
  · refine (comment_follows paired shape).bind fun _ comment paired => ?_
    simp only [modify_bind]
    exact .ok (.again .unit) { paired with
      comments := paired.comments.append (comment.cons .nil) }
  · exact .ok (.done .unit) paired

theorem linebreaks_follow : seam.Follows p (linebreaks inner state) (linebreaks inner' state') := by
  unfold linebreaks
  exact level.iterate (fun {inner} _ value state => @linebreakRound_moves inner state value)
    (fun _ _ paired => linebreakRound_follows level resumes paired) .unit paired

end

end Seam
end RecipeLint
