import RecipeLint.Proofs.Whole
import RecipeLint.Proofs.Yields.Commands

/-!
# Trees that are read

A text that is read gives a complete tree.  `Script.parse_wellFormed` says that every node of it is
as the grammar makes it.  Unless the text has backquotes, whose insides are read with positions of
their own, `Script.parse_placed` says that every node stands where its text does, and that a text
that cannot be read has its error at one of its own places. -/

namespace RecipeLint

namespace Script

open Reading

section Complete

variable {ground : Ground} {rounds depth : Nat} {name : String} {text : List Char}

theorem readItems_yields (quiet : ∀ source ∈ ground, '\x60' ∉ source) :
    Yields ground (fun _ => True) (fun _ => True) (readItems rounds depth) (fun _ rest => rest = [])
      fun stage items => Items ground stage.pending items := by
  refine .bind ((Inner.yielding_level quiet rounds depth).statements []) fun items =>
    .current fun rest _ => ?_
  cases rest with
  | nil => exact .pure (fun _ same => same) fun _ known => known.2
  | cons c rest => exact .fail _

/-- The end of the text is the end of the source. -/
theorem whole_of_ended (same : ∀ source ∈ ground, source = text) {state : ReadState}
    {redirects : List Redirect}
    (leads : (ReadState.stage (.ofText text .start) []).Leads (state.stage redirects)) :
    (state.stage redirects).pending.Whole ground := by
  rintro source known pos written rest ⟨front, split, rfl⟩ ⟨ended, position⟩
  obtain ⟨passed, passes⟩ := leads.passes
  have all : text = passed := by
    have := passes.rest_eq
    rw [ended, List.append_nil] at this
    exact this
  have position' : state.cursor.position = Position.start.along (front ++ (written ++ rest)) := by
    rw [← split, same source known, all]
    exact passes.position_eq
  refine @Position.eq_nil_of_along (Position.start.along (front ++ written)) rest ?_
  rw [← Position.along_append, List.append_assoc, ← position', Position.along_append]
  exact position

theorem finished_script {items : List Item}
    (finished : ∀ item ∈ items, item.node.Everywhere (Finished ground))
    (placed : ground.Holds .start) : Node.Everywhere (Finished ground)
    (.script { name, items }) := by
  refine .node ⟨⟨trivial, .nil, Field.forall_many.mpr fun item _ => ?_⟩, fun source known => ?_⟩
    fun child member => ?_
  · cases item <;> exact ⟨fun _ => nofun, fun _ _ => nofun⟩
  · exact ⟨placed source known, trivial, trivial, trivial⟩
  · obtain ⟨item, inside, rfl⟩ : ∃ item ∈ items, item.node = child := by
      simpa [Node.children, Node.fields, Field.many] using member
    exact finished item inside

/-- What is read from the whole of a text is complete, and what cannot be read fails inside of
it. -/
theorem parseWithin_reaches (quiet : ∀ source ∈ ground, '\x60' ∉ source)
    (same : ∀ source ∈ ground, source = text) :
    (∀ script, parseWithin rounds depth name text = .ok script →
        Node.Everywhere (Finished ground) (.script script)) ∧
      ∀ error, parseWithin rounds depth name text = .error error → ground.Holds error.pos := by
  have lies : ground.Lies .start text := by
    intro source known
    exact ⟨[], ⟨[], by simp [same source known], rfl⟩, nofun⟩
  have reached := @readItems_yields ground rounds depth quiet (.ofText text .start) []
    (.ofText lies) trivial
  unfold parseWithin
  match run : readItems rounds depth (.ofText text .start), reached with
  | .error error, reached =>
      refine ⟨nofun, ?_⟩
      rintro _ ⟨⟩
      exact reached
  | .ok (items, state), ⟨redirects, leads, sound, ended, drafted⟩ =>
      refine ⟨?_, nofun⟩
      rintro _ ⟨⟩
      have finished := finished_items sound (whole_of_ended same leads)
        (drafted _ (.refl _) trivial)
      exact finished_script finished lies.holds

end Complete

/-- Every tree that is read is well formed. -/
theorem parse_wellFormed {name : String} {text : List Char} {limit : NestingLimit} {script : Script}
    (read : parse name text limit = .ok script) :
    ∀ node ∈ (Node.script script).preorder, node.WellFormed := by
  have unknown : ∀ source ∈ (none : Ground), '\x60' ∉ source ∧ source = text := nofun
  have complete := (parseWithin_reaches (fun source known => (unknown source known).1)
    fun source known => (unknown source known).2).1 script read
  exact fun node member => (Node.of_mem_preorder complete member).wellFormed

/-- A pipe into a negated list, with an array in front of it and an empty here-document behind. -/
theorem parse_wellFormed_hereDoc : ∃ script,
    parse "" "x=(a $b) c | d && ! e <<'E' &\nE".toList = .ok script ∧
    ∀ node ∈ (Node.script script).preorder, node.WellFormed := by
  obtain ⟨script, read⟩ : ∃ script, parse "" "x=(a $b) c | d && ! e <<'E' &\nE".toList =
    .ok script :=
    exists_of_isOk (by decide +kernel)
  exact ⟨script, read, parse_wellFormed read⟩

/-- A text without backquotes gives nodes that stand where their text does, or an error at one of
its places. -/
theorem parse_placed (name : String) {text : List Char} (limit : NestingLimit)
    (quiet : '\x60' ∉ text) :
    (∀ script, parse name text limit = .ok script → ∀ node ∈ (Node.script script).preorder,
        Occurs text node.pos [] ∧ node.Spelled text) ∧
      ∀ error, parse name text limit = .error error → Occurs text error.pos [] := by
  have known : ∀ source ∈ (some text : Ground), '\x60' ∉ source ∧ source = text := by
    rintro _ ⟨⟩
    exact ⟨quiet, rfl⟩
  have reaches := @parseWithin_reaches (some text) (text.length + 1) limit.levels name text
    (fun source present => (known source present).1) fun source present => (known source present).2
  refine ⟨fun script read node member => ?_, fun error failed => reaches.2 error failed text rfl⟩
  have faithful := (Node.of_mem_preorder (reaches.1 script read) member).faithful text rfl
  exact ⟨faithful.placed, faithful.spelled⟩

/-- A literal that goes on behind an escaped newline, in front of a redirection and a comment. -/
theorem parse_placed_joined : ∃ script,
    parse "" "x[1]+=a\\\nb$y 2>f # c".toList = .ok script ∧
    ∀ node ∈ (Node.script script).preorder,
      Occurs "x[1]+=a\\\nb$y 2>f # c".toList node.pos [] ∧
        node.Spelled "x[1]+=a\\\nb$y 2>f # c".toList := by
  obtain ⟨script, read⟩ : ∃ script, parse "" "x[1]+=a\\\nb$y 2>f # c".toList = .ok script :=
    exists_of_isOk (by decide +kernel)
  exact ⟨script, read, (parse_placed "" .usual (by decide)).1 script read⟩

end Script

end RecipeLint
