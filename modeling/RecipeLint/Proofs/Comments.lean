import RecipeLint.Proofs.Accounting
import RecipeLint.Proofs.Assembly.Commands

/-!
# No comment is lost

A comment between the tokens of a statement waits for the next list of statements to take it up,
which may be one further in.  Whatever has been read, none is left waiting at the end of a text, and
the tree of the script holds each comment that was read exactly once. -/

namespace RecipeLint

open Reading

/-- Reading a text builds the trees of its statements. -/
theorem Script.readItems_grows (rounds depth : Nat) (state : ReadState) :
    Grows false state itemRoots (readItems rounds depth state) := by
  unfold readItems
  refine ((Inner.level_building rounds depth).statements false [] state).bind
    fun items after built _ => ?_
  rw [current_bind]
  cases after.cursor.rest.head? with
  | none => exact .done built
  | some c => exact .failed

/-- Whatever text a reading is given, no comment is left waiting at its end. -/
def Reading.Clears (reading : Reading α) : Prop :=
  ∀ text pos value state, reading (.ofText text pos) = .ok (value, state) → state.comments = []

theorem Reading.clears_of_grows {reading : Reading α} {roots : α → Roots}
    (grows : ∀ state, Grows false state roots (reading state)) : reading.Clears := by
  intro text pos value state run
  exact (Ends.of_ok (grows _) run).clear rfl rfl

namespace Script

/-- The comments of a script, in the order of a walk over its tree. -/
def remarks (script : Script) : List Comment :=
  (Node.script script).preorder.filterMap Node.comment?

theorem remarks_eq (script : Script) :
    script.remarks = Node.remarks (script.items.map Item.node) := by
  rw [remarks, Node.filterMap_preorder]
  refine (Node.remarks_singleton (.script script)).trans ?_
  rw [Node.children, Node.fields, Field.many, List.map_map]
  rfl

theorem length_remarks (script : Script) :
    script.remarks.length = (Node.script script).preorder.countP (·.kind = .comment) := by
  rw [remarks, List.length_filterMap_eq_countP]
  refine List.countP_congr fun node _ => ?_
  rw [decide_eq_true_iff]
  constructor
  · intro found
    refine Decidable.byContradiction fun other => ?_
    rw [Node.comment?_eq_none other] at found
    cases found
  · intro same
    cases node with
    | comment it => rfl
    | command it | range it | part it | operation it => cases it <;> cases same
    | _ => cases same

/-- The script holds exactly the comments that have been read. -/
theorem remarks_perm_seen {text : List Char} {items : List Item} {state : ReadState}
    {pos : Position} (name : String)
    (built : Built false (.ofText text pos) (itemRoots items) state) :
    (remarks { name, items := placeItems state.bodies items }).Perm state.seen := by
  refine List.perm_iff_count.mpr fun it => ?_
  rw [remarks_eq, ← built.accounted.count_remarks_whole (built.clear rfl rfl) it, placeItems_eq_map,
    List.map_map, List.map_map]
  simp only [Function.comp_def, Item.node_place]

/-- Comments that are read one after another start at different positions. -/
theorem nodup_seen {text : List Char} {pos : Position} {roots : Roots} {state : ReadState}
    (built : Built false (.ofText text pos) roots state) : (state.seen.map Comment.pos).Nodup := by
  obtain ⟨fresh, split, sorted, -⟩ := built.accounted.seen
  rw [split, ReadState.ofText, List.append_nil]
  refine List.pairwise_map.mpr (sorted.imp fun before same => ?_)
  rw [same] at before
  exact Position.Before.irrefl _ before

/-- What is read as a script has been built from its text. -/
theorem parseWithin_built {rounds depth : Nat} {name : String} {text : List Char} {script : Script}
    (read : parseWithin rounds depth name text = .ok script) :
    ∃ items state, readItems rounds depth (.ofText text .start) = .ok (items, state) ∧
      script = { name, items := placeItems state.bodies items } ∧
        Built false (.ofText text .start) (itemRoots items) state := by
  unfold parseWithin at read
  match run : readItems rounds depth (.ofText text .start), readItems_grows rounds depth
    (.ofText text .start) with
  | .error _, _ =>
      rw [run] at read
      cases read
  | .ok (items, state), built =>
      rw [run] at read
      cases read
      exact ⟨items, state, rfl, rfl, built⟩

/-- No comment is lost or duplicated: at the end of the text none is left waiting, and the comments
of the tree are those that were read, each of them once.  The same goes for the end of a text of its
own, be it in backquotes, which is read as statements, or an index or here-document, which is read
as in quotes. -/
theorem parse_remarks {name : String} {text : List Char} {limit : NestingLimit} {script : Script}
    (read : parse name text limit = .ok script) :
    (∃ items state, readItems (text.length + 1) limit.levels (.ofText text .start) =
      .ok (items, state) ∧
        script = { name, items := placeItems state.bodies items } ∧ state.comments = [] ∧
          script.remarks.Perm state.seen ∧
            (Node.script script).preorder.countP (·.kind = .comment) = state.seen.length) ∧
      (script.remarks.map Comment.pos).Nodup ∧
        ∀ depth, (readItems (text.length + 1) depth).Clears ∧
          (quotedParts (Inner.level (text.length + 1) depth) none).Clears := by
  obtain ⟨items, state, run, rfl, built⟩ := parseWithin_built read
  have perm := remarks_perm_seen name built
  refine ⟨⟨items, state, run, rfl, built.clear rfl rfl, perm, ?_⟩, ?_, fun depth => ⟨?_, ?_⟩⟩
  · rw [← length_remarks, perm.length_eq]
  · exact (perm.map Comment.pos).nodup_iff.mpr (nodup_seen built)
  · exact clears_of_grows (readItems_grows (text.length + 1) depth)
  · exact clears_of_grows fun _ =>
      quotedParts_grows (Inner.level_building (text.length + 1) depth) none

/-- Comments in an array, behind a connective, in front of the body of a function, and in backquotes
in a here-document that another comment precedes. -/
theorem parse_remarks_scattered : ∃ text script,
    text = "x=( # a\n1 ) && # b\nf() # c\n\x7b :; \x7d\ncat <<E # d\n\x60# e\n\x60\nE\n".toList ∧
      parse "" text = .ok script ∧ script.remarks.length = 5 ∧
      (script.remarks.map Comment.pos).Nodup ∧
        ∃ items state, readItems (text.length + 1) 1000 (.ofText text .start) = .ok (items, state) ∧
          state.comments = [] ∧ script.remarks.Perm state.seen := by
  obtain ⟨script, read, five⟩ : ∃ script, parse ""
      "x=( # a\n1 ) && # b\nf() # c\n\x7b :; \x7d\ncat <<E # d\n\x60# e\n\x60\nE\n".toList =
        .ok script ∧
        script.remarks.length = 5 :=
    exists_of_map (by decide +kernel)
  obtain ⟨⟨items, state, run, -, clear, perm, -⟩, distinct, -⟩ := parse_remarks read
  exact ⟨_, script, rfl, read, five, distinct, items, state, run, clear, perm⟩

end Script

end RecipeLint
