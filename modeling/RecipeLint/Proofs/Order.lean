import RecipeLint.Proofs.Accounting

/-!
# The order of the text

Trees are built in the order of the text, but for redirections and options of declarations, which
are collected from among other tokens, here-documents, which stand behind the line of their
redirection, and the text in backquotes, which is spelled in another way.  Elsewhere assignments and
functions are met in the order in which they start.  Comments wait for the next list of statements,
but they are taken up all at once and in their order, so what is read along with the text around it
keeps that order as well. -/

namespace RecipeLint

/-- Whether contents with such a seat are read along with the text around them. -/
def Seat.isPlaced : Seat → Bool
  | placed => true
  | inset | aside | sealed => false

theorem Seat.isPlaced_of_own {seat : Seat} (own : seat.own = true) : seat.isPlaced = false := by
  cases seat with
  | placed | aside => cases own
  | inset | sealed => rfl

/-- Placing here-documents changes nothing for a walk that leaves out what stands elsewhere. -/
theorem Descent.gather_place {keep : Seat → Bool} {pick : Node → Option α} {bodies : Bodies}
    (shut : keep .sealed = false) (same : ∀ node, pick (node.place bodies) = pick node)
    (node : Node) :
    (seated keep).gather pick [node.place bodies] = (seated keep).gather pick [node] := by
  induction node using Node.induction_children with
  | step node ih =>
      have next : (seated keep).next (node.place bodies) =
          (node.below.filter fun root => keep root.1).map fun root =>
            (Roots.carry bodies root).2 := by
        change (List.filter _ _).map _ = _
        rw [Node.below_place, List.filter_append, Roots.filter_of, shut, List.filter_map,
          List.map_append, List.map_map]
        exact List.append_nil _
      rw [gather_singleton, gather_singleton node, same, next]
      refine congrArg (_ ++ ·) (gather_map_congr fun root member => ?_)
      rw [Roots.carry]
      split
      next => rfl
      next => exact ih root.2 (node.map_below ▸ List.mem_map_of_mem (List.mem_filter.mp member).1)

namespace Node

/-- Where an assignment or a function starts. -/
def mark? : Node → Option Position
  | .assign it => some it.pos
  | .command (.function pos _ _ _) => some pos
  | _ => none

/-- Where a comment starts. -/
def note? (node : Node) : Option Position :=
  node.comment?.map Comment.pos

/-- Where assignments and functions start in some trees, as far as they come in the order of the
text. -/
def marks (nodes : List Node) : List Position :=
  (Descent.seated Seat.ordered).gather mark? nodes

/-- Where comments start in some trees, as far as they are read along with the text around them. -/
def notes (nodes : List Node) : List Position :=
  (Descent.seated Seat.isPlaced).gather note? nodes

theorem mark?_place (bodies : Bodies) (node : Node) : (node.place bodies).mark? = node.mark? := by
  cases node with
  | assign it =>
      obtain ⟨pos, name, index, append, value⟩ := it
      rfl
  | command it => cases it <;> rfl
  | _ => rfl

theorem note?_place (bodies : Bodies) (node : Node) : (node.place bodies).note? = node.note? := by
  cases node <;> rfl

theorem mark?_of_free {node : Node} (free : node.anchored = false) : node.mark? = none := by
  cases node with
  | assign => cases free
  | command it => cases it with
    | function => cases free
    | _ => rfl
  | _ => rfl

theorem mark?_of_kind {node : Node} (kind : node.kind = .assign ∨ node.kind = .funcDecl) :
    node.mark? = some node.pos := by
  cases node with
  | assign => rfl
  | command it => cases it with
    | function => rfl
    | _ => rcases kind with kind | kind <;> cases kind
  | range it | part it | operation it => cases it <;> rcases kind with kind | kind <;> cases kind
  | _ => rcases kind with kind | kind <;> cases kind

theorem marks_place (bodies : Bodies) (node : Node) : marks [node.place bodies] = marks [node] :=
  Descent.gather_place rfl (mark?_place bodies) node

end Node

section Plain

variable {word : Word}

theorem Word.marks_of_plain (plain : word.plain = true) : Node.marks [.word word] = [] :=
  Word.gather_of_plain plain ⟨rfl, fun _ => rfl⟩

theorem Word.notes_of_plain (plain : word.plain = true) : Node.notes [.word word] = [] :=
  Word.gather_of_plain plain ⟨rfl, fun _ => rfl⟩

end Plain

/-- The positions that a root with a seat stands for. -/
def Seat.marks : Seat × Node → List Position
  | (.placed, node) => node.standing Node.marks
  | (.inset, node) => Node.marks [node]
  | _ => []

namespace Roots

variable (nodes : List Node)

/-- Where assignments and functions start in the trees, and what may still become one. -/
def marks (roots : Roots) : List Position :=
  roots.flatMap Seat.marks

/-- Where comments start in the trees. -/
def notes (roots : Roots) : List Position :=
  Node.notes ((roots.filter fun root => root.1.isPlaced).map (·.2))

variable (roots more : Roots)

@[simp]
theorem marks_append : (roots ++ more).marks = roots.marks ++ more.marks :=
  List.flatMap_append

@[simp]
theorem notes_append : (roots ++ more).notes = roots.notes ++ more.notes := by
  rw [notes, List.filter_append, List.map_append]
  exact Descent.gather_append _ _

/-- Only what comes in the order of the text counts. -/
theorem marks_filter : marks (roots.filter (·.1.ordered)) = roots.marks := by
  induction roots with
  | nil => rfl
  | cons root roots ih =>
      obtain ⟨seat, node⟩ := root
      cases seat with
      | placed | inset => exact congrArg (_ ++ ·) ih
      | aside | sealed => exact ih

theorem marks_of_inset : (of .inset nodes).marks = Node.marks nodes := by
  rw [marks, of, List.flatMap_map, Node.marks, Descent.gather_eq_flatMap]
  rfl

theorem marks_of_aside : (of .aside nodes).marks = [] := by
  simp [marks, of, Seat.marks, List.flatMap_map]

theorem marks_of_sealed : (of .sealed nodes).marks = [] := by
  simp [marks, of, Seat.marks, List.flatMap_map]

theorem marks_placed {node : Node} (other : node.kind ≠ .word) :
    (of .placed [node]).marks = Node.marks [node] :=
  (List.append_nil _).trans (Node.standing_other other)

theorem marks_plain {word : Word} (plain : word.plain = true) :
    (of .placed [.word word]).marks = [word.pos] :=
  (List.append_nil _).trans (Node.standing_plain plain)

/-- What is found in trees is there for their roots as well. -/
theorem marks_sublist :
    (Node.marks ((roots.filter fun root => root.1.ordered).map (·.2))).Sublist roots.marks := by
  induction roots with
  | nil => simp [Node.marks]
  | cons root roots ih =>
      obtain ⟨seat, node⟩ := root
      cases seat with
      | placed =>
          rw [List.filter_cons_of_pos rfl, List.map_cons, Node.marks, Descent.gather_cons]
          exact (Node.sublist_standing (fun _ => Word.marks_of_plain) node).append ih
      | inset =>
          rw [List.filter_cons_of_pos rfl, List.map_cons, Node.marks, Descent.gather_cons]
          exact (List.Sublist.refl _).append ih
      | aside | sealed => exact ih

theorem marks_sublist_of_placed : (Node.marks nodes).Sublist (of .placed nodes).marks := by
  have found := (of .placed nodes).marks_sublist
  rw [filter_of Seat.ordered, Seat.ordered, if_pos rfl, map_of] at found
  exact found

@[simp]
theorem notes_nil : notes [] = [] :=
  Descent.gather_nil

theorem notes_of_placed : (of .placed nodes).notes = Node.notes nodes := by
  rw [notes, filter_of Seat.isPlaced]
  exact congrArg Node.notes (map_of .placed nodes)

theorem notes_of_other {seat : Seat} (other : seat.isPlaced = false) (nodes : List Node) :
    (of seat nodes).notes = [] := by
  rw [notes, filter_of Seat.isPlaced, other]
  exact Descent.gather_nil

theorem notes_filter : notes (roots.filter (·.1.ordered)) = roots.notes := by
  have placed (root : Seat × Node) : (root.1.isPlaced && root.1.ordered) = root.1.isPlaced := by
    cases root.1 <;> rfl
  rw [notes, List.filter_filter]
  simp only [placed]
  rfl

end Roots

open Roots

namespace Node

theorem marks_singleton (node : Node) :
    marks [node] = node.mark?.toList ++
      marks ((node.below.filter fun root => root.1.ordered).map (·.2)) :=
  Descent.gather_singleton node

theorem marks_singleton_sublist (node : Node) :
    (marks [node]).Sublist (node.mark?.toList ++ node.below.marks) := by
  rw [marks_singleton]
  exact (List.Sublist.refl _).append node.below.marks_sublist

theorem notes_singleton (node : Node) :
    notes [node] = node.note?.toList ++ node.below.notes :=
  Descent.gather_singleton node

/-- Comments are neither assignments nor functions. -/
theorem marks_comments (comments : List Comment) :
    (Roots.of .placed (comments.map .comment)).marks = [] := by
  induction comments with
  | nil => rfl
  | cons it comments ih =>
      have none : marks [.comment it] = [] := (Descent.gather_singleton _).trans Descent.gather_nil
      rw [List.map_cons, ← List.singleton_append, Roots.of_append, marks_append, ih,
        marks_placed (by simp [kind]), none]
      rfl

theorem notes_comments (comments : List Comment) :
    notes (comments.map .comment) = comments.map Comment.pos := by
  induction comments with
  | nil => exact Descent.gather_nil
  | cons it comments ih =>
      have here : notes [.comment it] = [it.pos] :=
        (notes_singleton _).trans (congrArg ([it.pos] ++ ·) Descent.gather_nil)
      rw [List.map_cons, List.map_cons, notes, Descent.gather_cons]
      exact (congrArg (_ ++ ·) ih).trans (congrArg (· ++ _) here)

end Node

/-! ## Positions in order -/

/-- The positions that are watched while trees are built: those in the trees, and those kept for
later. -/
structure Watch where
  built : Roots → List Position
  kept : ReadState → List Position
  built_append (roots more : Roots) : built (roots ++ more) = built roots ++ built more

namespace Watch

/-- The positions kept for later come one after the other, and the text has been read beyond
them. -/
structure Keeps (watch : Watch) (state : ReadState) : Prop where
  sorted : (watch.kept state).Pairwise Position.Before
  passed : ∀ pos ∈ watch.kept state, pos.Before state.cursor.position

/-- The positions come one after the other, those kept for later last. -/
structure Follows (watch : Watch) (start : ReadState) (roots : Roots) (state : ReadState) :
    Prop where
  sorted : (watch.built roots ++ watch.kept state).Pairwise Position.Before
  range : ∀ pos ∈ watch.built roots ++ watch.kept state,
    pos ∈ watch.kept start ∨ pos.Between start.cursor.position state.cursor.position

namespace Follows

variable {watch : Watch} {start middle state : ReadState} {roots more other last next : Roots}

theorem sublist (follows : watch.Follows start roots state)
    (fewer : (watch.built other).Sublist (watch.built roots)) :
    watch.Follows start other state where
  sorted := follows.sorted.sublist (fewer.append_right _)
  range pos member := follows.range pos ((fewer.append_right _).subset member)

theorem congr (follows : watch.Follows start roots state)
    (same : watch.built other = watch.built roots) :
    watch.Follows start other state :=
  follows.sublist (same ▸ List.Sublist.refl _)

/-- Nothing new is built, and the positions kept for later stay. -/
theorem still (keeps : watch.Keeps start) (empty : watch.built roots = [])
    (same : watch.kept state = watch.kept start) : watch.Follows start roots state where
  sorted := by
    rw [empty, same]
    exact keeps.sorted
  range pos member := by
    rw [empty, same] at member
    exact .inl member

/-- A single position, which the text is read from. -/
theorem single (here : watch.built roots ++ watch.kept state = [start.cursor.position])
    (moved : start.cursor.position.Before state.cursor.position) :
    watch.Follows start roots state where
  sorted := by
    rw [here]
    exact List.pairwise_singleton _ _
  range pos member := by
    rw [here, List.mem_singleton] at member
    rw [member]
    exact .inr ⟨Position.Before.irrefl _, moved⟩

/-- The text has been read beyond all positions. -/
theorem passed (follows : watch.Follows start roots state) (keeps : watch.Keeps start)
    (le : ¬state.cursor.position.Before start.cursor.position) :
    ∀ pos ∈ watch.built roots ++ watch.kept state, pos.Before state.cursor.position := by
  intro pos member
  rcases follows.range pos member with early | between
  · exact (keeps.passed pos early).trans_not le
  · exact between.2

theorem keeps (follows : watch.Follows start roots state) (keeps : watch.Keeps start)
    (le : ¬state.cursor.position.Before start.cursor.position) : watch.Keeps state where
  sorted := follows.sorted.sublist (List.sublist_append_right _ _)
  passed pos member := follows.passed keeps le pos (List.mem_append_right _ member)

theorem seq (first : watch.Follows start roots middle) (second : watch.Follows middle more state)
    (keeps : watch.Keeps start) (le : ¬middle.cursor.position.Before start.cursor.position)
    (ge : ¬state.cursor.position.Before middle.cursor.position) :
    watch.Follows start (roots ++ more) state where
  sorted := by
    rw [watch.built_append, List.append_assoc]
    obtain ⟨sorted, -, across⟩ := List.pairwise_append.mp first.sorted
    refine List.pairwise_append.mpr ⟨sorted, second.sorted, fun early before late behind => ?_⟩
    rcases second.range late behind with kept | between
    · exact across early before late kept
    · exact (first.passed keeps le early (List.mem_append_left _ before)).trans_not between.1
  range pos member := by
    rw [watch.built_append, List.append_assoc, List.mem_append] at member
    have early (inside : pos ∈ watch.built roots ++ watch.kept middle) : pos ∈ watch.kept start ∨
        pos.Between start.cursor.position state.cursor.position :=
      (first.range pos inside).imp_right fun between => between.later ge
    rcases member with inside | behind
    · exact early (List.mem_append_left _ inside)
    · rcases second.range pos behind with kept | between
      · exact early (List.mem_append_right _ kept)
      · exact .inr (between.earlier le)

/-- What comes last is replaced. -/
theorem replace (follows : watch.Follows start (roots ++ last) state)
    (fewer : (watch.built next).Sublist (watch.built last)) :
    watch.Follows start (roots ++ next) state := by
  refine follows.sublist ?_
  rw [watch.built_append, watch.built_append]
  exact (List.Sublist.refl _).append fewer

/-- What comes last no longer counts. -/
theorem dropped (follows : watch.Follows start (roots ++ last) state) :
    watch.Follows start roots state := by
  refine follows.sublist ?_
  rw [watch.built_append]
  exact List.sublist_append_left _ _

/-- What counts for nothing comes last. -/
theorem extended (follows : watch.Follows start roots state) (empty : watch.built last = []) :
    watch.Follows start (roots ++ last) state := by
  refine follows.congr ?_
  rw [watch.built_append, empty, List.append_nil]

end Follows

end Watch

/-! ## Assignments and functions -/

namespace Watch

/-- Where assignments and functions start. -/
def declarations : Watch where
  built := Roots.marks
  kept _ := []
  built_append := marks_append

theorem declarations_built (roots : Roots) : declarations.built roots = roots.marks := rfl

theorem declarations_keeps (state : ReadState) : declarations.Keeps state where
  sorted := .nil
  passed := nofun

end Watch

open Watch

/-- Assignments and functions start one after the other. -/
abbrev Declared (start : ReadState) (roots : Roots) (state : ReadState) : Prop :=
  Watch.declarations.Follows start roots state

namespace Declared

variable {start state : ReadState} {roots other : Roots} {node : Node} {word : Word} {seat : Seat}

theorem none (empty : roots.marks = []) : Declared start roots state :=
  .still (declarations_keeps start) empty rfl

theorem single (here : roots.marks = [start.cursor.position])
    (moved : start.cursor.position.Before state.cursor.position) : Declared start roots state :=
  Watch.Follows.single (congrArg (· ++ []) here) moved

theorem rearranged (declared : Declared start roots state)
    (order : other.filter (·.1.ordered) = roots.filter (·.1.ordered)) :
    Declared start other state := by
  refine declared.congr ?_
  rw [declarations_built, declarations_built, ← other.marks_filter, order, roots.marks_filter]

/-- A node is put above what has been built last. -/
theorem above (declared : Declared start (roots ++ node.below) state)
    (unmarked : node.mark? = .none)
    (other : node.kind ≠ .word) : Declared start (roots ++ .of .placed [node]) state := by
  refine declared.replace ?_
  have found := node.marks_singleton_sublist
  rw [unmarked] at found
  rw [declarations_built, marks_placed other]
  exact found

/-- A plain word stands for where it starts. -/
theorem worded (declared : Declared start (Node.word word).below state)
    (here : word.pos = start.cursor.position)
    (moved : start.cursor.position.Before state.cursor.position) :
    Declared start (.of .placed [.word word]) state := by
  cases plain : word.plain with
  | true => exact single ((marks_plain plain).trans (congrArg ([·]) here)) moved
  | false =>
      have stands : (Roots.of .placed [.word word]).marks = Node.marks [.word word] :=
        (List.append_nil _).trans (if_neg (by simp [plain]))
      refine declared.sublist ?_
      rw [declarations_built, stands]
      exact (Node.word word).marks_singleton_sublist

/-- What starts with a plain word starts where the word does. -/
theorem named (declared : Declared start (roots ++ (.of .placed [.word word] ++ node.below)) state)
    (plain : word.plain = true) (here : node.pos = word.pos) (kind : node.kind = .assign ∨
      node.kind = .funcDecl) :
    Declared start (roots ++ .of .placed [node]) state := by
  refine declared.replace ?_
  have found := node.marks_singleton_sublist
  rw [Node.mark?_of_kind kind, here] at found
  rw [declarations_built, declarations_built, marks_append, marks_plain plain,
    marks_placed (by rcases kind with kind | kind <;> simp [kind])]
  exact found

theorem redirected {redirect : Redirect}
    (declared : Declared start (roots ++ .of .placed [.word word, .word redirect.target]) state)
    (bare : redirect.body = .none) : Declared start (roots ++ .of .placed [.redirect redirect])
    state := by
  refine above (declared.replace ?_) rfl (by simp [Node.kind])
  rw [Node.below_redirect bare]
  exact List.sublist_append_right _ _

/-- Negation and background make no difference. -/
theorem restated {stmt stmt' : Stmt}
    (declared : Declared start (roots ++ .of .placed [.stmt stmt]) state)
    (command : stmt'.command = stmt.command) (redirects : stmt'.redirects = stmt.redirects) :
    Declared start (roots ++ .of .placed [.stmt stmt']) state := by
  refine declared.replace ?_
  rw [declarations_built, declarations_built, marks_placed (by simp [Node.kind]),
    marks_placed (by simp [Node.kind]), Node.marks_singleton, Node.marks_singleton (.stmt stmt),
    Node.below_stmt command redirects]
  exact List.Sublist.refl _

theorem enclosed (declared : Declared start (roots ++ .of seat (word.parts.map .part)) state)
    (own : seat.own = true) : Declared start (roots ++ .of seat [.word word]) state := by
  refine declared.replace ?_
  rw [declarations_built, declarations_built]
  cases seat with
  | placed | aside => cases own
  | inset =>
      have below : (Node.word word).below = .of .placed (word.parts.map .part) :=
        Roots.ofFields_many ..
      rw [marks_of_inset, marks_of_inset, Node.marks_singleton, below, Roots.filter_of Seat.ordered,
        Seat.ordered, if_pos rfl, Roots.map_of]
      exact List.Sublist.refl _
  | sealed =>
      rw [marks_of_sealed]
      exact List.nil_sublist _

/-- A text that is read on its own, in the order of the text around it or elsewhere. -/
theorem withText {inside after : ReadState} {text : List Char} {pos : Position} {nodes : List Node}
    (declared : Declared (.ofText text pos) (.of .placed nodes) inside)
    (low : ¬pos.Before state.cursor.position)
    (high : ¬after.cursor.position.Before inside.cursor.position) (own : seat.own = true) :
    Declared state (.of seat (nodes.map (·.place inside.bodies))) after := by
  cases seat with
  | placed | aside => cases own
  | sealed => exact none (marks_of_sealed _)
  | inset =>
      have same : Node.marks (nodes.map (·.place inside.bodies)) = Node.marks (nodes.map id) :=
        Descent.gather_map_congr fun node _ => node.marks_place inside.bodies
      have fewer : (Roots.of .inset (nodes.map (·.place inside.bodies))).marks.Sublist
          (Roots.of .placed nodes).marks := by
        rw [marks_of_inset, same, List.map_id]
        exact marks_sublist_of_placed nodes
      have inner := declared.sublist fewer
      exact
        { sorted := inner.sorted
          range := fun pos member => (inner.range pos member).imp_right fun between =>
            (between.later high).earlier low }

end Declared

/-- Whatever a reading builds, assignments and functions come in the order of the text. -/
theorem Built.declared {loose : Bool} {start state : ReadState} {roots : Roots}
    (built : Built loose start roots state) : Declared start roots state := by
  induction built with
  | move => exact .none rfl
  | seq first second ih ih' => exact ih.seq ih' (declarations_keeps _) first.le second.le
  | rearrange _ _ order ih => exact ih.rearranged order
  | comment => exact .none (Node.marks_comments [_])
  | hold => exact .none rfl
  | take state => exact .none (Node.marks_comments state.comments)
  | list _ _ ih => exact ih
  | anchor passes filled => exact .single rfl (passes.before filled)
  | drop _ _ ih => exact ih.dropped
  | word _ here moved ih => exact ih.worded here moved
  | node _ free _ ih => exact ih.above (Node.mark?_of_free free) (Node.neutral_of_free free).2.2
  | named _ plain here kind _ ih => exact ih.named plain here kind
  | redirect _ _ _ bare _ ih => exact ⟨(ih.redirected bare).sorted, (ih.redirected bare).range⟩
  | restate _ command redirects ih => exact ih.restated command redirects
  | aside _ ih => exact ih.dropped.extended (marks_of_aside _)
  | text inner passes low high own _ ih =>
      exact ih.withText low (fun before => high (before.trans_not inner.inside)) own
  | enclose _ own ih => exact ih.enclosed own
  | literal _ _ ih => exact ih.extended (marks_of_sealed _)
  | store _ ih => exact ⟨ih.dropped.sorted, ih.dropped.range⟩

/-! ## Comments -/

namespace Watch

/-- Where comments start. -/
def comments : Watch where
  built := Roots.notes
  kept state := state.comments.map Comment.pos
  built_append := notes_append

theorem comments_built (roots : Roots) : comments.built roots = roots.notes := rfl

theorem comments_kept (state : ReadState) :
    comments.kept state = state.comments.map Comment.pos := rfl

end Watch

/-- Comments start one after the other. -/
abbrev Commented (start : ReadState) (roots : Roots) (state : ReadState) : Prop :=
  Watch.comments.Follows start roots state

namespace Commented

variable {start state : ReadState} {roots other last : Roots} {node : Node}
  {word : Word} {it : Comment}

theorem none (keeps : Watch.comments.Keeps start) (empty : roots.notes = [])
    (same : state.comments = start.comments) :
    Commented start roots state :=
  .still keeps empty (congrArg (List.map Comment.pos) same)

theorem rearranged (commented : Commented start roots state)
    (order : other.filter (·.1.ordered) = roots.filter (·.1.ordered)) :
    Commented start other state := by
  refine commented.congr ?_
  rw [comments_built, comments_built, ← other.notes_filter, order, roots.notes_filter]

/-- A comment is kept for later behind those that are. -/
theorem held {next : Cursor} {text : List Char} (keeps : Watch.comments.Keeps state)
    (passes : Cursor.Passes text state.cursor next) (filled : text ≠ [])
    (here : it.pos = state.cursor.position) :
    Commented state []
      { state with
        cursor := next, comments := state.comments ++ [it], seen := it :: state.seen } := by
  have kept : Watch.comments.built [] ++ (state.comments ++ [it]).map Comment.pos =
      Watch.comments.kept state ++ [state.cursor.position] := by
    rw [comments_built, notes_nil, List.map_append, List.map_singleton, here]
    rfl
  constructor
  · refine (congrArg (List.Pairwise _) kept).mpr
      (List.pairwise_append.mpr ⟨keeps.sorted, List.pairwise_singleton _ _, ?_⟩)
    intro pos member last same
    rw [List.mem_singleton.mp same]
    exact keeps.passed pos member
  · intro pos member
    refine (List.mem_append.mp (kept ▸ member)).imp_right fun last => ?_
    rw [List.mem_singleton.mp last]
    exact ⟨Position.Before.irrefl _, passes.before filled⟩

/-- All comments kept for later are taken up. -/
theorem taken (keeps : Watch.comments.Keeps state) :
    Commented state (.of .placed (state.comments.map .comment)) { state with comments := [] } := by
  have found : Watch.comments.built (.of .placed (state.comments.map .comment)) ++ [] =
      Watch.comments.kept state := by
    rw [comments_built, notes_of_placed, Node.notes_comments, List.append_nil]
    rfl
  constructor
  · exact (congrArg (List.Pairwise _) found).mpr keeps.sorted
  · intro pos member
    exact .inl (found ▸ member)

/-- A node takes the place of what is below it. -/
theorem above (commented : Commented start (roots ++ last) state)
    (same : last.notes = node.below.notes)
    (kind : node.kind ≠ .comment) : Commented start (roots ++ .of .placed [node]) state := by
  refine commented.replace ?_
  rw [comments_built, comments_built, same, notes_of_placed, Node.notes_singleton,
    Node.note?, Node.comment?_eq_none kind]
  exact List.Sublist.refl _

theorem redirected {redirect : Redirect}
    (commented : Commented start (roots ++ .of .placed [.word word, .word redirect.target]) state)
    (plain : word.plain = true) (bare : redirect.body = .none) :
    Commented start (roots ++ .of .placed [.redirect redirect]) state := by
  refine commented.above ?_ (by simp [Node.kind])
  rw [Node.below_redirect bare, notes_of_placed, notes_of_placed, Node.notes, Descent.gather_cons]
  exact congrArg (· ++ _) (Word.notes_of_plain plain)

end Commented

/-- Whatever a reading builds, comments come in the order of the text. -/
theorem Built.commented {loose : Bool} {start state : ReadState} {roots : Roots}
    (built : Built loose start roots state) (keeps : Watch.comments.Keeps start) :
    Commented start roots state := by
  induction built with
  | move => exact .none keeps notes_nil rfl
  | seq first second ih ih' =>
      exact (ih keeps).seq (ih' ((ih keeps).keeps keeps first.le)) keeps first.le second.le
  | rearrange _ _ order ih => exact (ih keeps).rearranged order
  | @comment _ state _ _ it passes filled here clear =>
      refine .single ?_ (passes.before filled)
      rw [comments_built, notes_of_placed, comments_kept, clear, ← here]
      exact (List.append_nil _).trans (Node.notes_comments [it])
  | hold passes filled here => exact .held keeps passes filled here
  | take => exact .taken keeps
  | list _ _ ih => exact ih keeps
  | anchor =>
      exact .none keeps ((notes_of_placed _).trans (Word.notes_of_plain (Word.plain_anchor _))) rfl
  | drop _ _ ih => exact (ih keeps).dropped
  | @word _ _ _ word _ _ _ ih =>
      exact @Commented.above _ _ [] _ (.word word) (ih keeps) rfl (by simp [Node.kind])
  | node _ free _ ih => exact (ih keeps).above rfl (Node.neutral_of_free free).1
  | named _ plain _ kind _ ih =>
      refine (ih keeps).above ?_ (by rcases kind with kind | kind <;> simp [kind])
      rw [notes_append, notes_of_placed, Word.notes_of_plain plain, List.nil_append]
  | redirect _ plain _ bare _ ih =>
      exact ⟨((ih keeps).redirected plain bare).sorted, ((ih keeps).redirected plain bare).range⟩
  | restate _ command redirects ih =>
      refine (ih keeps).above ?_ (by simp [Node.kind])
      rw [Node.below_stmt command redirects, notes_of_placed]
      exact Node.notes_singleton _
  | aside _ ih => exact (ih keeps).dropped.extended (notes_of_other rfl _)
  | text _ _ _ _ own => exact .none keeps (notes_of_other (Seat.isPlaced_of_own own) _) rfl
  | enclose _ own ih =>
      exact (ih keeps).dropped.extended (notes_of_other (Seat.isPlaced_of_own own) _)
  | literal _ _ ih => exact (ih keeps).extended (notes_of_other rfl _)
  | store _ ih => exact ⟨(ih keeps).dropped.sorted, (ih keeps).dropped.range⟩

end RecipeLint
