import RecipeLint.Proofs.Openings

/-!
# How trees are assembled

While a text is read, trees are put together from smaller ones.  `Built` says that the reading
between two states has made trees with given roots.  Its rules are all that a reading can do: move
on, read a comment and keep it for later or take up the comments kept, put trees below a new node,
wait for a here-document and store its lines, and read a text of its own.  What holds of all
readings is shown by induction on these rules.  `Grows` says of an outcome that the trees of its
value have been built. -/

namespace RecipeLint

/-! ## The trees at hand -/

/-- Where the contents of a field stand in the text of their node. -/
inductive Seat where
  /-- Among the tokens of the node, in the order of the fields. -/
  | placed
  /-- There as well, but in a text of their own: an index. -/
  | inset
  /-- Anywhere among the tokens of the node: redirections, and the options of a declaration. -/
  | aside
  /-- In a text of their own that stands elsewhere or is spelled in another way. -/
  | sealed
deriving DecidableEq

namespace Seat

/-- Whether contents with such a seat come in the order of the text. -/
def ordered : Seat → Bool
  | placed | inset => true
  | aside | sealed => false

/-- Whether contents with such a seat are a text of their own. -/
def own : Seat → Bool
  | placed | aside => false
  | inset | sealed => true

end Seat

/-- Where the contents of a field of a node stand. -/
def Node.seat (node : Node) (slot : Slot) : Seat :=
  if slot = .index then .inset
  else if node.seals slot then .sealed
  else if slot = .redirects ∨ slot = .opts then .aside
  else .placed

theorem Node.own_seat (node : Node) (slot : Slot) : (node.seat slot).own = node.seals slot := by
  unfold seat
  split
  next same =>
    subst same
    cases node with
    | part it => cases it with
      | substitution _ _ backquoted => cases backquoted <;> rfl
      | _ => rfl
    | _ => rfl
  next =>
    split
    next shut => exact shut.symm
    next loose =>
      rw [Bool.not_eq_true] at loose
      rw [loose]
      split <;> rfl

/-- The roots of some trees, each with its seat. -/
abbrev Roots := List (Seat × Node)

namespace Roots

/-- Roots that stand in one way. -/
def of (seat : Seat) (nodes : List Node) : Roots :=
  nodes.map fun node => (seat, node)

/-- The roots in some fields. -/
def ofFields (seat : Slot → Seat) (fields : List Field) : Roots :=
  fields.map fun field => (seat field.1, field.2)

theorem of_append (seat : Seat) (front back : List Node) :
    of seat (front ++ back) = of seat front ++ of seat back :=
  List.map_append

@[simp]
theorem map_of (seat : Seat) (nodes : List Node) : (of seat nodes).map (·.2) = nodes := by
  rw [of, List.map_map]
  exact List.map_id _

/-- All roots of one kind, or none. -/
theorem filter_of (keep : Seat → Bool) (seat : Seat) (nodes : List Node) :
    (of seat nodes).filter (fun root => keep root.1) = if keep seat then of seat nodes else [] := by
  cases kept : keep seat with
  | true | false => simp [of, kept]

variable (seat : Slot → Seat) (slot : Slot)

theorem ofFields_append (front back : List Field) :
    ofFields seat (front ++ back) = ofFields seat front ++ ofFields seat back :=
  List.map_append

theorem ofFields_many {α : Type} (toNode : α → Node) (values : List α) :
    ofFields seat (Field.many slot toNode values) = of (seat slot) (values.map toNode) := by
  rw [ofFields, Field.many, of, List.map_map, List.map_map]
  rfl

theorem ofFields_optional {α : Type} (toNode : α → Node) (value : Option α) :
    ofFields seat (Field.optional slot toNode value) = of (seat slot)
      (value.toList.map toNode) := by
  cases value <;> rfl

theorem ofFields_one (node : Node) :
    ofFields seat (Field.one slot node) = of (seat slot) [node] := rfl

/-- Puts here-documents in place below a root, unless it is a text of its own. -/
def carry (bodies : Bodies) (root : Seat × Node) : Seat × Node :=
  (root.1, if root.1.own then root.2 else root.2.place bodies)

end Roots

namespace Node

/-- The roots of the trees below a node. -/
def below (node : Node) : Roots :=
  .ofFields node.seat node.fields

/-- The roots below a node whose children fill one field. -/
theorem of_eq_below {α : Type} {node : Node} {slot : Slot} {toNode : α → Node}
    {values : List α} {seat : Seat}
    (fields : node.fields = Field.many slot toNode values) (place : node.seat slot = seat) :
    .of seat (values.map toNode) = node.below := by
  rw [below, fields, Roots.ofFields_many, place]

/-- The roots below a node whose children come one field after the other. -/
theorem append_eq_below {node : Node} {first second : List Field} {roots more : Roots}
    (fields : node.fields = first ++ second) (front : Roots.ofFields node.seat first = roots)
    (back : Roots.ofFields node.seat second = more) : roots ++ more = node.below := by
  rw [below, fields, Roots.ofFields_append, front, back]

theorem map_below (node : Node) : node.below.map (·.2) = node.children := by
  rw [below, Roots.ofFields, List.map_map]
  rfl

theorem seals_place (bodies : Bodies) (node : Node) : (node.place bodies).seals = node.seals := by
  funext slot
  cases node with
  | part it => cases it with
    | substitution _ _ backquoted => cases backquoted <;> cases slot <;> rfl
    | _ => cases slot <;> rfl
  | _ => cases slot <;> rfl

/-- The roots below a node with here-documents in place. -/
theorem below_place (bodies : Bodies) (node : Node) :
    (node.place bodies).below =
      node.below.map (Roots.carry bodies) ++ .of .sealed ((node.document bodies).map (·.2)) := by
  have seat : (node.place bodies).seat = node.seat :=
    funext fun slot => by rw [Node.seat, Node.seat, seals_place]
  rw [below, seat, fields_place, Roots.ofFields_append, below, Roots.ofFields,
    Roots.ofFields, Roots.ofFields, List.map_map, List.map_map]
  congr 1
  · refine List.map_congr_left fun field _ => ?_
    rw [Function.comp_apply, Function.comp_apply, Roots.carry, node.own_seat field.1]
    rfl
  · rw [Roots.of, List.map_map]
    refine List.map_congr_left fun field member => ?_
    obtain ⟨entry, -, rfl⟩ := exists_of_mem_document member
    have sealed : node.seat .heredoc = .sealed := by
      cases node with
      | part it => cases it with
        | substitution _ _ backquoted => cases backquoted <;> rfl
        | _ => rfl
      | _ => rfl
    rw [sealed]
    rfl

/-- Negation and background make no difference below a statement. -/
theorem below_stmt {stmt other : Stmt} (command : other.command = stmt.command)
    (redirects : other.redirects = stmt.redirects) : (Node.stmt other).below =
      (Node.stmt stmt).below := by
  have seat : (Node.stmt other).seat = (Node.stmt stmt).seat :=
    funext fun slot => by cases slot <;> rfl
  rw [below, below, seat, fields, fields, command, redirects]

/-- A redirection without a here-document has its target below it. -/
theorem below_redirect {redirect : Redirect} (bare : redirect.body = none) :
    (Node.redirect redirect).below = .of .placed [.word redirect.target] := by
  rw [below, fields, bare]
  rfl

/-- Whether a node is known by where it starts. -/
def anchored : Node → Bool
  | .comment _ | .word _ | .assign _ | .redirect _ | .command (.function ..) => true
  | _ => false

end Node

/-- A node that says the truth is drawn from the source if all below it is. -/
theorem Node.Drawn.over {node : Node} {start : Cursor} {source : List Char} (said : node.Says start)
    (below : ∀ root ∈ node.below, root.2.Drawn source)
    (excerpt : Excerpt source start.position start.rest) :
    node.Drawn source :=
  .of_fields (said source excerpt) fun field member =>
    below (node.seat field.1, field.2) (List.mem_map_of_mem member)

theorem Node.Drawn.below {node : Node} {source : List Char} (drawn : node.Drawn source) :
    ∀ root ∈ node.below, root.2.Drawn source :=
  List.forall_mem_map.mpr fun _ member => drawn.field member

/-- The children with some seats. -/
def Descent.seated (keep : Seat → Bool) : Descent where
  next node := (node.below.filter fun root => keep root.1).map (·.2)
  next_sublist node := node.map_below ▸ List.filter_sublist.map _

/-- The word that marks the place where something starts. -/
def Word.anchor (pos : Position) : Word :=
  { pos, parts := [] }

theorem Word.plain_anchor (pos : Position) : (anchor pos).plain = true := rfl

/-! ## Building trees -/

/-- From the first state to the second one, trees with the given roots are built.  Unless `loose`,
no comments are left over for later. -/
inductive Built : Bool → ReadState → Roots → ReadState → Prop
  /-- The cursor moves. -/
  | move {loose : Bool} {state : ReadState} {next : Cursor} {text : List Char}
      (passes : Cursor.Passes text state.cursor next) : Built loose state []
      { state with cursor := next }
  | seq {loose : Bool} {start middle state : ReadState} {roots more : Roots}
      (first : Built loose start roots middle) (second : Built loose middle more state) :
      Built loose start (roots ++ more) state
  /-- What is not in the order of the text may come in any order. -/
  | rearrange {loose : Bool} {start state : ReadState} {roots other : Roots}
      (built : Built loose start roots state) (perm : other.Perm roots)
      (order : other.filter (·.1.ordered) = roots.filter (·.1.ordered)) :
      Built loose start other state
  /-- A comment in a list of statements. -/
  | comment {loose : Bool} {state : ReadState} {next : Cursor} {text : List Char} {it : Comment}
      (passes : Cursor.Passes text state.cursor next) (filled : text ≠ [])
      (here : it.pos = state.cursor.position) (clear : state.comments = []) :
      Built loose state (.of .placed [.comment it])
        { state with cursor := next, seen := it :: state.seen }
  /-- A comment between the tokens of a statement. -/
  | hold {state : ReadState} {next : Cursor} {text : List Char} {it : Comment}
      (passes : Cursor.Passes text state.cursor next) (filled : text ≠ [])
      (here : it.pos = state.cursor.position) :
      Built true state []
        { state with cursor := next, comments := state.comments ++ [it], seen := it :: state.seen }
  /-- A list of statements takes up the comments. -/
  | take {loose : Bool} (state : ReadState) :
      Built loose state (.of .placed (state.comments.map .comment)) { state with comments := [] }
  /-- All comments have been taken up. -/
  | list {loose : Bool} {start state : ReadState} {roots : Roots}
    (built : Built true start roots state)
      (clear : state.comments = []) : Built loose start roots state
  /-- Some text is remembered by where it starts. -/
  | anchor {loose : Bool} {state : ReadState} {next : Cursor} {text : List Char}
      (passes : Cursor.Passes text state.cursor next) (filled : text ≠ []) :
      Built loose state (.of .placed [.word (.anchor state.cursor.position)])
        { state with cursor := next }
  /-- A word turns out to be a keyword or a name. -/
  | drop {loose : Bool} {start state : ReadState} {roots : Roots} {word : Word}
      (built : Built loose start (roots ++ .of .placed [.word word]) state)
      (plain : word.plain = true) :
      Built loose start roots state
  | word {loose : Bool} {start state : ReadState} {word : Word}
      (built : Built loose start (Node.word word).below state)
      (here : word.pos = start.cursor.position)
      (moved : start.cursor.position.Before state.cursor.position) :
      Built loose start (.of .placed [.word word]) state
  | node {loose : Bool} {start state : ReadState} {roots : Roots} {node : Node}
      (built : Built loose start (roots ++ node.below) state) (free : node.anchored = false)
      (said : node.Says start.cursor) : Built loose start (roots ++ .of .placed [node]) state
  /-- An assignment or a function, whose name or keyword comes first. -/
  | named {loose : Bool} {start state : ReadState} {roots : Roots} {node : Node} {word : Word}
      (built : Built loose start (roots ++ (.of .placed [.word word] ++ node.below)) state)
      (plain : word.plain = true) (here : node.pos = word.pos) (kind : node.kind = .assign ∨
        node.kind = .funcDecl)
      (said : node.Says start.cursor) : Built loose start (roots ++ .of .placed [node]) state
  /-- A redirection, whose operator comes first and which may wait for a here-document. -/
  | redirect {loose : Bool} {start state : ReadState} {roots : Roots} {redirect : Redirect}
    {word : Word}
      {awaited : List Awaited}
      (built : Built loose start (roots ++ .of .placed [.word word, .word redirect.target]) state)
      (plain : word.plain = true) (here : redirect.pos = word.pos) (bare : redirect.body = none)
      (waits : awaited = state.awaited ∨ awaited = state.awaited ++ [.ofRedirect redirect]) :
      Built loose start (roots ++ .of .placed [.redirect redirect]) { state with awaited }
  /-- A statement is negated or put into the background. -/
  | restate {loose : Bool} {start state : ReadState} {roots : Roots} {stmt other : Stmt}
      (built : Built loose start (roots ++ .of .placed [.stmt stmt]) state)
      (command : other.command = stmt.command) (redirects : other.redirects = stmt.redirects) :
      Built loose start (roots ++ .of .placed [.stmt other]) state
  /-- What has been read last belongs to the side. -/
  | aside {loose : Bool} {start state : ReadState} {roots : Roots} {node : Node}
      (built : Built loose start (roots ++ .of .placed [node]) state) :
      Built loose start (roots ++ .of .aside [node]) state
  /-- A text of its own, which lies in the text that is passed. -/
  | text {loose : Bool} {state inside : ReadState} {next : Cursor} {raw text : List Char}
    {pos : Position}
      {nodes : List Node} {seat : Seat}
      (inner : Built false (.ofText text pos) (.of .placed nodes) inside)
      (passes : Cursor.Passes raw state.cursor next) (low : ¬pos.Before state.cursor.position)
      (high : ¬next.position.Before (pos.along text)) (own : seat.own = true)
      (drawn : ∀ source, Excerpt source state.cursor.position state.cursor.rest →
        Excerpt source pos text) :
      Built loose state (.of seat (nodes.map (·.place inside.bodies)))
        { state with cursor := next, seen := inside.seen ++ state.seen }
  /-- The parts in a text of its own make a word. -/
  | enclose {loose : Bool} {start state : ReadState} {roots : Roots} {word : Word} {seat : Seat}
      (built : Built loose start (roots ++ .of seat (word.parts.map .part)) state)
      (own : seat.own = true) :
      Built loose start (roots ++ .of seat [.word word]) state
  /-- A text of its own that is taken literally. -/
  | literal {loose : Bool} {start state : ReadState} {roots : Roots} {word : Word}
      (built : Built loose start roots state) (plain : word.plain = true) :
      Built loose start (roots ++ .of .sealed [.word word]) state
  /-- The lines of a here-document are kept until they can be put in place. -/
  | store {loose : Bool} {start state : ReadState} {roots : Roots} {awaited : Awaited} {body : Word}
      (built : Built loose start (roots ++ .of .sealed [.word body])
        { state with awaited := awaited :: state.awaited }) :
      Built loose start roots { state with bodies := (awaited.pos, body) :: state.bodies }

namespace Built

variable {loose : Bool} {start middle state : ReadState} {roots more : Roots}

theorem passes (built : Built loose start roots state) :
    ∃ text, Cursor.Passes text start.cursor state.cursor := by
  induction built with
  | move passes => exact ⟨_, passes⟩
  | seq _ _ first second =>
      obtain ⟨front, passes⟩ := first
      obtain ⟨back, further⟩ := second
      exact ⟨_, passes.trans further⟩
  | comment passes | hold passes => exact ⟨_, passes⟩
  | take => exact ⟨[], .refl _⟩
  | anchor passes | text _ passes => exact ⟨_, passes⟩
  | rearrange _ _ _ ih | list _ _ ih | drop _ _ ih | word _ _ _ ih | node _ _ _ ih
  | named _ _ _ _ _ ih | redirect _ _ _ _ _ ih | restate _ _ _ ih | aside _ ih | enclose _ _ ih
  | literal _ _ ih | store _ ih => exact ih

/-- What is read later is an excerpt of what is read. -/
theorem excerpt (built : Built loose start roots state) {source : List Char}
    (excerpt : Excerpt source start.cursor.position start.cursor.rest) :
    Excerpt source state.cursor.position state.cursor.rest := by
  obtain ⟨text, passes⟩ := built.passes
  exact excerpt.passes passes

theorem admits (built : Built loose start roots state) {items : List Item}
    (later : ∀ item ∈ items, item.Admits state.cursor) : ∀ item ∈ items, item.Admits start.cursor :=
  fun item member source excerpt => later item member source (built.excerpt excerpt)

theorem le (built : Built loose start roots state) :
    ¬state.cursor.position.Before start.cursor.position := by
  obtain ⟨text, passes⟩ := built.passes
  rw [passes.position_eq]
  exact Position.not_along_before _ text

/-- The reading of a text does not go beyond it. -/
theorem inside {text : List Char} {pos : Position}
    (built : Built loose (.ofText text pos) roots state) :
    ¬(pos.along text).Before state.cursor.position := by
  obtain ⟨front, passes⟩ := built.passes
  have split : text = front ++ state.cursor.rest := passes.rest_eq
  have reached : state.cursor.position = pos.along front := passes.position_eq
  rw [split, Position.along_append, reached]
  exact Position.not_along_before _ _

/-- Unless comments may be left over, none are. -/
theorem clear (built : Built loose start roots state) (strict : loose = false)
    (none : start.comments = []) :
    state.comments = [] := by
  induction built with
  | move => exact none
  | seq _ _ first second => exact second strict (first strict none)
  | comment => exact none
  | hold => cases strict
  | take => rfl
  | list _ clear => exact clear
  | anchor | text => exact none
  | rearrange _ _ _ ih | drop _ _ ih | word _ _ _ ih | node _ _ _ ih | named _ _ _ _ _ ih
  | redirect _ _ _ _ _ ih | restate _ _ _ ih | aside _ ih | enclose _ _ ih | literal _ _ ih
  | store _ ih => exact ih strict none

theorem stay (state : ReadState) : Built loose state [] state :=
  .move (.refl _)

theorem skip (count : Nat) (state : ReadState) : Built loose state [] (state.skip count) :=
  .move (Cursor.advance_passes count _)

theorem skipBlanks (state : ReadState) : Built loose state [] state.skipBlanks :=
  .move (Cursor.advance_passes _ _)

/-- Nothing more is built. -/
theorem silent (built : Built loose start roots middle) (further : Built loose middle [] state) :
    Built loose start roots state := by
  simpa only [List.append_nil] using built.seq further

theorem behind (built : Built loose start roots state) (count : Nat) :
    Built loose start roots (state.skip count) :=
  built.silent (.skip count state)

theorem behindBlanks (built : Built loose start roots state) :
    Built loose start roots state.skipBlanks :=
  built.silent (.skipBlanks state)

/-- Roots that are not in the order of the text change places with others. -/
theorem exchange {before first second : Roots}
    (built : Built loose start (before ++ (first ++ second)) state)
    (out : first.filter (·.1.ordered) = [] ∨ second.filter (·.1.ordered) = []) :
    Built loose start (before ++ (second ++ first)) state := by
  refine built.rearrange (List.perm_append_comm.append_left _) ?_
  rw [List.filter_append, List.filter_append, List.filter_append, List.filter_append]
  rcases out with none | none
  · rw [none, List.append_nil, List.nil_append]
  · rw [none, List.append_nil, List.nil_append]

/-- All that has been built is put below a node. -/
theorem wrap {node : Node} (built : Built loose start roots state) (same : roots = node.below)
    (free : node.anchored = false) (said : node.Says start.cursor) :
    Built loose start (.of .placed [node]) state :=
  @Built.node loose start state [] node (same ▸ built) free said

/-- A node with nothing below it. -/
theorem leaf {node : Node} (built : Built loose start roots state) (bare : node.below = [])
    (free : node.anchored = false) (said : node.Says start.cursor) :
    Built loose start (roots ++ .of .placed [node]) state := by
  refine .node ?_ free said
  rwa [bare, List.append_nil]

/-- All trees that are built from an excerpt of the source are drawn from it. -/
theorem drawn (built : Built loose start roots state) {source : List Char}
    (excerpt : Excerpt source start.cursor.position start.cursor.rest)
    (read : ∀ entry ∈ start.bodies, (Node.word entry.2).Drawn source) :
    (∀ root ∈ roots, root.2.Drawn source) ∧ ∀ entry ∈ state.bodies,
    (Node.word entry.2).Drawn source := by
  have also {front : Roots} {seat : Seat} {node : Node}
    (drawn : ∀ root ∈ front, root.2.Drawn source)
      (new : node.Drawn source) : ∀ root ∈ front ++ .of seat [node], root.2.Drawn source :=
    List.forall_mem_append.mpr ⟨drawn, List.forall_mem_singleton.mpr new⟩
  induction built with
  | move | hold => exact ⟨List.forall_mem_nil _, read⟩
  | seq first _ early late =>
      obtain ⟨front, read⟩ := early excerpt read
      obtain ⟨back, read⟩ := late (first.excerpt excerpt) read
      exact ⟨List.forall_mem_append.mpr ⟨front, back⟩, read⟩
  | rearrange _ perm _ ih =>
      obtain ⟨drawn, read⟩ := ih excerpt read
      exact ⟨fun root member => drawn root (perm.mem_iff.mp member), read⟩
  | comment | anchor =>
      exact ⟨List.forall_mem_singleton.mpr (.over (.plain rfl rfl) (List.forall_mem_nil _) excerpt),
        read⟩
  | take =>
      refine ⟨List.forall_mem_map.mpr (List.forall_mem_map.mpr fun comment _ => ?_), read⟩
      exact .over (.plain rfl rfl) (List.forall_mem_nil _) excerpt
  | list _ _ ih => exact ih excerpt read
  | drop _ _ ih =>
      obtain ⟨drawn, read⟩ := ih excerpt read
      exact ⟨(List.forall_mem_append.mp drawn).1, read⟩
  | word _ _ _ ih =>
      obtain ⟨drawn, read⟩ := ih excerpt read
      exact ⟨List.forall_mem_singleton.mpr (.over (.plain rfl rfl) drawn excerpt), read⟩
  | node _ _ said ih =>
      obtain ⟨drawn, read⟩ := ih excerpt read
      obtain ⟨front, below⟩ := List.forall_mem_append.mp drawn
      exact ⟨also front (.over said below excerpt), read⟩
  | named _ _ _ _ said ih =>
      obtain ⟨drawn, read⟩ := ih excerpt read
      obtain ⟨front, back⟩ := List.forall_mem_append.mp drawn
      exact ⟨also front (.over said (List.forall_mem_append.mp back).2 excerpt), read⟩
  | redirect _ _ _ bare _ ih =>
      obtain ⟨drawn, read⟩ := ih excerpt read
      obtain ⟨front, back⟩ := List.forall_mem_append.mp drawn
      refine ⟨also front (.over (.plain rfl rfl) ?_ excerpt), read⟩
      rw [Node.below_redirect bare]
      exact List.forall_mem_singleton.mpr (back _ (List.mem_cons_of_mem _ List.mem_cons_self))
  | restate _ command redirects ih =>
      obtain ⟨drawn, read⟩ := ih excerpt read
      obtain ⟨front, back⟩ := List.forall_mem_append.mp drawn
      refine ⟨also front (.over (.plain rfl rfl) ?_ excerpt), read⟩
      rw [Node.below_stmt command redirects]
      exact (back _ List.mem_cons_self).below
  | aside _ ih =>
      obtain ⟨drawn, read⟩ := ih excerpt read
      obtain ⟨front, back⟩ := List.forall_mem_append.mp drawn
      exact ⟨also front (back _ List.mem_cons_self), read⟩
  | text _ _ _ _ _ inside ih =>
      obtain ⟨drawn, stored⟩ := ih (inside _ excerpt) nofun
      refine ⟨List.forall_mem_map.mpr (List.forall_mem_map.mpr fun node member => ?_), read⟩
      exact (drawn (.placed, node) (List.mem_map_of_mem member)).place stored
  | @enclose _ _ _ _ _ seat _ _ ih =>
      obtain ⟨drawn, read⟩ := ih excerpt read
      obtain ⟨front, back⟩ := List.forall_mem_append.mp drawn
      refine ⟨also front (.over (.plain rfl rfl) ?_ excerpt), read⟩
      exact List.forall_mem_map.mpr (List.forall_mem_map.mpr fun part member =>
        back (seat, .part part) (List.mem_map_of_mem (List.mem_map_of_mem member)))
  | literal _ plain ih =>
      obtain ⟨front, read⟩ := ih excerpt read
      refine ⟨also front (.over (.plain rfl rfl) ?_ excerpt), read⟩
      refine List.forall_mem_map.mpr (List.forall_mem_map.mpr fun part member => ?_)
      have literal := List.all_eq_true.mp plain part member
      cases part with
      | literal => exact .over (.plain rfl rfl) (List.forall_mem_nil _) excerpt
      | _ => cases literal
  | store _ ih =>
      obtain ⟨drawn, read⟩ := ih excerpt read
      obtain ⟨front, back⟩ := List.forall_mem_append.mp drawn
      exact ⟨front, List.forall_mem_cons.mpr ⟨back _ List.mem_cons_self, read⟩⟩

end Built

namespace Reading

/-- The trees of the outcome's value have been built since the given state. -/
def Grows (loose : Bool) (start : ReadState) (roots : α → Roots) (outcome : Outcome α) : Prop :=
  Ends (fun _ => True) (fun value state => Built loose start (roots value) state) outcome

namespace Grows

variable {loose : Bool} {start state : ReadState} {before : Roots} {roots : α → Roots}
  {goal : β → Roots}

theorem failed {error : ParseError} : Grows loose start roots (.error error) := trivial

theorem done {value : α} (built : Built loose start (roots value) state) :
    Grows loose start roots (.ok (value, state)) := built

/-- What comes after what has been built. -/
theorem after {outcome : Outcome α} (built : Built loose start before state)
    (grows : Grows loose state roots outcome) :
    Grows loose start (fun value => before ++ roots value) outcome :=
  Ends.imp grows fun _ _ further => built.seq further

/-- What builds nothing. -/
theorem quiet {outcome : Outcome α} (built : Built loose start before state)
    (grows : Grows loose state (fun _ => []) outcome) :
    Grows loose start (fun _ => before) outcome :=
  Ends.imp grows fun _ _ further => built.silent further

theorem skip (count : Nat) {outcome : Outcome α}
    (grows : Grows loose (state.skip count) roots outcome) :
    Grows loose state roots outcome :=
  after (.skip count state) grows

theorem skipBlanks {outcome : Outcome α} (grows : Grows loose state.skipBlanks roots outcome) :
    Grows loose state roots outcome :=
  after (.skipBlanks state) grows

theorem bind {reading : Reading α} {next : α → Reading β} {origin state : ReadState}
    (grows : Grows loose origin roots (reading state))
    (later : ∀ value state, Built loose origin (roots value) state →
      Grows loose start goal (next value state)) :
    Grows loose start goal ((reading >>= next) state) :=
  Ends.bind grows later

/-- A text of its own, which lies in the text that has been passed. -/
theorem within {reading : Reading α} {nodes : α → List Node} {holds : α → Prop}
    {text raw : List Char} {pos : Position} {next : Cursor} (inside : Ends (fun _ => True)
      (fun value after => Built false (.ofText text pos) (.of .placed (nodes value)) after ∧
        holds value)
      (reading (.ofText text pos)))
    (passes : Cursor.Passes raw state.cursor next) (low : ¬pos.Before state.cursor.position)
    (high : ¬next.position.Before (pos.along text))
    (drawn : ∀ source, Excerpt source state.cursor.position state.cursor.rest →
      Excerpt source pos text) :
    Ends (fun _ => True) (fun outcome after =>
        Built loose state (.of .sealed ((nodes outcome.1).map (·.place outcome.2))) after ∧
        holds outcome.1)
      (Reading.within text pos reading { state with cursor := next }) := by
  unfold Reading.within
  match run : reading (.ofText text pos), inside with
  | .ok (value, last), ⟨built, holding⟩ => exact ⟨.text built passes low high rfl drawn, holding⟩
  | .error _, _ => trivial

theorem map {reading : Reading α} {change : α → β} {state : ReadState}
    (grows : Grows loose start roots (reading state))
    (weaken : ∀ value state, Built loose start (roots value) state →
      Built loose start (goal (change value)) state) :
    Grows loose start goal ((change <$> reading) state) := by
  rw [map_eq_bind]
  exact grows.bind fun value state built => done (weaken value state built)

/-- A loop whose rounds add to what has been built. -/
theorem iterate {step : α → Reading (Round α β)}
    (round : ∀ value state, Built loose start (roots value) state →
      Grows loose start (Round.elim roots goal) (step value state))
    {value : α} (built : Built loose start (roots value) state) (rounds : Nat) :
    Grows loose start goal (Reading.iterate step rounds value state) := by
  refine Ends.iterate (fun value state => Built loose start (roots value) state) (fun _ => trivial)
    (fun value state built => Ends.imp (round value state built) ?_) rounds value state built
  rintro (value | result) state built
  · exact built
  · exact built

end Grows

end Reading

end RecipeLint
