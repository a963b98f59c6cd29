import Mathlib.Algebra.GroupWithZero.Nat
import RecipeLint.Proofs.Assembly
import RecipeLint.Proofs.Classification

/-!
# Accounting for comments

Every comment that is read is at every moment in exactly one place: in a tree that has been built,
among the comments kept for later, or in a here-document that waits to be put in place.  Every
here-document that waits belongs to one redirection in the trees, so putting them in place loses
none and repeats none. -/

namespace RecipeLint

/-! ## Comments and open redirections in trees -/

/-- The children that are no text of their own. -/
def Descent.loose : Descent :=
  .seated fun seat => !seat.own

namespace Node

/-- The comments in some trees. -/
def remarks (nodes : List Node) : List Comment :=
  Descent.full.gather comment? nodes

/-- Where the redirections in some trees start that have no here-document, texts of their own
apart. -/
def opens (nodes : List Node) : List Position :=
  Descent.loose.gather open? nodes

@[simp]
theorem remarks_nil : remarks [] = [] :=
  Descent.gather_nil

@[simp]
theorem opens_nil : opens [] = [] :=
  Descent.gather_nil

@[simp]
theorem remarks_append (front back : List Node) :
    remarks (front ++ back) = remarks front ++ remarks back :=
  Descent.gather_append front back

@[simp]
theorem opens_append (front back : List Node) : opens (front ++ back) = opens front ++ opens back :=
  Descent.gather_append front back

theorem remarks_cons (node : Node) (nodes : List Node) :
    remarks (node :: nodes) = remarks [node] ++ remarks nodes :=
  Descent.gather_cons node nodes

theorem opens_cons (node : Node) (nodes : List Node) :
    opens (node :: nodes) = opens [node] ++ opens nodes :=
  Descent.gather_cons node nodes

theorem remarks_singleton (node : Node) : remarks [node] = node.comment?.toList ++
    remarks node.children :=
  Descent.gather_singleton node

theorem opens_singleton (node : Node) :
    opens [node] = node.open?.toList ++ opens (Descent.loose.next node) :=
  Descent.gather_singleton node

theorem remarks_perm {nodes others : List Node} (perm : nodes.Perm others) :
    (remarks nodes).Perm (remarks others) :=
  Descent.gather_perm perm

theorem opens_perm {nodes others : List Node} (perm : nodes.Perm others) :
    (opens nodes).Perm (opens others) :=
  Descent.gather_perm perm

end Node

section Plain

variable {word : Word}

/-- There is nothing below the parts of a plain word. -/
theorem Word.gather_of_plain {descent : Descent} {pick : Node → Option α}
    (plain : word.plain = true)
    (skips : pick (.word word) = none ∧ ∀ part, pick (.part part) = none) :
    descent.gather pick [.word word] = [] := by
  rw [Descent.gather_singleton, skips.1]
  refine List.eq_nil_iff_forall_not_mem.mpr fun value member => ?_
  rw [Option.toList_none, List.nil_append, Descent.gather_eq_flatMap, List.mem_flatMap] at member
  obtain ⟨child, inside, found⟩ := member
  have below := (descent.next_sublist _).subset inside
  obtain ⟨part, among, rfl⟩ : ∃ part ∈ word.parts, Node.part part = child := by
    simpa [Node.children, Node.fields, Field.many] using below
  obtain ⟨pos, text, rfl⟩ : ∃ pos text, part = .literal pos text := by
    have literal := List.all_eq_true.mp plain part among
    cases part with
    | literal pos text => exact ⟨pos, text, rfl⟩
    | _ => cases literal
  have bare : descent.next (.part (.literal pos text)) = [] :=
    List.sublist_nil.mp (descent.next_sublist _)
  rw [Descent.gather_singleton, skips.2, bare, Descent.gather_nil] at found
  cases found

theorem Word.remarks_of_plain (plain : word.plain = true) : Node.remarks [.word word] = [] :=
  Word.gather_of_plain plain ⟨rfl, fun _ => rfl⟩

theorem Word.opens_of_plain (plain : word.plain = true) : Node.opens [.word word] = [] :=
  Word.gather_of_plain plain ⟨rfl, fun _ => rfl⟩

end Plain

/-- The comments in here-documents that have been read. -/
def Bodies.remarks (bodies : Bodies) : List Comment :=
  Node.remarks (bodies.map fun entry => .word entry.2)

/-- Where the redirections start that wait for here-documents or have them. -/
def ReadState.keys (state : ReadState) : List Position :=
  state.awaited.map Awaited.pos ++ state.bodies.map Prod.fst

namespace Node

/-- The positions that a root stands for, given those found in trees: a plain word may still become
something that starts there. -/
def standing (found : List Node → List Position) : Node → List Position
  | .word it => if it.plain then [it.pos] else found [.word it]
  | node => found [node]

section Standing

variable {found : List Node → List Position}

theorem standing_plain {word : Word} (plain : word.plain = true) :
    standing found (.word word) = [word.pos] :=
  if_pos plain

theorem standing_other {node : Node} (other : node.kind ≠ .word) :
    standing found node = found [node] := by
  cases node with
  | word it => exact absurd rfl other
  | _ => rfl

/-- What is found in a tree is there for its root as well. -/
theorem sublist_standing (bare : ∀ word : Word, word.plain = true → found [.word word] = [])
    (node : Node) :
    (found [node]).Sublist (standing found node) := by
  unfold standing
  split
  next it =>
    split
    next plain =>
      rw [bare it plain]
      exact List.nil_sublist _
    next => exact List.Sublist.refl _
  next => exact List.Sublist.refl _

end Standing

theorem count_opens_le (pos : Position) (node : Node) :
    (opens [node]).count pos ≤ (node.standing opens).count pos :=
  (sublist_standing (fun _ => Word.opens_of_plain) node).count_le pos

end Node

/-- The positions that a root with a seat lays claim to. -/
def Seat.claims : Seat × Node → List Position
  | (.placed, node) => node.standing Node.opens
  | (.aside, node) => Node.opens [node]
  | _ => []

namespace Roots

/-- The comments in the trees. -/
def remarks (roots : Roots) : List Comment :=
  Node.remarks (roots.map (·.2))

/-- Where open redirections start in the trees. -/
def opens (roots : Roots) : List Position :=
  Node.opens ((roots.filter fun root => !root.1.own).map (·.2))

/-- The positions that the trees lay claim to. -/
def claims (roots : Roots) : List Position :=
  roots.flatMap Seat.claims

variable (roots more : Roots) (it : Comment) (pos : Position)

@[simp]
theorem count_remarks_append :
    (roots ++ more).remarks.count it = roots.remarks.count it + more.remarks.count it := by
  rw [remarks, List.map_append, Node.remarks_append, List.count_append]
  rfl

@[simp]
theorem count_opens_append :
    (roots ++ more).opens.count pos = roots.opens.count pos + more.opens.count pos := by
  rw [opens, List.filter_append, List.map_append, Node.opens_append, List.count_append]
  rfl

@[simp]
theorem count_claims_append :
    (roots ++ more).claims.count pos = roots.claims.count pos + more.claims.count pos := by
  rw [claims, List.flatMap_append, List.count_append]
  rfl

@[simp]
theorem remarks_of (seat : Seat) (nodes : List Node) :
    (of seat nodes).remarks = Node.remarks nodes := by
  rw [remarks, map_of]

theorem opens_of (seat : Seat) (nodes : List Node) :
    (of seat nodes).opens = if seat.own then [] else Node.opens nodes := by
  rw [opens, filter_of fun seat => !seat.own]
  cases seat.own with
  | true => exact Node.opens_nil
  | false => exact congrArg Node.opens (map_of seat nodes)

@[simp]
theorem opens_of_placed (nodes : List Node) : (of .placed nodes).opens = Node.opens nodes :=
  opens_of ..

@[simp]
theorem opens_of_aside (nodes : List Node) : (of .aside nodes).opens = Node.opens nodes :=
  opens_of ..

theorem opens_of_own {seat : Seat} (own : seat.own = true) (nodes : List Node) :
    (of seat nodes).opens = [] := by
  rw [opens_of, own]
  rfl

@[simp]
theorem claims_of_placed (nodes : List Node) :
    (of .placed nodes).claims = nodes.flatMap (Node.standing Node.opens) := by
  simp [of, claims, Seat.claims, List.flatMap_map]

theorem claims_of_aside (node : Node) : (of .aside [node]).claims = Node.opens [node] :=
  List.flatMap_singleton ..

theorem claims_of_own {seat : Seat} (own : seat.own = true) (nodes : List Node) :
    (of seat nodes).claims = [] := by
  cases seat with
  | placed | aside => cases own
  | inset | sealed => simp [of, claims, Seat.claims]

theorem count_opens_le_claims : roots.opens.count pos ≤ roots.claims.count pos := by
  induction roots with
  | nil => simp [opens]
  | cons root roots ih =>
      obtain ⟨seat, node⟩ := root
      have first : (opens [(seat, node)]).count pos ≤ (claims [(seat, node)]).count pos := by
        rw [claims, List.flatMap_singleton]
        cases seat with
        | placed => exact node.count_opens_le pos
        | aside => exact Nat.le_refl _
        | inset | sealed => simp [opens, Seat.own]
      have opened := count_opens_append [(seat, node)] roots pos
      have claimed := count_claims_append [(seat, node)] roots pos
      rw [List.singleton_append] at opened claimed
      omega

end Roots

namespace Node

theorem count_remarks (it : Comment) (node : Node) :
    (remarks [node]).count it = node.comment?.toList.count it + node.below.remarks.count it := by
  rw [remarks_singleton, List.count_append, Roots.remarks, map_below]

theorem count_opens (pos : Position) (node : Node) :
    (opens [node]).count pos = node.open?.toList.count pos + node.below.opens.count pos := by
  rw [opens_singleton, List.count_append]
  rfl

end Node

/-! ## Putting here-documents in place -/

namespace Node

variable (bodies : Bodies) (it : Comment)

/-- How often a comment occurs in the here-document that a position stands for. -/
def documented (pos : Position) : Nat :=
  (remarks ((bodies.lookup pos).toList.map .word)).count it

theorem count_remarks_carry {roots : Roots}
    (placed : ∀ root ∈ roots, (remarks [root.2.place bodies]).count it =
      (remarks [root.2]).count it + ((opens [root.2]).map (documented bodies it)).sum) :
    (Roots.remarks (roots.map (Roots.carry bodies))).count it =
      roots.remarks.count it + (roots.opens.map (documented bodies it)).sum := by
  induction roots with
  | nil => simp [Roots.remarks, Roots.opens]
  | cons root roots ih =>
      have first := placed root List.mem_cons_self
      have later := ih fun root member => placed root (List.mem_cons_of_mem _ member)
      rw [Roots.remarks, Roots.remarks] at later ⊢
      rw [List.map_cons, List.map_cons, List.map_cons, remarks_cons, remarks_cons root.2,
        List.count_append, List.count_append, later, Roots.opens, Roots.opens, List.filter_cons]
      cases own : root.1.own with
      | true =>
          simp only [Roots.carry, own, if_true, Bool.not_true, Bool.false_eq_true, if_false]
          omega
      | false =>
          simp only [Roots.carry, own, Bool.false_eq_true, if_false, Bool.not_false,
            if_true, List.map_cons]
          rw [opens_cons root.2, List.map_append, List.sum_append_nat, first]
          omega

/-- The here-document of an open redirection is that of its position. -/
theorem count_remarks_document (node : Node) :
    (remarks ((node.document bodies).map (·.2))).count it =
      (node.open?.toList.map (documented bodies it)).sum := by
  unfold document
  cases node.open? with
  | none => simp [Field.optional]
  | some pos => cases found : bodies.lookup pos <;> simp [Field.optional, documented, found]

/-- A tree with here-documents in place holds its comments and those of the here-documents. -/
theorem count_remarks_place (node : Node) :
    (remarks [node.place bodies]).count it =
      (remarks [node]).count it + ((opens [node]).map (documented bodies it)).sum := by
  induction node using induction_children with
  | step node ih =>
      have same : (node.place bodies).comment? = node.comment? := by cases node <;> rfl
      have carried := @count_remarks_carry bodies it node.below fun root member =>
        ih root.2 (node.map_below ▸ List.mem_map_of_mem member)
      have document := node.count_remarks_document bodies it
      have opened : opens [node] = node.open?.toList ++ node.below.opens := opens_singleton node
      rw [count_remarks, count_remarks it node, same, opened, below_place,
        Roots.count_remarks_append, carried,
        Roots.remarks_of, document, List.map_append, List.sum_append_nat]
      omega

variable {bodies}

/-- If each here-document belongs to one of the positions, the positions stand for all of them. -/
theorem sum_documented {positions : List Position} (single : ∀ pos, positions.count pos ≤ 1)
    (owned : ∀ pos, (bodies.map Prod.fst).count pos ≤ positions.count pos) :
    (positions.map (documented bodies it)).sum = bodies.remarks.count it := by
  induction bodies generalizing positions with
  | nil =>
      have zero : documented [] it = fun _ => 0 := funext fun pos => by simp [documented]
      simp [zero, Bodies.remarks, List.map_const']
  | cons entry bodies ih =>
      obtain ⟨key, body⟩ := entry
      have first := owned key
      rw [List.map_cons, List.count_cons_self] at first
      have perm := List.perm_cons_erase (List.count_pos_iff.mp (by omega : 0 < positions.count key))
      -- the key does not come again, so the other positions look up the other here-documents
      have others : (positions.erase key).map (documented ((key, body) :: bodies) it) =
          (positions.erase key).map (documented bodies it) := by
        refine List.map_congr_left fun pos member => ?_
        have other : (pos == key) = false := by
          have present := List.count_pos_iff.mpr member
          have once := single key
          rw [beq_eq_false_iff_ne]
          rintro rfl
          rw [List.count_erase_self] at present
          omega
        simp only [documented, List.lookup_cons, other]
      have rest := @ih (positions.erase key)
        (fun pos => Nat.le_trans ((List.erase_sublist).count_le pos) (single pos))
        fun pos => by
          have here := owned pos
          have once := single key
          rw [List.map_cons, List.count_cons] at here
          rw [List.count_erase]
          by_cases same : key = pos
          · subst same
            simp only [beq_self_eq_true, if_true] at here ⊢
            omega
          · simp only [beq_eq_false_iff_ne.mpr same, Bool.false_eq_true, if_false, Nat.add_zero,
              Nat.sub_zero] at here ⊢
            exact here
      calc (positions.map (documented ((key, body) :: bodies) it)).sum
          = ((key :: positions.erase key).map (documented ((key, body) :: bodies) it)).sum :=
            (perm.map _).sum_nat
        _ = (remarks [.word body]).count it + (Bodies.remarks bodies).count it := by
            rw [List.map_cons, List.sum_cons, others, rest]
            simp [documented]
        _ = (Bodies.remarks ((key, body) :: bodies)).count it := by
            rw [← List.count_append]
            exact congrArg (List.count it) (remarks_cons (.word body) _).symm

/-- Trees with all here-documents in place hold their comments and those of the here-documents. -/
theorem count_remarks_placed {nodes : List Node} (single : ∀ pos, (opens nodes).count pos ≤ 1)
    (owned : ∀ pos, (bodies.map Prod.fst).count pos ≤ (opens nodes).count pos) :
    (remarks (nodes.map (·.place bodies))).count it = (remarks nodes).count it +
    bodies.remarks.count it := by
  rw [← sum_documented it single owned]
  clear single owned
  induction nodes with
  | nil => simp
  | cons node nodes ih =>
      rw [List.map_cons, remarks_cons, remarks_cons node, opens_cons, List.map_append,
        List.sum_append_nat, List.count_append, List.count_append, ih, count_remarks_place]
      omega

end Node

/-! ## Where the comments are -/

/-- All that has been read is accounted for. -/
structure Accounted (start : ReadState) (roots : Roots) (state : ReadState) : Prop where
  /-- The comments read in between come one after the other. -/
  seen : ∃ fresh, state.seen = fresh ++ start.seen ∧
    fresh.Pairwise (fun it earlier => earlier.pos.Before it.pos) ∧
      ∀ it ∈ fresh, it.pos.Between start.cursor.position state.cursor.position
  /-- Each of them is in the trees, kept for later, or in a here-document that has been read. -/
  kept (it : Comment) :
    roots.remarks.count it + state.comments.count it + state.bodies.remarks.count it +
        start.seen.count it =
      state.seen.count it + start.comments.count it + start.bodies.remarks.count it
  /-- No two trees lay claim to one position. -/
  single (pos : Position) : roots.claims.count pos ≤ 1
  range : ∀ pos ∈ roots.claims, pos.Between start.cursor.position state.cursor.position
  /-- Each here-document belongs to an open redirection in the trees. -/
  owned (pos : Position) : state.keys.count pos ≤ start.keys.count pos + roots.opens.count pos

namespace Accounted

variable {start middle state : ReadState} {roots more other : Roots}

/-- The same trees in another order, or with new nodes above them. -/
theorem regroup (accounted : Accounted start roots state)
    (remarks : ∀ it, other.remarks.count it = roots.remarks.count it)
    (claims : ∀ pos, other.claims.count pos ≤ roots.claims.count pos)
    (opens : ∀ pos, roots.opens.count pos ≤ other.opens.count pos) :
    Accounted start other state where
  seen := accounted.seen
  kept it := by
    rw [remarks it]
    exact accounted.kept it
  single pos := Nat.le_trans (claims pos) (accounted.single pos)
  range pos member := by
    refine accounted.range pos (List.count_pos_iff.mp ?_)
    exact Nat.lt_of_lt_of_le (List.count_pos_iff.mpr member) (claims pos)
  owned pos := Nat.le_trans (accounted.owned pos) (Nat.add_le_add_left (opens pos) _)

/-- Other trees in place of the last ones. -/
theorem replaced (accounted : Accounted start (roots ++ more) state)
    (remarks : ∀ it, other.remarks.count it = more.remarks.count it)
    (claims : ∀ pos, other.claims.count pos ≤ more.claims.count pos)
    (opens : ∀ pos, more.opens.count pos ≤ other.opens.count pos) :
    Accounted start (roots ++ other) state := by
  refine accounted.regroup (fun it => ?_) (fun pos => ?_) fun pos => ?_
  · rw [Roots.count_remarks_append, Roots.count_remarks_append, remarks]
  · rw [Roots.count_claims_append, Roots.count_claims_append]
    exact Nat.add_le_add_left (claims pos) _
  · rw [Roots.count_opens_append, Roots.count_opens_append]
    exact Nat.add_le_add_left (opens pos) _

theorem seq (first : Accounted start roots middle) (second : Accounted middle more state)
    (le : ¬middle.cursor.position.Before start.cursor.position)
    (ge : ¬state.cursor.position.Before middle.cursor.position) :
    Accounted start (roots ++ more) state where
  seen := by
    obtain ⟨early, split, sorted, range⟩ := first.seen
    obtain ⟨late, split', sorted', range'⟩ := second.seen
    refine ⟨late ++ early, by rw [split', split, List.append_assoc],
      List.pairwise_append.mpr ⟨sorted', sorted, fun it inside earlier before =>
        (range earlier before).before (range' it inside)⟩, fun it member => ?_⟩
    rcases List.mem_append.mp member with inside | inside
    · exact (range' it inside).earlier le
    · exact (range it inside).later ge
  kept it := by
    have here := first.kept it
    have there := second.kept it
    rw [Roots.count_remarks_append]
    omega
  single pos := by
    rw [Roots.count_claims_append]
    have here := first.single pos
    have there := second.single pos
    by_cases early : pos ∈ roots.claims
    · have late : pos ∉ more.claims := fun late =>
        Position.Before.irrefl pos ((first.range pos early).before (second.range pos late))
      rw [List.count_eq_zero_of_not_mem late]
      exact here
    · rw [List.count_eq_zero_of_not_mem early, Nat.zero_add]
      exact there
  range pos member := by
    have present := List.count_pos_iff.mpr member
    rw [Roots.count_claims_append] at present
    rcases Nat.eq_zero_or_pos (roots.claims.count pos) with none | some
    · exact (second.range pos (List.count_pos_iff.mp (by omega))).earlier le
    · exact (first.range pos (List.count_pos_iff.mp some)).later ge
  owned pos := by
    have here := first.owned pos
    have there := second.owned pos
    rw [Roots.count_opens_append]
    omega

end Accounted

namespace Node

theorem remarks_comment (it : Comment) : remarks [.comment it] = [it] := by
  rw [remarks_singleton]
  exact congrArg ([it] ++ ·) remarks_nil

theorem remarks_comments (comments : List Comment) :
    remarks (comments.map .comment) = comments := by
  induction comments with
  | nil => exact remarks_nil
  | cons it comments ih =>
      rw [List.map_cons, remarks_cons, remarks_comment, ih]
      rfl

/-- Nodes that are no redirections open none. -/
theorem open?_eq_none {node : Node} (other : node.kind ≠ .redirect) : node.open? = none := by
  cases node with
  | redirect it => exact absurd rfl other
  | _ => rfl

theorem comment?_eq_none {node : Node} (other : node.kind ≠ .comment) : node.comment? = none := by
  cases node with
  | comment it => exact absurd rfl other
  | _ => rfl

theorem standing_comments (comments : List Comment) :
    (comments.map Node.comment).flatMap (standing opens) = [] := by
  induction comments with
  | nil => rfl
  | cons it comments ih =>
      have none : standing opens (.comment it) = [] := (opens_singleton _).trans opens_nil
      rw [List.map_cons, List.flatMap_cons, ih, none]
      rfl

/-- A node that does not count itself. -/
theorem count_of_neutral {node : Node}
    (neutral : node.kind ≠ .comment ∧ node.kind ≠ .redirect ∧ node.kind ≠ .word) :
    (∀ it, (remarks [node]).count it = node.below.remarks.count it) ∧
      (∀ pos, (opens [node]).count pos = node.below.opens.count pos) ∧
        ∀ pos, (node.standing opens).count pos ≤ node.below.claims.count pos := by
  have opened (pos : Position) : (opens [node]).count pos = node.below.opens.count pos := by
    rw [count_opens, open?_eq_none neutral.2.1, Option.toList_none, List.count_nil, Nat.zero_add]
  refine ⟨fun it => ?_, opened, fun pos => ?_⟩
  · rw [count_remarks, comment?_eq_none neutral.1, Option.toList_none, List.count_nil, Nat.zero_add]
  · rw [standing_other neutral.2.2, opened]
    exact node.below.count_opens_le_claims pos

theorem neutral_of_free {node : Node} (free : node.anchored = false) :
    node.kind ≠ .comment ∧ node.kind ≠ .redirect ∧ node.kind ≠ .word := by
  cases node with
  | comment | redirect | word => cases free
  | command it => cases it <;> simp [kind, Command.kind]
  | part it => cases it <;> simp [kind, Part.kind]
  | range it => cases it <;> simp [kind, Range.kind]
  | operation it => cases it <;> simp [kind, Operation.kind]
  | _ => simp [kind]

end Node

namespace Accounted

open Roots

variable {start middle state : ReadState} {roots more other : Roots}

theorem moved (next : Cursor) : Accounted state [] { state with cursor := next } where
  seen := ⟨[], rfl, .nil, nofun⟩
  kept it := by
    simp only [Roots.remarks, List.map_nil, Node.remarks_nil, List.count_nil]
    omega
  single pos := by simp [Roots.claims]
  range pos member := by simp [Roots.claims] at member
  owned pos := Nat.le_add_right _ _

theorem rearranged (accounted : Accounted start roots state) (perm : other.Perm roots) :
    Accounted start other state := by
  refine accounted.regroup (fun it => ?_) (fun pos => ?_) fun pos => ?_
  · exact (Node.remarks_perm (perm.map _)).count_eq it
  · exact Nat.le_of_eq ((perm.flatMap_right _).count_eq pos)
  · exact Nat.le_of_eq ((Node.opens_perm ((perm.filter _).map _)).count_eq pos).symm

section Steps

variable {next : Cursor} {text : List Char} {it : Comment} {node : Node} {word : Word}

/-- A position at which some text is passed. -/
theorem here_between (passes : Cursor.Passes text state.cursor next) (filled : text ≠ []) :
    state.cursor.position.Between state.cursor.position next.position :=
  ⟨Position.Before.irrefl _, passes.before filled⟩

/-- Comments lay claim to no position. -/
theorem claims_comments (comments : List Comment) :
    (Roots.of .placed (comments.map .comment)).claims = [] := by
  rw [claims_of_placed, Node.standing_comments]

theorem commented (passes : Cursor.Passes text state.cursor next) (filled : text ≠ [])
    (here : it.pos = state.cursor.position) :
    Accounted state (.of .placed [.comment it])
      { state with cursor := next, seen := it :: state.seen } where
  seen := ⟨[it], rfl, List.pairwise_singleton _ _, fun other member => by
    rw [List.mem_singleton.mp member, here]
    exact here_between passes filled⟩
  kept other := by
    simp only [remarks_of, Node.remarks_comment, List.count_cons, List.count_nil]
    omega
  single pos := (claims_comments [it]).symm ▸ Nat.zero_le _
  range pos member := by
    rw [show (Roots.of .placed [.comment it]).claims = [] from claims_comments [it]] at member
    cases member
  owned pos := Nat.le_add_right _ _

theorem held (passes : Cursor.Passes text state.cursor next) (filled : text ≠ [])
    (here : it.pos = state.cursor.position) :
    Accounted state []
      { state with
        cursor := next, comments := state.comments ++ [it], seen := it :: state.seen } where
  seen := ⟨[it], rfl, List.pairwise_singleton _ _, fun other member => by
    rw [List.mem_singleton.mp member, here]
    exact here_between passes filled⟩
  kept other := by
    simp only [Roots.remarks, List.map_nil, Node.remarks_nil, List.count_nil, List.count_append,
      List.count_cons]
    omega
  single pos := by simp [Roots.claims]
  range pos member := by simp [Roots.claims] at member
  owned pos := Nat.le_add_right _ _

theorem taken (state : ReadState) :
    Accounted state (.of .placed (state.comments.map .comment)) { state with comments := [] } where
  seen := ⟨[], rfl, .nil, nofun⟩
  kept other := by
    simp only [remarks_of, Node.remarks_comments, List.count_nil]
    omega
  single pos := (claims_comments _).symm ▸ Nat.zero_le _
  range pos member := by
    rw [claims_comments] at member
    cases member
  owned pos := Nat.le_add_right _ _

theorem anchored (passes : Cursor.Passes text state.cursor next) (filled : text ≠ []) :
    Accounted state (.of .placed [.word (.anchor state.cursor.position)])
      { state with cursor := next } where
  seen := ⟨[], rfl, .nil, nofun⟩
  kept other := by
    simp only [remarks_of, Word.remarks_of_plain (Word.plain_anchor _), List.count_nil]
    omega
  single pos := by
    rw [claims_of_placed, List.flatMap_singleton, Node.standing_plain rfl]
    exact List.count_le_length
  range pos member := by
    rw [claims_of_placed, List.flatMap_singleton, Node.standing_plain rfl,
      List.mem_singleton] at member
    subst member
    exact here_between passes filled
  owned pos := Nat.le_add_right _ _

theorem dropped (accounted : Accounted start (roots ++ .of .placed [.word word]) state)
    (plain : word.plain = true) : Accounted start roots state := by
  refine accounted.regroup (fun it => ?_) (fun pos => ?_) fun pos => ?_
  · rw [count_remarks_append, remarks_of, Word.remarks_of_plain plain, List.count_nil, Nat.add_zero]
  · rw [count_claims_append]
    exact Nat.le_add_right _ _
  · refine Nat.le_of_eq ?_
    rw [count_opens_append, opens_of_placed, Word.opens_of_plain plain,
      List.count_nil, Nat.add_zero]

/-- A node is put above what has been built last. -/
theorem above (accounted : Accounted start (roots ++ node.below) state)
    (neutral : node.kind ≠ .comment ∧ node.kind ≠ .redirect ∧ node.kind ≠ .word) :
    Accounted start (roots ++ .of .placed [node]) state := by
  obtain ⟨remarks, opens, claims⟩ := Node.count_of_neutral neutral
  refine accounted.replaced (fun it => ?_) (fun pos => ?_) fun pos => ?_
  · rw [remarks_of, remarks]
  · rw [claims_of_placed, List.flatMap_singleton]
    exact claims pos
  · rw [opens_of_placed, opens]

theorem named
    (accounted : Accounted start (roots ++ (.of .placed [.word word] ++ node.below)) state)
    (plain : word.plain = true) (neutral : node.kind ≠ .comment ∧ node.kind ≠ .redirect ∧
      node.kind ≠ .word) :
    Accounted start (roots ++ .of .placed [node]) state := by
  refine above (accounted.replaced (fun it => ?_) (fun pos => ?_) fun pos => ?_) neutral
  · rw [count_remarks_append, remarks_of, Word.remarks_of_plain plain, List.count_nil, Nat.zero_add]
  · rw [count_claims_append]
    exact Nat.le_add_left _ _
  · rw [count_opens_append, opens_of_placed, Word.opens_of_plain plain,
      List.count_nil, Nat.zero_add]

theorem worded (accounted : Accounted start (Node.word word).below state)
    (here : word.pos = start.cursor.position)
    (moved : start.cursor.position.Before state.cursor.position) :
    Accounted start (.of .placed [.word word]) state := by
  have remarks (it : Comment) : (Node.remarks [.word word]).count it =
      (Node.word word).below.remarks.count it := by
    rw [Node.count_remarks]
    exact Nat.zero_add _
  have opens (pos : Position) : (Node.opens [.word word]).count pos =
      (Node.word word).below.opens.count pos := by
    rw [Node.count_opens]
    exact Nat.zero_add _
  cases plain : word.plain with
  | true =>
      exact
        { seen := accounted.seen
          kept := fun it => by
            rw [remarks_of, remarks]
            exact accounted.kept it
          single := fun pos => by
            rw [claims_of_placed, List.flatMap_singleton, Node.standing_plain plain]
            exact List.count_le_length
          range := fun pos member => by
            rw [claims_of_placed, List.flatMap_singleton, Node.standing_plain plain,
              List.mem_singleton] at member
            rw [member, here]
            exact ⟨Position.Before.irrefl _, moved⟩
          owned := fun pos => by
            rw [opens_of_placed, opens]
            exact accounted.owned pos }
  | false =>
      have claims : (Node.word word).standing Node.opens = Node.opens [.word word] :=
        if_neg (by simp [plain])
      refine accounted.regroup (fun it => ?_) (fun pos => ?_) fun pos => ?_
      · rw [remarks_of, remarks]
      · rw [claims_of_placed, List.flatMap_singleton, claims, opens]
        exact (Node.word word).below.count_opens_le_claims pos
      · refine Nat.le_of_eq ?_
        rw [opens_of_placed, opens]

theorem redirected {redirect : Redirect} {awaited : List Awaited}
    (accounted : Accounted start (roots ++ .of .placed [.word word, .word redirect.target]) state)
    (plain : word.plain = true) (here : redirect.pos = word.pos) (bare : redirect.body = none)
    (waits : awaited = state.awaited ∨ awaited = state.awaited ++ [.ofRedirect redirect]) :
    Accounted start (roots ++ .of .placed [.redirect redirect]) { state with awaited } := by
  obtain ⟨pos, op, fd, target, body⟩ := redirect
  obtain rfl : pos = word.pos := here
  obtain rfl : body = none := bare
  replace accounted : Accounted start (roots ++ .of .placed [.word word, .word target]) state :=
    accounted
  have below := @Node.below_redirect ⟨word.pos, op, fd, target, none⟩ rfl
  have remarks (it : Comment) :
    (Node.remarks [.redirect ⟨word.pos, op, fd, target, none⟩]).count it =
      (Node.remarks [.word target]).count it := by
    rw [Node.count_remarks, below]
    exact Nat.zero_add _
  have opens (pos : Position) :
    (Node.opens [.redirect ⟨word.pos, op, fd, target, none⟩]).count pos =
      [word.pos].count pos + (Node.opens [.word target]).count pos := by
    rw [Node.count_opens, below]
    rfl
  have regrouped :
      Accounted start (roots ++ .of .placed [.redirect ⟨word.pos, op, fd, target, none⟩])
        state := by
    refine accounted.replaced (fun it => ?_) (fun pos => ?_) fun pos => ?_
    · rw [remarks_of, remarks_of, Node.remarks_cons (.word word), Word.remarks_of_plain plain,
        remarks]
      rfl
    · rw [claims_of_placed, claims_of_placed, List.flatMap_singleton, List.flatMap_cons,
        List.flatMap_singleton, Node.standing_plain plain, List.count_append,
        Node.standing_other (by simp [Node.kind]), opens]
      exact Nat.add_le_add_left ((Node.word target).count_opens_le pos) _
    · rw [opens_of_placed, opens_of_placed, Node.opens_cons (.word word), Word.opens_of_plain plain,
        opens, List.nil_append]
      exact Nat.le_add_left _ _
  exact
    { seen := regrouped.seen
      kept := regrouped.kept
      single := regrouped.single
      range := regrouped.range
      owned := fun pos => by
        have before := accounted.owned pos
        rw [count_opens_append, opens_of_placed, Node.opens_cons (.word word),
          Word.opens_of_plain plain, List.nil_append] at before
        rw [count_opens_append, opens_of_placed, opens]
        simp only [ReadState.keys, List.count_append] at before ⊢
        rcases waits with rfl | rfl
        · omega
        · rw [List.map_append, List.count_append]
          change _ + [word.pos].count pos + _ ≤ _
          omega }

theorem restated {stmt stmt' : Stmt}
    (accounted : Accounted start (roots ++ .of .placed [.stmt stmt]) state)
    (command : stmt'.command = stmt.command) (redirects : stmt'.redirects = stmt.redirects) :
    Accounted start (roots ++ .of .placed [.stmt stmt']) state := by
  have below := Node.below_stmt command redirects
  have neutral (stmt : Stmt) :=
    Node.count_of_neutral (Node.neutral_of_free (rfl : (Node.stmt stmt).anchored = false))
  have claims (stmt : Stmt) : (Node.stmt stmt).standing Node.opens = Node.opens [.stmt stmt] := rfl
  refine accounted.replaced (fun it => ?_) (fun pos => ?_) fun pos => ?_
  · rw [remarks_of, remarks_of, (neutral stmt').1, (neutral stmt).1, below]
  · rw [claims_of_placed, claims_of_placed, List.flatMap_singleton, List.flatMap_singleton,
      claims, claims, (neutral stmt').2.1, (neutral stmt).2.1, below]
  · rw [opens_of_placed, opens_of_placed, (neutral stmt').2.1, (neutral stmt).2.1, below]

theorem setAside (accounted : Accounted start (roots ++ .of .placed [node]) state) :
    Accounted start (roots ++ .of .aside [node]) state := by
  refine accounted.replaced (fun it => ?_) (fun pos => ?_) fun pos => ?_
  · rw [remarks_of, remarks_of]
  · rw [claims_of_placed, claims_of_aside, List.flatMap_singleton]
    exact node.count_opens_le pos
  · rw [opens_of_placed, opens_of_aside]

theorem literal (accounted : Accounted start roots state) (plain : word.plain = true) :
    Accounted start (roots ++ .of .sealed [.word word]) state := by
  refine accounted.regroup (fun it => ?_) (fun pos => ?_) fun pos => ?_
  · rw [count_remarks_append, remarks_of, Word.remarks_of_plain plain, List.count_nil, Nat.add_zero]
  · refine Nat.le_of_eq ?_
    rw [count_claims_append, claims_of_own rfl, List.count_nil, Nat.add_zero]
  · rw [count_opens_append]
    exact Nat.le_add_right _ _

theorem enclosed {seat : Seat}
    (accounted : Accounted start (roots ++ .of seat (word.parts.map .part)) state)
    (own : seat.own = true) : Accounted start (roots ++ .of seat [.word word]) state := by
  have children : Node.remarks [.word word] = Node.remarks (word.parts.map .part) := by
    rw [Node.remarks_singleton]
    simp [Node.comment?, Node.children, Node.fields, Field.many, Function.comp_def]
  refine accounted.replaced (fun it => ?_) (fun pos => ?_) fun pos => ?_
  · rw [remarks_of, remarks_of, children]
  · rw [claims_of_own own, claims_of_own own]
  · rw [opens_of_own own, opens_of_own own]

theorem stored {awaited : Awaited}
    (accounted : Accounted start (roots ++ .of .sealed [.word word])
      { state with awaited := awaited :: state.awaited }) :
    Accounted start roots { state with bodies := (awaited.pos, word) :: state.bodies } where
  seen := accounted.seen
  kept it := by
    have before := accounted.kept it
    rw [count_remarks_append, remarks_of] at before
    have more : (Bodies.remarks ((awaited.pos, word) :: state.bodies)).count it =
        (Node.remarks [.word word]).count it + state.bodies.remarks.count it := by
      rw [← List.count_append]
      exact congrArg (List.count it) (Node.remarks_cons (.word word) _)
    simp only [more] at before ⊢
    omega
  single pos := by
    have before := accounted.single pos
    rw [count_claims_append, claims_of_own rfl, List.count_nil, Nat.add_zero] at before
    exact before
  range pos member := accounted.range pos (List.count_pos_iff.mp (by
    rw [count_claims_append]
    exact Nat.add_pos_left (List.count_pos_iff.mpr member) _))
  owned pos := by
    have before := accounted.owned pos
    rw [count_opens_append, opens_of_own rfl, List.count_nil, Nat.add_zero] at before
    simp only [ReadState.keys, List.map_cons, List.count_append, List.count_cons] at before ⊢
    omega

/-- When a text has been read as a whole, its comments are those of the trees with the
here-documents put in place. -/
theorem count_remarks_whole {inside : ReadState} {text : List Char} {pos : Position}
    {nodes : List Node}
    (accounted : Accounted (.ofText text pos) (.of .placed nodes) inside)
    (clear : inside.comments = [])
    (it : Comment) : (Node.remarks (nodes.map (·.place inside.bodies))).count it =
      inside.seen.count it := by
  have single (key : Position) : (Node.opens nodes).count key ≤ 1 := by
    have claimed := (Roots.of .placed nodes).count_opens_le_claims key
    rw [opens_of_placed] at claimed
    exact Nat.le_trans claimed (accounted.single key)
  have owned (key : Position) : (inside.bodies.map Prod.fst).count key ≤
      (Node.opens nodes).count key := by
    have keys := accounted.owned key
    have none : (ReadState.ofText text pos).keys = [] := rfl
    rw [none, List.count_nil, opens_of_placed, ReadState.keys, List.count_append] at keys
    omega
  have fresh : Bodies.remarks [] = [] := Node.remarks_nil
  have kept := accounted.kept it
  rw [Node.count_remarks_placed it single owned]
  simp only [remarks_of, clear, fresh, ReadState.ofText, List.count_nil] at kept
  omega

/-- A text that is read on its own is accounted for by its comments. -/
theorem withText {inside : ReadState} {text : List Char} {pos : Position} {nodes : List Node}
    {seat : Seat}
    (accounted : Accounted (.ofText text pos) (.of .placed nodes) inside)
    (clear : inside.comments = [])
    (low : ¬pos.Before state.cursor.position) (high : ¬next.position.Before inside.cursor.position)
    (own : seat.own = true) : Accounted state (.of seat (nodes.map (·.place inside.bodies)))
      { state with cursor := next, seen := inside.seen ++ state.seen } where
  seen := by
    obtain ⟨fresh, split, sorted, range⟩ := accounted.seen
    have all : inside.seen = fresh := split.trans (List.append_nil _)
    exact ⟨fresh, congrArg (· ++ _) all, sorted, fun it member =>
      ((range it member).later high).earlier low⟩
  kept it := by
    rw [remarks_of, accounted.count_remarks_whole clear]
    dsimp only
    rw [List.count_append]
    omega
  single _ := by
    rw [claims_of_own own]
    exact Nat.zero_le _
  range _ member := by
    rw [claims_of_own own] at member
    cases member
  owned pos := Nat.le_add_right _ _

end Steps

end Accounted

/-- Whatever a reading builds, all comments are accounted for. -/
theorem Built.accounted {loose : Bool} {start state : ReadState} {roots : Roots}
    (built : Built loose start roots state) : Accounted start roots state := by
  induction built with
  | move => exact .moved _
  | seq first second ih ih' => exact ih.seq ih' first.le second.le
  | rearrange _ perm _ ih => exact ih.rearranged perm
  | comment passes filled here => exact .commented passes filled here
  | hold passes filled here => exact .held passes filled here
  | take state => exact .taken state
  | list _ _ ih => exact ih
  | anchor passes filled => exact .anchored passes filled
  | drop _ plain ih => exact ih.dropped plain
  | word _ here moved ih => exact ih.worded here moved
  | node _ free _ ih => exact ih.above (Node.neutral_of_free free)
  | named _ plain _ kind _ ih =>
      exact ih.named plain (by rcases kind with kind | kind <;> simp [kind])
  | redirect _ plain here bare waits ih => exact ih.redirected plain here bare waits
  | restate _ command redirects ih => exact ih.restated command redirects
  | aside _ ih => exact ih.setAside
  | text inner passes low high own _ ih =>
      exact ih.withText (inner.clear rfl rfl)
        low (fun before => high (before.trans_not inner.inside)) own
  | enclose _ own ih => exact ih.enclosed own
  | literal _ plain ih => exact ih.literal plain
  | store _ ih => exact ih.stored

end RecipeLint
