import RecipeLint.Proofs.Faithful
import RecipeLint.Proofs.Shape

/-!
# Drafts

A tree is a draft as long as its text is being read: a comment may have reached the end of the text,
which need not be the end of the source, and redirections wait for the lines of their
here-documents. Every node of a draft is well formed and, as far as the source is known, faithful to
it.  When the text has been read to its end and the here-documents are in place, the tree is
complete. -/

namespace RecipeLint

/-- What is known of the source that a text belongs to: the source itself, or nothing. -/
abbrev Ground := Option (List Char)

namespace Ground

variable {ground : Ground} {pos : Position} {front back text : List Char}

/-- The position is one of the source's. -/
def Holds (ground : Ground) (pos : Position) : Prop :=
  ∀ source ∈ ground, Occurs source pos []

/-- The text stands at the position in the source.  No name that reaches its end goes on behind it,
unless the text ends with a line. -/
def Lies (ground : Ground) (pos : Position) (text : List Char) : Prop :=
  ∀ source ∈ ground, ∃ back, Stands source pos text back ∧
    ∀ c ∈ back.head?, isNameChar c = true → text = [] ∨ text.getLast? = some '\n'

namespace Lies

theorem occurs (lies : ground.Lies pos (front ++ back)) :
    ∀ source ∈ ground, Occurs source pos front := by
  intro source known
  obtain ⟨rest, stands, -⟩ := lies source known
  exact ⟨back ++ rest, stands.front⟩

theorem holds (lies : ground.Lies pos text) : ground.Holds pos :=
  occurs (show ground.Lies pos ([] ++ text) from lies)

theorem behind (lies : ground.Lies pos (front ++ back)) : ground.Lies (pos.along front) back := by
  intro source known
  obtain ⟨rest, stands, ends⟩ := lies source known
  refine ⟨rest, stands.behind, fun c member named => ?_⟩
  rcases ends c member named with empty | last
  · exact .inl (List.append_eq_nil_iff.mp empty).2
  · rcases eq_or_ne back [] with empty | filled
    · exact .inl empty
    · exact .inr (by rwa [List.getLast?_append_of_ne_nil _ filled] at last)

/-- A part of the text that ends with a line or in front of a character that no name has. -/
theorem window (lies : ground.Lies pos (front ++ back))
    (ends : ∀ c ∈ back.head?, isNameChar c = true → front = [] ∨ front.getLast? = some '\n') :
    ground.Lies pos front := by
  intro source known
  obtain ⟨rest, stands, last⟩ := lies source known
  refine ⟨back ++ rest, stands.front, fun c member named => ?_⟩
  cases back with
  | nil => simpa using last c member named
  | cons d back => exact ends c member named

end Lies

end Ground

/-- What a draft may wait for. -/
structure Pending where
  /-- The text has been read to its end, which is at the position. -/
  ended : Position → Prop
  /-- The redirections that have been read. -/
  redirects : List Redirect

namespace Pending

/-- The second draft waits for all that the first one does. -/
structure Le (first second : Pending) : Prop where
  ended : ∀ pos, first.ended pos → second.ended pos
  redirects : first.redirects ⊆ second.redirects

theorem Le.trans {first second third : Pending} (front : first.Le second) (back : second.Le third) :
    first.Le third :=
  ⟨fun pos ended => back.ended pos (front.ended pos ended),
    List.Subset.trans front.redirects back.redirects⟩

/-- The node is a comment that reaches the end of the text. -/
def Trails (pending : Pending) (source : List Char) : Node → Prop
  | .comment it => ∃ rest, Stands source it.pos ('#' :: it.text.toList) rest ∧
      pending.ended (it.pos.along ('#' :: it.text.toList))
  | _ => False

end Pending

/-- A node of a draft. -/
structure Made (ground : Ground) (pending : Pending) (node : Node) : Prop where
  wellFormed : node.WellFormed
  faithful : ∀ source ∈ ground, node.Faithful source ∨ pending.Trails source node
  awaits : ∀ redirect, node = .redirect redirect → redirect.body = none ∧
    redirect ∈ pending.redirects

/-- A node of a complete tree. -/
structure Finished (ground : Ground) (node : Node) : Prop where
  wellFormed : node.WellFormed
  faithful : ∀ source ∈ ground, node.Faithful source

theorem Made.imp {ground : Ground} {first second : Pending} {node : Node} (le : first.Le second)
    (made : Made ground first node) : Made ground second node where
  wellFormed := made.wellFormed
  faithful source known := by
    refine (made.faithful source known).imp_right fun trails => ?_
    cases node with
    | comment it =>
        obtain ⟨rest, stands, ended⟩ := trails
        exact ⟨rest, stands, le.ended _ ended⟩
    | _ => exact trails
  awaits redirect same := (made.awaits redirect same).imp_right fun member => le.redirects member

/-- A word that is complete. -/
structure Word.Complete (ground : Ground) (word : Word) : Prop where
  everywhere : Node.Everywhere (Finished ground) (.word word)
  filled : Filled word.parts

/-- A node and what is below it, of a draft. -/
structure Node.Drafted (ground : Ground) (pending : Pending) (node : Node) : Prop where
  partly : node.Partly (Made ground pending) (Finished ground)
  filled : Filled node.adjacentParts

/-- A node in a field of a draft. -/
structure Field.Drafted (ground : Ground) (pending : Pending) (seals : Bool) (field : Field) :
    Prop where
  regular : field.Regular
  loose : seals = false → field.2.Partly (Made ground pending) (Finished ground)
  sealed : seals = true → field.2.Everywhere (Finished ground)

section Fields

variable {α : Type} {slot : Slot} {toNode : α → Node} {holds : Field → Prop}

@[simp]
theorem Field.forall_many {values : List α} :
    (∀ field ∈ Field.many slot toNode values, holds field) ↔
      ∀ value ∈ values, holds (slot, toNode value) := by
  simp [Field.many]

@[simp]
theorem Field.forall_optional {value : Option α} :
    (∀ field ∈ Field.optional slot toNode value, holds field) ↔
      ∀ it ∈ value, holds (slot, toNode it) := by
  cases value <;> simp [Field.optional]

@[simp]
theorem Field.forall_one {node : Node} :
    (∀ field ∈ Field.one slot node, holds field) ↔ holds (slot, node) := by
  simp [Field.one]

end Fields

variable {ground : Ground} {pending : Pending}

namespace Field.Drafted

variable {slot : Slot}

/-- A field that holds anything but words. -/
theorem plain {node : Node} (drafted : node.Drafted ground pending)
    (other : ∀ word, node ≠ .word word) :
    Field.Drafted ground pending false (slot, node) where
  regular := ⟨fun _ => drafted.filled, fun _ word same => absurd same (other word)⟩
  loose _ := drafted.partly
  sealed := nofun

theorem word {word : Word} (drafted : (Node.word word).Drafted ground pending)
    (parted : word.parts ≠ []) :
    Field.Drafted ground pending false (slot, .word word) where
  regular := by
    refine ⟨fun _ => drafted.filled, fun _ other same => ?_⟩
    cases same
    exact parted
  loose _ := drafted.partly
  sealed := nofun

/-- An arithmetic expression may be empty. -/
theorem expr {word : Word} (drafted : (Node.word word).Drafted ground pending) :
    Field.Drafted ground pending false (.expr, .word word) where
  regular := ⟨fun _ => drafted.filled, fun other => absurd (by simp) other⟩
  loose _ := drafted.partly
  sealed := nofun

/-- An index may be empty. -/
theorem index {word : Word} (complete : word.Complete ground) :
    Field.Drafted ground pending true (.index, .word word) where
  regular := ⟨fun _ => complete.filled, fun other => absurd (by simp) other⟩
  loose := nofun
  sealed _ := complete.everywhere

theorem part {part : Part} (drafted : (Node.part part).Drafted ground pending) :
    Field.Drafted ground pending false (slot, .part part) :=
  plain drafted nofun

theorem item {item : Item} (drafted : item.node.Drafted ground pending) :
    Field.Drafted ground pending false (slot, item.node) :=
  plain drafted (by cases item <;> nofun)

theorem items {items : List Item} (drafted : ∀ item ∈ items, item.node.Drafted ground pending) :
    ∀ field ∈ Field.many slot Item.node items, Field.Drafted ground pending false field :=
  forall_many.mpr fun it member => item (drafted it member)

theorem words {words : List Word}
    (drafted : ∀ word ∈ words, (Node.word word).Drafted ground pending ∧ word.parts ≠ []) :
    ∀ field ∈ Field.many slot .word words, Field.Drafted ground pending false field :=
  forall_many.mpr fun it member => word (drafted it member).1 (drafted it member).2

end Field.Drafted

/-- Adjacent parts of a draft. -/
structure Parts (ground : Ground) (pending : Pending) (parts : List Part) : Prop where
  separate : Separate parts
  filled : Filled parts
  chained : ∀ source ∈ ground, Chain source parts none
  drafted : ∀ part ∈ parts, (Node.part part).Drafted ground pending

namespace Node.Drafted

theorem imp {wider : Pending} {node : Node} (drafted : node.Drafted ground pending)
    (le : pending.Le wider) :
    node.Drafted ground wider where
  partly := drafted.partly.imp fun _ => Made.imp le
  filled := drafted.filled

theorem placed {node : Node} (drafted : node.Drafted ground pending)
    (other : ∀ it, node ≠ .comment it) :
    ground.Holds node.pos := by
  intro source known
  rcases drafted.partly.here.faithful source known with faithful | trails
  · exact faithful.placed
  · cases node with
    | comment it => exact absurd rfl (other it)
    | _ => exact trails.elim

/-- A node whose fields hold drafts. -/
theorem of_fields {node : Node} (regular : node.Regular) (separate : Separate node.adjacentParts)
    (filled : Filled node.adjacentParts)
    (faithful : ∀ source ∈ ground, node.Faithful source ∨ pending.Trails source node)
    (awaits : ∀ redirect, node = .redirect redirect →
      redirect.body = none ∧ redirect ∈ pending.redirects)
    (fields : ∀ field ∈ node.fields, Field.Drafted ground pending (node.seals field.1) field) :
    node.Drafted ground pending where
  partly :=
    .node ⟨⟨regular, separate, fun field member => (fields field member).regular⟩, faithful, awaits⟩
    (fun field member loose => (fields field member).loose loose)
    (fun field member sealed => (fields field member).sealed sealed)
  filled := filled

/-- A node that is neither a word nor a part of one. -/
theorem plain {node : Node} (regular : node.Regular) (apart : node.adjacentParts = [])
    (placed : ground.Holds node.pos) (spelled : ∀ source ∈ ground, node.Spelled source)
    (named : node.Named) (other : ∀ redirect, node ≠ .redirect redirect)
    (fields : ∀ field ∈ node.fields, Field.Drafted ground pending (node.seals field.1) field) :
    node.Drafted ground pending := by
  have none : Filled node.adjacentParts := by
    rw [apart]
    exact nofun
  refine of_fields regular (by rw [apart]; exact .nil) none (fun source known => .inl ?_)
    (fun redirect same => absurd same (other redirect)) fields
  exact ⟨placed source known, spelled source known, named, by rw [apart]; trivial⟩

theorem stmt {stmt : Stmt} (placed : ground.Holds stmt.pos) (regular : stmt.Regular)
    (command : ∀ command ∈ stmt.command, (Node.command command).Drafted ground pending)
    (redirects : ∀ redirect ∈ stmt.redirects, (Node.redirect redirect).Drafted ground pending) :
    (Node.stmt stmt).Drafted ground pending := by
  refine plain regular rfl placed (fun _ _ => trivial) trivial nofun ?_
  refine List.forall_mem_append.mpr ⟨?_, ?_⟩
  · exact Field.forall_optional.mpr fun it member => .plain (command it member) nofun
  · exact Field.forall_many.mpr fun it member => .plain (redirects it member) nofun

/-! Only parts seal what they hold. -/

theorem seals_command {command : Command} : ∀ field ∈ command.fields,
    (Node.command command).seals field.1 = false := by
  cases command <;>
    simp only [Command.fields, List.forall_mem_append, Field.forall_many, Field.forall_one] <;>
    simp [Node.seals]

theorem command {command : Command} (placed : ground.Holds command.pos) (regular : command.Regular)
    (fields : ∀ field ∈ command.fields, Field.Drafted ground pending false field) :
    (Node.command command).Drafted ground pending := by
  refine plain regular rfl placed (fun _ _ => trivial) trivial nofun fun field member => ?_
  rw [seals_command field member]
  exact fields field member

theorem seals_range {range : Range} : ∀ field ∈ range.fields,
    (Node.range range).seals field.1 = false := by
  cases range <;> simp only [Range.fields, Field.forall_many, Field.forall_one] <;>
    simp [Node.seals]

theorem seals_operation {operation : Operation} : ∀ field ∈ operation.fields,
    (Node.operation operation).seals field.1 = false := by
  cases operation <;> simp only [Operation.fields, List.forall_mem_append,
    Field.forall_optional] <;>
    simp [Node.seals]

theorem seals_value {assign : Assign} : ∀ field ∈ assign.value.fields,
    (Node.assign assign).seals field.1 = false := by
  cases assign.value <;> simp only [Value.fields, Field.forall_many, Field.forall_one] <;>
    simp [Node.seals]

theorem range {range : Range} (placed : ground.Holds range.pos)
    (spelled : ∀ source ∈ ground, (Node.range range).Spelled source)
    (fields : ∀ field ∈ range.fields, Field.Drafted ground pending false field) :
    (Node.range range).Drafted ground pending := by
  refine plain trivial rfl placed spelled trivial nofun fun field member => ?_
  rw [seals_range field member]
  exact fields field member

theorem caseItem {item : CaseItem} (placed : ground.Holds item.pos)
    (patterns : ∀ word ∈ item.patterns, (Node.word word).Drafted ground pending ∧ word.parts ≠ [])
    (body : ∀ it ∈ item.body, it.node.Drafted ground pending) :
    (Node.caseItem item).Drafted ground pending := by
  refine plain trivial rfl placed (fun _ _ => trivial) trivial nofun ?_
  refine List.forall_mem_append.mpr ⟨?_, ?_⟩
  · exact Field.forall_many.mpr fun it member => .word (patterns it member).1 (patterns it member).2
  · exact Field.forall_many.mpr fun it member => .item (body it member)

theorem operation {operation : Operation} (placed : ground.Holds operation.pos)
    (fields : ∀ field ∈ operation.fields, Field.Drafted ground pending false field) :
    (Node.operation operation).Drafted ground pending := by
  refine plain trivial rfl placed (fun _ _ => trivial) trivial nofun fun field member => ?_
  rw [seals_operation field member]
  exact fields field member

theorem assign {assign : Assign} (placed : ground.Holds assign.pos) (regular : assign.Regular)
    (spelled : ∀ source ∈ ground, (Node.assign assign).Spelled source)
    (index : ∀ word ∈ assign.index, word.Complete ground)
    (fields : ∀ field ∈ assign.value.fields, Field.Drafted ground pending false field) :
    (Node.assign assign).Drafted ground pending := by
  refine plain regular rfl placed spelled trivial nofun (List.forall_mem_append.mpr ⟨?_, ?_⟩)
  · exact Field.forall_optional.mpr fun it member => .index (index it member)
  · intro field member
    rw [seals_value field member]
    exact fields field member

theorem redirect {redirect : Redirect} (placed : ground.Holds redirect.pos)
    (spelled : ∀ source ∈ ground, (Node.redirect redirect).Spelled source)
    (absent : redirect.body = none)
    (member : redirect ∈ pending.redirects)
    (target : (Node.word redirect.target).Drafted ground pending)
    (parted : redirect.target.parts ≠ []) : (Node.redirect redirect).Drafted ground pending := by
  have regular : (Node.redirect redirect).Regular := by
    intro body held
    rw [absent] at held
    cases held
  refine of_fields regular .nil nofun (fun source known => .inl ?_) ?_ ?_
  · exact ⟨placed source known, spelled source known, trivial, trivial⟩
  · rintro other ⟨⟩
    exact ⟨absent, member⟩
  · refine List.forall_mem_append.mpr ⟨Field.forall_one.mpr (.word target parted), ?_⟩
    rw [absent]
    exact nofun

/-- A node that consists of adjacent parts. -/
theorem of_parts {node : Node} {parts : List Part} (adjacent : node.adjacentParts = parts)
    (fields : node.fields = Field.many .parts .part parts) (loose : node.seals .parts = false)
    (regular : node.Regular) (placed : ground.Holds node.pos)
    (spelled : ∀ source, node.Spelled source) (named : node.Named)
    (other : ∀ redirect, node ≠ .redirect redirect) (held : Parts ground pending parts) :
    node.Drafted ground pending := by
  subst adjacent
  refine of_fields regular held.separate held.filled (fun source known => .inl ?_)
    (fun redirect same => absurd same (other redirect)) ?_
  · exact ⟨placed source known, spelled source, named, held.chained source known⟩
  · rw [fields]
    refine Field.forall_many.mpr fun it member => ?_
    rw [loose]
    exact .part (held.drafted it member)

theorem word {word : Word} (placed : ground.Holds word.pos)
    (held : Parts ground pending word.parts) :
    (Node.word word).Drafted ground pending :=
  of_parts rfl rfl rfl trivial placed (fun _ => trivial) trivial nofun held

theorem double {pos : Position} {parts : List Part} {dollar : Bool} (placed : ground.Holds pos)
    (held : Parts ground pending parts) : (Node.part (.double pos parts dollar)).Drafted ground
    pending :=
  of_parts rfl rfl rfl trivial placed (fun _ => trivial) trivial nofun held

theorem arithmetic {pos : Position} {parts : List Part} {bracketed : Bool}
    (placed : ground.Holds pos) (held : Parts ground pending parts) :
    (Node.part (.arithmetic pos parts bracketed)).Drafted ground pending :=
  of_parts rfl rfl rfl trivial placed (fun _ => trivial) trivial nofun held

/-- A part without parts of its own. -/
theorem part {part : Part} (placed : ground.Holds part.pos)
    (spelled : ∀ source ∈ ground, part.Spelled source) (named : (Node.part part).Named)
    (apart : (Node.part part).adjacentParts = [])
    (fields : ∀ field ∈ part.fields, Field.Drafted ground pending ((Node.part part).seals field.1)
      field) :
    (Node.part part).Drafted ground pending :=
  plain part.regular apart placed spelled named nofun fields

theorem comment {it : Comment} (made : Made ground pending (.comment it)) :
    (Node.comment it).Drafted ground pending :=
  ⟨.node made nofun nofun, nofun⟩

/-- A statement that differs in how it is run and where it starts. -/
theorem restated {stmt : Stmt} (drafted : (Node.stmt stmt).Drafted ground pending) {pos : Position}
    (placed : ground.Holds pos) (negated background : Bool) :
    (Node.stmt { stmt with pos, negated, background }).Drafted ground pending := by
  have made := drafted.partly.here
  refine ⟨drafted.partly.replace ⟨⟨made.wellFormed.regular, .nil, made.wellFormed.fields⟩,
    fun source known => .inl ?_, nofun⟩ rfl
    (funext fun slot => by cases slot <;> rfl), nofun⟩
  exact ⟨placed source known, trivial, trivial, trivial⟩

end Node.Drafted

/-! ## Complete trees -/

/-- Here-documents that the redirections of a draft can take. -/
def Pending.Takes (pending : Pending) (bodies : Bodies) : Prop :=
  ∀ redirect ∈ pending.redirects, ∀ body, bodies.lookup redirect.pos = some body →
  redirect.Takes body

/-- The text ends where the source does. -/
def Pending.Whole (pending : Pending) (ground : Ground) : Prop :=
  ∀ source ∈ ground, ∀ pos text rest, Stands source pos text rest → pending.ended (pos.along text) →
  rest = []

/-- Placing here-documents completes a draft. -/
theorem Node.Drafted.place {node : Node} (drafted : node.Drafted ground pending) {bodies : Bodies}
    (whole : pending.Whole ground) (takes : pending.Takes bodies)
    (placed : ∀ entry ∈ bodies, Node.Everywhere (Finished ground) (.word entry.2)) :
    (node.place bodies).Everywhere (Finished ground) := by
  refine drafted.partly.place (fun node made => ⟨?_, fun source known => ?_⟩) placed
  · refine made.wellFormed.place bodies fun redirect same absent body found => ?_
    exact takes redirect (made.awaits redirect same).2 body found
  · refine Node.Faithful.place bodies ?_
    rcases made.faithful source known with faithful | trails
    · exact faithful
    · cases node with
      | comment it =>
          obtain ⟨rest, stands, ended⟩ := trails
          obtain rfl := whole source known _ _ _ stands ended
          exact ⟨stands.occurs, ⟨[], stands, .inl rfl⟩, trivial, trivial⟩
      | _ => exact trails.elim

end RecipeLint
