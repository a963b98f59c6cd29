import RecipeLint.Proofs.Drafts
import RecipeLint.Proofs.Heads

/-!
# Excerpts of a source

Whatever is read at some place is an excerpt of the source: a part of it, or the inside of
backquotes without the backslashes that are undone there, at any depth.  A tree is drawn from the
source if the names of its variables are excerpts at the positions of their nodes, if no name in it
has a newline, if no command in one of its lists is a reserved word that is read in one piece, and
if its patterns are balanced. -/

namespace RecipeLint

/-- A text that is read at a position of the source. -/
inductive Excerpt (source : List Char) : Position → List Char → Prop
  | whole : Excerpt source .start source
  | behind {pos : Position} {front back : List Char}
    (excerpt : Excerpt source pos (front ++ back)) :
      Excerpt source (pos.along front) back
  | front {pos : Position} {front back : List Char} (excerpt : Excerpt source pos (front ++ back)) :
      Excerpt source pos front
  /-- The text in backquotes, its escapes undone. -/
  | unescaped {pos : Position} {rest text : List Char} {length : Nat}
      (excerpt : Excerpt source pos ('\x60' :: rest))
      (closed : backquoteText? [] 0 rest = some (text, length)) :
      Excerpt source (pos.after '\x60') text

namespace Excerpt

variable {source : List Char}

theorem passes {text : List Char} {before after : Cursor}
    (excerpt : Excerpt source before.position before.rest)
    (passes : Cursor.Passes text before after) :
    Excerpt source after.position after.rest := by
  rw [passes.rest_eq] at excerpt
  rw [passes.position_eq]
  exact excerpt.behind

theorem take {pos : Position} {text : List Char} (excerpt : Excerpt source pos text) (count : Nat) :
    Excerpt source pos (text.take count) := by
  rw [← List.take_append_drop count text] at excerpt
  exact excerpt.front

end Excerpt

/-! ## Words in front of a text -/

/-- If a word is literal, it is spelled in front of the text, up to a delimiter. -/
def Word.Spells (delimiters text : List Char) (word : Word) : Prop :=
  ∀ literal ∈ word.literal?, '\n' ∉ literal.toList ∧ ∃ written rest,
    text = written ++ rest ∧ Joins written literal.toList ∧
    rest.head?.all delimiters.contains = true

theorem Word.literal?_place (bodies : Bodies) (word : Word) :
    (word.place bodies).literal? = word.literal? := by
  obtain ⟨pos, parts⟩ := word
  have literals : (fun part => Part.literal? (part.place bodies)) = Part.literal? :=
    funext fun part => part.literal?_place bodies
  simp only [place, literal?, placeParts_eq_map, List.mapM_map, List.isEmpty_map, Function.comp_def,
    literals]

namespace Stmt

/-- The program of a call without assignments and redirections, if it is a literal. -/
def bareWord? (stmt : Stmt) : Option String :=
  match stmt.command, stmt.redirects with
  | some (.call _ [] (word :: _)), [] => word.literal?
  | _, _ => none

/-- The statement, which is not negated, runs the bare word first. -/
inductive Leads : Stmt → String → Prop
  | bare {stmt : Stmt} {word : String} (plain : stmt.negated = false)
    (found : stmt.bareWord? = some word) :
      Leads stmt word
  | left {stmt left right : Stmt} {pos : Position} {connective : Connective} {word : String}
      (plain : stmt.negated = false)
      (joins : stmt.command = some (.binary pos connective left right))
      (leads : left.Leads word) : Leads stmt word

/-- The bare word that the statement runs first is spelled in front of the text. -/
def Starts (text : List Char) (stmt : Stmt) : Prop :=
  ∀ word, stmt.Leads word → ∃ written rest,
    text = written ++ rest ∧ Joins written word.toList ∧
    rest.head?.all wordDelimiters.contains = true

/-- The bare word that the statement runs first is reserved only if it is spelled with escaped
newlines. -/
def Admitted (source : List Char) (stmt : Stmt) : Prop :=
  ∀ word, stmt.Leads word → word ∈ listTerminators → ∃ pos written rest,
    Excerpt source pos (written ++ rest) ∧ Joins written word.toList ∧ written ≠ word.toList

variable {source : List Char}

theorem bareWord?_place (bodies : Bodies) (stmt : Stmt) :
    (stmt.place bodies).bareWord? = stmt.bareWord? := by
  obtain ⟨pos, command, redirects, negated, background⟩ := stmt
  cases redirects with
  | cons => cases command <;> simp [place, bareWord?, placeRedirects]
  | nil =>
      cases command with
      | none => rfl
      | some command =>
          cases command with
          | call _ assigns args =>
              cases assigns with
              | cons => rfl
              | nil =>
                  cases args with
                  | nil => rfl
                  | cons word => exact word.literal?_place bodies
          | _ => rfl

theorem Leads.of_place {bodies : Bodies} {stmt : Stmt} {word : String}
    (leads : (stmt.place bodies).Leads word) :
    stmt.Leads word := by
  generalize same : stmt.place bodies = placed at leads
  induction leads generalizing stmt with
  | bare plain found =>
      subst same
      rw [bareWord?_place] at found
      obtain ⟨pos, command, redirects, negated, background⟩ := stmt
      exact .bare plain found
  | left plain joins _ ih =>
      subst same
      obtain ⟨pos, command, redirects, negated, background⟩ := stmt
      cases command with
      | none => cases joins
      | some command =>
          cases command with
          | binary _ _ left right =>
              cases joins
              exact .left plain rfl (ih rfl)
          | _ => cases joins

theorem Admitted.place {stmt : Stmt} (admitted : stmt.Admitted source) (bodies : Bodies) :
    (stmt.place bodies).Admitted source :=
  fun word leads => admitted word leads.of_place

/-- Which bare word is run first depends on the command, the redirections and the negation alone. -/
theorem Leads.restate {stmt other : Stmt} {word : String} (leads : other.Leads word)
    (command : other.command = stmt.command) (redirects : other.redirects = stmt.redirects)
    (negated : other.negated = stmt.negated) : stmt.Leads word := by
  cases leads with
  | bare plain found =>
      refine .bare (negated ▸ plain) ?_
      rw [← found, bareWord?, bareWord?, command, redirects]
  | left plain joins leads => exact .left (negated ▸ plain) (command ▸ joins) leads

end Stmt

/-- An element of a list may stand in the place of a command. -/
def Item.Admitted (source : List Char) : Item → Prop
  | .comment _ => True
  | .stmt statement => statement.Admitted source

theorem Item.Admitted.place {source : List Char} {item : Item} (admitted : item.Admitted source)
    (bodies : Bodies) :
    (item.place bodies).Admitted source := by
  cases item with
  | comment => trivial
  | stmt => exact Stmt.Admitted.place admitted bodies

/-- Neither a call nor a command that joins statements. -/
def Command.isCompound (command : Command) : Bool :=
  command.kind ≠ .callExpr && command.kind ≠ .binaryCmd

/-- A compound command is no bare word. -/
theorem Stmt.not_leads_of_isCompound {stmt : Stmt} {command : Command}
    (has : stmt.command = some command)
    (compound : command.isCompound = true) (word : String) : ¬stmt.Leads word := by
  intro leads
  cases leads with
  | bare _ found =>
      unfold bareWord? at found
      rw [has] at found
      cases command with
      | call => cases compound
      | _ => cases found
  | left _ joins _ =>
      cases has.symm.trans joins
      cases compound

/-! ## Nodes drawn from the source -/

namespace Node

/-- The variable that an assignment or an iteration sets, which stands at the position of the
node. -/
def assigned? : Node → Option String
  | .assign { value := .naked, .. } => none
  | .assign it => some it.name
  | .range (.words _ name _ _) => some name
  | _ => none

/-- The name of a variable, a function or a parameter in a node. -/
def name? : Node → Option String
  | .assign it => some it.name
  | .range (.words _ name _ _) => some name
  | .command (.function _ name _ _) => some name
  | .part (.simple _ name) => some name
  | .part (.braced _ _ name _ _) => some name
  | _ => none

/-- The elements of the lists of statements in a node. -/
def listed : Node → List Item
  | .script it => it.items
  | .command (.block _ body) => body
  | .command (.subshell _ body) => body
  | .command (.conditional _ condition consequence alternative) =>
      condition ++ consequence ++ alternative
  | .command (.loop _ condition body _) => condition ++ body
  | .command (.iteration _ _ body _) => body
  | .caseItem it => it.body
  | .part (.substitution _ body _) => body
  | .part (.process _ _ body) => body
  | _ => []

/-- The extended pattern that a node is. -/
def pattern? : Node → Option String
  | .part (.glob _ _ pattern) => some pattern
  | _ => none

/-- What a node says about the source is true. -/
structure Sourced (source : List Char) (node : Node) : Prop where
  straight : ∀ name ∈ node.name?, '\n' ∉ name.toList
  stands : ∀ name ∈ node.assigned?, (∀ c ∈ name.toList, isNameChar c = true) ∧
    ∃ rest, Excerpt source node.pos (name.toList ++ rest)
  admitted : ∀ item ∈ node.listed, item.Admitted source
  matched : ∀ pattern ∈ node.pattern?, Balances '(' ')' 0 pattern.toList

/-- What the node and all nodes below it say about the source is true. -/
def Drawn (source : List Char) (node : Node) : Prop :=
  node.Everywhere (Sourced source)

variable {source : List Char} {node : Node}

theorem name?_of_assigned? {name : String} (set : node.assigned? = some name) :
    node.name? = some name := by
  cases node with
  | assign it =>
      obtain ⟨pos, name, index, append, value⟩ := it
      cases value <;> cases set <;> rfl
  | range it =>
      cases it with
      | words => exact set
      | arithmetic => cases set
  | _ => cases set

theorem pattern?_of_name? {name : String} (named : node.name? = some name) :
    node.pattern? = none := by
  cases node with
  | part it =>
      cases it with
      | glob => cases named
      | _ => rfl
  | _ => rfl

theorem name?_place (bodies : Bodies) (node : Node) : (node.place bodies).name? = node.name? := by
  cases node with
  | command it | range it => cases it <;> rfl
  | assign it =>
      obtain ⟨pos, name, index, append, value⟩ := it
      rfl
  | part it =>
      cases it with
      | substitution _ _ backquoted => cases backquoted <;> rfl
      | _ => rfl
  | _ => rfl

theorem pattern?_place (bodies : Bodies) (node : Node) :
    (node.place bodies).pattern? = node.pattern? := by
  cases node with
  | part it =>
      cases it with
      | substitution _ _ backquoted => cases backquoted <;> rfl
      | _ => rfl
  | _ => rfl

/-- The variable and its position stay as they are. -/
theorem assigned?_place (bodies : Bodies) (node : Node) :
    (node.place bodies).assigned? = node.assigned? ∧
    (node.assigned? ≠ none → (node.place bodies).pos = node.pos) := by
  cases node with
  | assign it =>
      obtain ⟨pos, name, index, append, value⟩ := it
      cases value <;> exact ⟨rfl, fun _ => rfl⟩
  | range it => cases it <;> exact ⟨rfl, fun _ => rfl⟩
  | _ => exact ⟨rfl, fun set => absurd rfl set⟩

/-- The lists of a node are placed with it, unless it was read as a text of its own. -/
theorem listed_place (bodies : Bodies) (node : Node) :
    (node.place bodies).listed = node.listed ∨ (node.place bodies).listed =
      placeItems bodies node.listed := by
  cases node with
  | script => exact .inr rfl
  | caseItem it =>
      obtain ⟨pos, patterns, body, ending⟩ := it
      exact .inr rfl
  | command it =>
      cases it with
      | conditional _ condition consequence alternative | loop _ condition body =>
          refine .inr ?_
          simp only [place, Command.place, listed, placeItems_eq_map, List.map_append]
      | block | subshell | iteration => exact .inr rfl
      | _ => exact .inl rfl
  | range it => cases it <;> exact .inl rfl
  | part it =>
      cases it with
      | substitution _ _ backquoted =>
          cases backquoted with
          | true => exact .inl rfl
          | false => exact .inr rfl
      | process => exact .inr rfl
      | _ => exact .inl rfl
  | _ => exact .inl rfl

theorem Sourced.place (sourced : node.Sourced source) (bodies : Bodies) :
    (node.place bodies).Sourced source where
  straight := by
    rw [name?_place]
    exact sourced.straight
  stands := by
    obtain ⟨same, kept⟩ := node.assigned?_place bodies
    intro name set
    rw [same] at set
    rw [kept (Option.ne_none_iff_exists'.mpr ⟨name, set⟩)]
    exact sourced.stands name set
  admitted := by
    rcases node.listed_place bodies with same | placed
    · rw [same]
      exact sourced.admitted
    · rw [placed, placeItems_eq_map]
      exact List.forall_mem_map.mpr fun item member => (sourced.admitted item member).place bodies
  matched := by
    rw [pattern?_place]
    exact sourced.matched

namespace Drawn

theorem of_fields (here : node.Sourced source)
    (fields : ∀ field ∈ node.fields, field.2.Drawn source) :
    node.Drawn source := by
  refine .node here fun child member => ?_
  obtain ⟨field, inside, rfl⟩ := List.mem_map.mp member
  exact fields field inside

theorem field {field : Field} (drawn : node.Drawn source) (member : field ∈ node.fields) :
    field.2.Drawn source :=
  drawn.child (List.mem_map_of_mem member)

theorem partly (drawn : node.Drawn source) : node.Partly (Sourced source) (Sourced source) := by
  induction drawn with
  | node here below ih =>
      exact .node here (fun field member _ => ih field.2 (List.mem_map_of_mem member))
        fun field member _ => below field.2 (List.mem_map_of_mem member)

theorem place {bodies : Bodies} (drawn : node.Drawn source)
    (read : ∀ entry ∈ bodies, (Node.word entry.2).Drawn source) :
    (node.place bodies).Drawn source :=
  drawn.partly.place (fun _ sourced => sourced.place bodies) read

end Drawn

end Node

/-! ## What a node says where it is read -/

/-- What the node says is true of every source that has the text at the cursor. -/
def Node.Says (start : Cursor) (node : Node) : Prop :=
  ∀ source, Excerpt source start.position start.rest → node.Sourced source

/-- The element may stand in the place of a command in every source that has the text at the
cursor. -/
def Item.Admits (start : Cursor) (item : Item) : Prop :=
  ∀ source, Excerpt source start.position start.rest → item.Admitted source

namespace Node.Says

variable {start : Cursor} {node : Node}

/-- An extended pattern. -/
theorem glob {pos : Position} {mark : Char} {pattern : String}
    (matched : Balances '(' ')' 0 pattern.toList) :
    (Node.part (.glob pos mark pattern)).Says start := by
  intro source excerpt
  constructor
  case matched =>
    rintro _ ⟨⟩
    exact matched
  all_goals exact nofun

/-- A node without a name or a pattern, with lists of statements. -/
theorem listing (bare : (node.name?, node.pattern?) = (none, none))
    (listed : ∀ item ∈ node.listed, item.Admits start) : node.Says start := by
  obtain ⟨unnamed, other⟩ := Prod.mk.inj bare
  refine fun source excerpt =>
    ⟨?_, ?_, fun item member => listed item member source excerpt, by simp [other]⟩
  · rw [unnamed]
    exact nofun
  · intro name set
    cases unnamed.symm.trans (name?_of_assigned? set)

/-- A node that says nothing about the source itself. -/
theorem plain (bare : (node.name?, node.pattern?) = (none, none)) (unlisted : node.listed = []) :
    node.Says start := by
  refine listing bare ?_
  rw [unlisted]
  exact nofun

/-- A node whose name is not that of a variable at its position. -/
theorem named {name : String} (straight : '\n' ∉ name.toList) (here : node.name? = some name)
    (other : node.assigned? = none) (unlisted : node.listed = []) : node.Says start := by
  refine fun source _ => ⟨?_, ?_, ?_, by simp [pattern?_of_name? here]⟩
  · rintro _ same
    cases here.symm.trans same
    exact straight
  · rw [other]
    exact nofun
  · rw [unlisted]
    exact nofun

/-- A node that sets the variable at its position. -/
theorem setting {name : String} {rest : List Char} (named : ∀ c ∈ name.toList, isNameChar c = true)
    (place : node.pos = start.position) (written : start.rest = name.toList ++ rest)
    (here : node.name? = some name) (unlisted : node.listed = []) : node.Says start := by
  refine fun source excerpt => ⟨?_, ?_, ?_, by simp [pattern?_of_name? here]⟩
  · rintro _ same
    cases here.symm.trans same
    exact fun newline => absurd (named _ newline) (by decide)
  · intro other set
    cases here.symm.trans (name?_of_assigned? set)
    rw [place]
    exact ⟨named, rest, written ▸ excerpt⟩
  · rw [unlisted]
    exact nofun

end Node.Says

end RecipeLint
