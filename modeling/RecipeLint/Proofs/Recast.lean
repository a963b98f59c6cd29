import RecipeLint.Proofs.Running

/-!
# Trees with their positions moved

A `Change` moves positions and names those positions at which a parameter in braces loses them.
`recast` applies it to every construct of a tree.  Two readings of different texts are compared by
saying which changes turn the tree of the one into the tree of the other.
-/

namespace RecipeLint

/-- How a tree is changed: where positions go, and which plain parameters in braces lose them. -/
structure Change where
  /-- Where a position goes. -/
  place : Position → Position
  /-- Different positions go to different ones. -/
  injective : ∀ {first second}, place first = place second → first = second
  /-- Whether a plain parameter in braces at a position loses its braces. -/
  unbraced : Position → Bool

namespace Change

/-- Nothing changes. -/
def none : Change where
  place := id
  injective same := same
  unbraced _ := false

/-- Every position goes a number of lines down. -/
def down (lines : Nat) : Change where
  place position := ⟨position.line + lines, position.column⟩
  injective {first second} same := by
    obtain ⟨line, column⟩ := first
    obtain ⟨line', column'⟩ := second
    simp only [Position.mk.injEq] at same ⊢
    omega
  unbraced _ := false

end Change

mutual

/-- Changes a word. -/
def Word.recast (change : Change) : Word → Word
  | { pos, parts } => { pos := change.place pos, parts := recastParts change parts }

def recastParts (change : Change) : List Part → List Part
  | [] => []
  | part :: parts => part.recast change :: recastParts change parts

def Part.recast (change : Change) : Part → Part
  | .literal pos text => .literal (change.place pos) text
  | .single pos text dollar => .single (change.place pos) text dollar
  | .double pos parts dollar => .double (change.place pos) (recastParts change parts) dollar
  | .simple pos name => .simple (change.place pos) name
  | .braced pos question name index operation =>
      if change.unbraced pos && question = .value && index.isNone && operation.isNone then
        .simple (change.place pos) name
      else
        .braced (change.place pos) question name (recastWord change index)
          (recastOperation change operation)
  | .substitution pos body backquoted =>
      .substitution (change.place pos) (recastItems change body) backquoted
  | .arithmetic pos parts bracketed =>
      .arithmetic (change.place pos) (recastParts change parts) bracketed
  | .process pos direction body => .process (change.place pos) direction (recastItems change body)
  | .glob pos mark pattern => .glob (change.place pos) mark pattern

def recastWord (change : Change) : Option Word → Option Word
  | none => none
  | some word => some (word.recast change)

def recastOperation (change : Change) : Option Operation → Option Operation
  | none => none
  | some operation => some (operation.recast change)

def Operation.recast (change : Change) : Operation → Operation
  | .slice pos offset length =>
      .slice (change.place pos) (recastWord change offset) (recastWord change length)
  | .replace pos everywhere pattern replacement =>
      .replace (change.place pos) everywhere (recastWord change pattern)
        (recastWord change replacement)
  | .expand pos op operand => .expand (change.place pos) op (recastWord change operand)

def recastWords (change : Change) : List Word → List Word
  | [] => []
  | word :: words => word.recast change :: recastWords change words

def Value.recast (change : Change) : Value → Value
  | .naked => .naked
  | .empty => .empty
  | .scalar word => .scalar (word.recast change)
  | .array elements => .array (recastWords change elements)

def Assign.recast (change : Change) : Assign → Assign
  | { pos, name, index, append, value } =>
      { pos := change.place pos, name, index := recastWord change index, append
        value := value.recast change }

def recastAssigns (change : Change) : List Assign → List Assign
  | [] => []
  | assign :: assigns => assign.recast change :: recastAssigns change assigns

def Redirect.recast (change : Change) : Redirect → Redirect
  | { pos, op, fd, target, body } =>
      { pos := change.place pos, op, fd, target := target.recast change
        body := recastWord change body }

def recastRedirects (change : Change) : List Redirect → List Redirect
  | [] => []
  | redirect :: redirects => redirect.recast change :: recastRedirects change redirects

def Item.recast (change : Change) : Item → Item
  | .comment { pos, text } => .comment { pos := change.place pos, text }
  | .stmt statement => .stmt (statement.recast change)

def recastItems (change : Change) : List Item → List Item
  | [] => []
  | item :: items => item.recast change :: recastItems change items

def Stmt.recast (change : Change) : Stmt → Stmt
  | { pos, command, redirects, negated, background } =>
      { pos := change.place pos
        command := recastCommand change command
        redirects := recastRedirects change redirects
        negated
        background }

def recastCommand (change : Change) : Option Command → Option Command
  | none => none
  | some command => some (command.recast change)

/-- Changes a command. -/
def Command.recast (change : Change) : Command → Command
  | .call pos assigns args =>
      .call (change.place pos) (recastAssigns change assigns) (recastWords change args)
  | .declaration pos declarator opts assigns =>
      .declaration (change.place pos) declarator (recastWords change opts)
        (recastAssigns change assigns)
  | .evaluation pos exprs => .evaluation (change.place pos) (recastWords change exprs)
  | .function pos name body keyword =>
      .function (change.place pos) name (body.recast change) keyword
  | .block pos body => .block (change.place pos) (recastItems change body)
  | .subshell pos body => .subshell (change.place pos) (recastItems change body)
  | .conditional pos condition consequence alternative =>
      .conditional (change.place pos) (recastItems change condition)
        (recastItems change consequence) (recastItems change alternative)
  | .loop pos condition body untilTrue =>
      .loop (change.place pos) (recastItems change condition) (recastItems change body) untilTrue
  | .iteration pos range body select =>
      .iteration (change.place pos) (range.recast change) (recastItems change body) select
  | .case pos subject items =>
      .case (change.place pos) (subject.recast change) (recastCaseItems change items)
  | .binary pos connective left right =>
      .binary (change.place pos) connective (left.recast change) (right.recast change)
  | .test pos words => .test (change.place pos) (recastWords change words)
  | .arithmetic pos expr => .arithmetic (change.place pos) (expr.recast change)

def Range.recast (change : Change) : Range → Range
  | .words pos name items listed =>
      .words (change.place pos) name (recastWords change items) listed
  | .arithmetic pos expr => .arithmetic (change.place pos) (expr.recast change)

def CaseItem.recast (change : Change) : CaseItem → CaseItem
  | { pos, patterns, body, ending } =>
      { pos := change.place pos, patterns := recastWords change patterns
        body := recastItems change body, ending }

def recastCaseItems (change : Change) : List CaseItem → List CaseItem
  | [] => []
  | item :: items => item.recast change :: recastCaseItems change items

end

@[simp]
theorem recastParts_eq_map (change : Change) (parts : List Part) :
    recastParts change parts = parts.map (·.recast change) :=
  eq_map_of_cons rfl (fun _ _ => rfl) parts

@[simp]
theorem recastWords_eq_map (change : Change) (words : List Word) :
    recastWords change words = words.map (·.recast change) :=
  eq_map_of_cons rfl (fun _ _ => rfl) words

@[simp]
theorem recastAssigns_eq_map (change : Change) (assigns : List Assign) :
    recastAssigns change assigns = assigns.map (·.recast change) :=
  eq_map_of_cons rfl (fun _ _ => rfl) assigns

@[simp]
theorem recastRedirects_eq_map (change : Change) (redirects : List Redirect) :
    recastRedirects change redirects = redirects.map (·.recast change) :=
  eq_map_of_cons rfl (fun _ _ => rfl) redirects

@[simp]
theorem recastItems_eq_map (change : Change) (items : List Item) :
    recastItems change items = items.map (·.recast change) :=
  eq_map_of_cons rfl (fun _ _ => rfl) items

@[simp]
theorem recastCaseItems_eq_map (change : Change) (items : List CaseItem) :
    recastCaseItems change items = items.map (·.recast change) :=
  eq_map_of_cons rfl (fun _ _ => rfl) items

@[simp]
theorem recastWord_eq_map (change : Change) (word : Option Word) :
    recastWord change word = word.map (·.recast change) := by
  cases word <;> rfl

@[simp]
theorem recastOperation_eq_map (change : Change) (operation : Option Operation) :
    recastOperation change operation = operation.map (·.recast change) := by
  cases operation <;> rfl

@[simp]
theorem recastCommand_eq_map (change : Change) (command : Option Command) :
    recastCommand change command = command.map (·.recast change) := by
  cases command <;> rfl

theorem Item.recast_none (item : Item) : item.recast .none = item := by
  apply Item.recast.induct .none (fun word => word.recast .none = word)
    (fun parts => recastParts .none parts = parts) (fun part => part.recast .none = part)
    (fun items => recastItems .none items = items) (fun item => item.recast .none = item)
    (fun statement => statement.recast .none = statement)
    (fun redirects => recastRedirects .none redirects = redirects)
    (fun redirect => redirect.recast .none = redirect) (fun word => recastWord .none word = word)
    (fun command => recastCommand .none command = command)
    (fun command => command.recast .none = command)
    (fun items => recastCaseItems .none items = items) (fun item => item.recast .none = item)
    (fun words => recastWords .none words = words) (fun range => range.recast .none = range)
    (fun assigns => recastAssigns .none assigns = assigns)
    (fun assign => assign.recast .none = assign) (fun value => value.recast .none = value)
    (fun operation => recastOperation .none operation = operation)
    (fun operation => operation.recast .none = operation)
  all_goals
    intros
    simp_all [Change.none, Word.recast, recastParts, Part.recast, recastItems, Item.recast,
      Stmt.recast, recastRedirects, Redirect.recast, recastCommand, Command.recast,
      recastCaseItems, CaseItem.recast, recastWords, Range.recast, recastAssigns, Assign.recast,
      Value.recast, recastOperation, Operation.recast, recastWord]

/-- Changes here-documents that have been read. -/
def recastBodies (change : Change) (bodies : Bodies) : Bodies :=
  bodies.map fun (pos, body) => (change.place pos, body.recast change)

theorem lookup_recastBodies (change : Change) (bodies : Bodies) (pos : Position) :
    (recastBodies change bodies).lookup (change.place pos) =
      (bodies.lookup pos).map (·.recast change) := by
  induction bodies with
  | nil => rfl
  | cons entry bodies ih =>
      obtain ⟨start, body⟩ := entry
      rw [recastBodies, List.map_cons, List.lookup_cons, List.lookup_cons]
      by_cases same : pos = start
      · subst same
        simp
      · have other : change.place pos ≠ change.place start := fun moved =>
          same (change.injective moved)
        rw [beq_false_of_ne other, beq_false_of_ne same]
        exact ih

section Placing

variable {change : Change} {bodies bodies' : Bodies}

/-- Putting here-documents in place and changing the tree may be done in either order. -/
def Commutes {α : Type} (change : Change) (bodies bodies' : Bodies) (place : Bodies → α → α)
    (recast : Change → α → α) : Prop :=
  ∀ value, recast change (place bodies value) = place bodies' (recast change value)

variable (agree : ∀ pos, bodies'.lookup (change.place pos) = (bodies.lookup pos).map
  (·.recast change))

include agree

theorem commutes :
    Commutes change bodies bodies' Word.place Word.recast ∧
    Commutes change bodies bodies' placeParts recastParts ∧
    Commutes change bodies bodies' Part.place Part.recast ∧
    Commutes change bodies bodies' placeItems recastItems ∧
    Commutes change bodies bodies' Item.place Item.recast ∧
    Commutes change bodies bodies' Stmt.place Stmt.recast ∧
    Commutes change bodies bodies' placeRedirects recastRedirects ∧
    Commutes change bodies bodies' Redirect.place Redirect.recast ∧
    Commutes change bodies bodies' placeCommand recastCommand ∧
    Commutes change bodies bodies' Command.place Command.recast ∧
    Commutes change bodies bodies' placeCaseItems recastCaseItems ∧
    Commutes change bodies bodies' CaseItem.place CaseItem.recast ∧
    Commutes change bodies bodies' placeWords recastWords ∧
    Commutes change bodies bodies' Range.place Range.recast ∧
    Commutes change bodies bodies' placeAssigns recastAssigns ∧
    Commutes change bodies bodies' Assign.place Assign.recast ∧
    Commutes change bodies bodies' Value.place Value.recast ∧
    Commutes change bodies bodies' placeOperation recastOperation ∧
    Commutes change bodies bodies' Operation.place Operation.recast ∧
    Commutes change bodies bodies' placeWord recastWord := by
  unfold Commutes
  apply Word.place.mutual_induct
  case case3 =>
    -- Whether braces are lost depends on whether there is an operation, which is not affected.
    intro pos question name index operation ih
    cases operation with
    | none =>
        simp only [Part.place, Part.recast, placeOperation]
        split <;> rfl
    | some operation => simp_all [Part.place, Part.recast, placeOperation, recastOperation]
  all_goals
    intros
    simp_all [Word.place, placeParts, Part.place, placeItems, Item.place, Stmt.place,
      placeRedirects, Redirect.place, placeCommand, Command.place, placeCaseItems, CaseItem.place,
      placeWords, Range.place, placeAssigns, Assign.place, Value.place, placeOperation,
      Operation.place, placeWord, Word.recast, recastParts, Part.recast, recastItems, Item.recast,
      Stmt.recast, recastRedirects, Redirect.recast, recastCommand, Command.recast,
      recastCaseItems, CaseItem.recast, recastWords, Range.recast, recastAssigns, Assign.recast,
      Value.recast, recastOperation, Operation.recast, recastWord]

theorem recastParts_place (parts : List Part) :
    recastParts change (placeParts bodies parts) = placeParts bodies' (recastParts change parts) :=
  (commutes agree).2.1 parts

theorem recastItems_place (items : List Item) :
    recastItems change (placeItems bodies items) = placeItems bodies' (recastItems change items) :=
  (commutes agree).2.2.2.1 items

end Placing

/-! ## What readings handle -/

/-- The values that readings handle and to which changes apply. -/
class Recastable (α : Type) where
  /-- Applies a change. -/
  recast : Change → α → α

/-- Applies a change to a value. -/
def Change.on [Recastable α] (change : Change) (value : α) : α :=
  Recastable.recast change value

section Instances

variable {α β : Type} [Recastable α] [Recastable β]

instance : Recastable Position := ⟨fun change => change.place⟩
instance : Recastable Part := ⟨Part.recast⟩
instance : Recastable Word := ⟨Word.recast⟩
instance : Recastable Operation := ⟨Operation.recast⟩
instance : Recastable Value := ⟨Value.recast⟩
instance : Recastable Assign := ⟨Assign.recast⟩
instance : Recastable Redirect := ⟨Redirect.recast⟩
instance : Recastable Item := ⟨Item.recast⟩
instance : Recastable Stmt := ⟨Stmt.recast⟩
instance : Recastable Command := ⟨Command.recast⟩
instance : Recastable Range := ⟨Range.recast⟩
instance : Recastable CaseItem := ⟨CaseItem.recast⟩
instance : Recastable Unit := ⟨fun _ => id⟩
instance : Recastable Bool := ⟨fun _ => id⟩
instance : Recastable String := ⟨fun _ => id⟩
instance : Recastable Question := ⟨fun _ => id⟩
instance : Recastable CaseEnd := ⟨fun _ => id⟩
instance : Recastable (List α) := ⟨fun change => List.map change.on⟩
instance : Recastable (Option α) := ⟨fun change => Option.map change.on⟩
instance : Recastable (α × β) := ⟨fun change => Prod.map change.on change.on⟩

instance : Recastable (Round α β) :=
  ⟨fun change => Round.elim (fun value => .again (change.on value))
    fun result => .done (change.on result)⟩

instance : Recastable Comment :=
  ⟨fun change comment => { comment with pos := change.place comment.pos }⟩

instance : Recastable Awaited :=
  ⟨fun change awaited => { awaited with pos := change.place awaited.pos }⟩

instance : Recastable Pieces :=
  ⟨fun change pieces =>
    { pieces with parts := change.on pieces.parts, start := change.place pieces.start }⟩

instance {γ : Type} : Recastable (Reading.Nested γ) :=
  ⟨fun change nested => { nested with pieces := change.on nested.pieces }⟩

instance : Recastable CallDraft :=
  ⟨fun change draft =>
    { assigns := change.on draft.assigns, args := change.on draft.args
      redirects := change.on draft.redirects }⟩

instance : Recastable DeclarationDraft :=
  ⟨fun change draft =>
    { opts := change.on draft.opts, assigns := change.on draft.assigns
      redirects := change.on draft.redirects }⟩

instance : Recastable EvaluationDraft :=
  ⟨fun change draft =>
    { exprs := change.on draft.exprs, redirects := change.on draft.redirects }⟩

end Instances

section Equations

variable {α β : Type} [Recastable α] [Recastable β] (change : Change)

@[simp]
theorem recast_unit (value : Unit) : change.on value = value := rfl

@[simp]
theorem recast_bool (value : Bool) : change.on value = value := rfl

@[simp]
theorem recast_string (value : String) : change.on value = value := rfl

@[simp]
theorem recast_question (question : Question) : change.on question = question := rfl

@[simp]
theorem recast_caseEnd (value : CaseEnd) : change.on value = value := rfl

@[simp]
theorem recast_nil : change.on ([] : List α) = [] := rfl

@[simp]
theorem recast_cons (value : α) (values : List α) :
    change.on (value :: values) = change.on value :: change.on values := rfl

@[simp]
theorem recast_append (front back : List α) :
    change.on (front ++ back) = change.on front ++ change.on back :=
  List.map_append

@[simp]
theorem recast_reverse (values : List α) :
    change.on values.reverse = (change.on values).reverse :=
  List.map_reverse

@[simp]
theorem isEmpty_recast (values : List α) : (change.on values).isEmpty = values.isEmpty := by
  cases values <;> rfl

@[simp]
theorem recast_absent : change.on (none : Option α) = none := rfl

@[simp]
theorem recast_some (value : α) : change.on (some value) = some (change.on value) := rfl

@[simp]
theorem recast_pair (first : α) (second : β) :
    change.on (first, second) = (change.on first, change.on second) := rfl

@[simp]
theorem recast_again (value : α) :
    change.on (.again value : Round α β) = .again (change.on value) := rfl

@[simp]
theorem recast_done (result : β) :
    change.on (.done result : Round α β) = .done (change.on result) := rfl

@[simp]
theorem Part.recast_literal (pos : Position) (text : String) :
    change.on (Part.literal pos text) = .literal (change.on pos) text := rfl

@[simp]
theorem Part.recast_others :
    (∀ pos text dollar, change.on (Part.single pos text dollar) =
      .single (change.on pos) text dollar) ∧
    (∀ pos name, change.on (Part.simple pos name) = .simple (change.on pos) name) ∧
    (∀ pos body backquoted, change.on (Part.substitution pos body backquoted) =
      .substitution (change.on pos) (change.on body) backquoted) ∧
    (∀ pos direction body, change.on (Part.process pos direction body) =
      .process (change.on pos) direction (change.on body)) ∧
    (∀ pos mark pattern, change.on (Part.glob pos mark pattern) = .glob (change.on pos)
      mark pattern) := by
  simp [Change.on, Recastable.recast, Part.recast]

@[simp]
theorem Part.recast_double (pos : Position) (parts : List Part) (dollar : Bool) :
    change.on (Part.double pos parts dollar) =
      .double (change.on pos) (change.on parts) dollar := by
  simp [Change.on, Recastable.recast, Part.recast]

@[simp]
theorem Part.recast_arithmetic (pos : Position) (parts : List Part) (bracketed : Bool) :
    change.on (Part.arithmetic pos parts bracketed) =
      .arithmetic (change.on pos) (change.on parts) bracketed := by
  simp [Change.on, Recastable.recast, Part.recast]

@[simp]
theorem Operation.recast_all :
    (∀ pos offset length, change.on (Operation.slice pos offset length) =
      .slice (change.on pos) (change.on offset) (change.on length)) ∧
    (∀ pos everywhere pattern replacement,
      change.on (Operation.replace pos everywhere pattern replacement) =
      .replace (change.on pos) everywhere (change.on pattern) (change.on replacement)) ∧
    (∀ pos op operand, change.on (Operation.expand pos op operand) =
      .expand (change.on pos) op (change.on operand)) := by
  simp only [Change.on, Recastable.recast, Operation.recast, recastWord_eq_map]
  exact ⟨fun _ _ _ => rfl, fun _ _ _ _ => rfl, fun _ _ _ => rfl⟩

@[simp]
theorem Value.recast_naked :
    change.on (Value.naked) = .naked := rfl

@[simp]
theorem Value.recast_empty :
    change.on (Value.empty) = .empty := rfl

@[simp]
theorem Value.recast_scalar (word : Word) :
    change.on (Value.scalar word) = .scalar (change.on word) := rfl

@[simp]
theorem Value.recast_array (elements : List Word) :
    change.on (Value.array elements) = .array (change.on elements) := by
  simp [Change.on, Recastable.recast, Value.recast]

@[simp]
theorem Item.recast_comment (comment : Comment) :
    change.on (Item.comment comment) = .comment (change.on comment) := rfl

@[simp]
theorem Item.recast_stmt (statement : Stmt) :
    change.on (Item.stmt statement) = .stmt (change.on statement) := rfl

@[simp]
theorem Command.recast_others :
    (∀ pos assigns args, change.on (Command.call pos assigns args) =
      .call (change.on pos) (change.on assigns) (change.on args)) ∧
    (∀ pos declarator opts assigns, change.on (Command.declaration pos declarator opts assigns) =
      .declaration (change.on pos) declarator (change.on opts) (change.on assigns)) ∧
    (∀ pos exprs, change.on (Command.evaluation pos exprs) = .evaluation (change.on pos)
      (change.on exprs)) ∧
    (∀ pos name body keyword, change.on (Command.function pos name body keyword) =
      .function (change.on pos) name (change.on body) keyword) ∧
    (∀ pos body, change.on (Command.block pos body) = .block (change.on pos) (change.on body)) ∧
    (∀ pos body, change.on (Command.subshell pos body) = .subshell (change.on pos)
      (change.on body)) ∧
    (∀ pos condition consequence alternative,
      change.on (Command.conditional pos condition consequence alternative) =
        .conditional (change.on pos) (change.on condition) (change.on consequence)
        (change.on alternative)) ∧
    (∀ pos condition body untilTrue, change.on (Command.loop pos condition body untilTrue) =
      .loop (change.on pos) (change.on condition) (change.on body) untilTrue) ∧
    (∀ pos range body select, change.on (Command.iteration pos range body select) =
      .iteration (change.on pos) (change.on range) (change.on body) select) ∧
    (∀ pos subject items, change.on (Command.case pos subject items) =
      .case (change.on pos) (change.on subject) (change.on items)) ∧
    (∀ pos words, change.on (Command.test pos words) = .test (change.on pos)
      (change.on words)) := by
  simp [Change.on, Recastable.recast, Command.recast]

@[simp]
theorem Command.recast_binary (pos : Position) (connective : Connective) (left right : Stmt) :
    change.on (Command.binary pos connective left right) =
      .binary (change.on pos) connective (change.on left) (change.on right) := rfl

@[simp]
theorem Command.recast_arithmetic (pos : Position) (expr : Word) :
    change.on (Command.arithmetic pos expr) =
      .arithmetic (change.on pos) (change.on expr) := rfl

@[simp]
theorem Range.recast_words (pos : Position) (name : String) (items : List Word) (listed : Bool) :
    change.on (Range.words pos name items listed) =
      .words (change.on pos) name (change.on items) listed := by
  simp [Change.on, Recastable.recast, Range.recast]

@[simp]
theorem Range.recast_arithmetic (pos : Position) (expr : Word) :
    change.on (Range.arithmetic pos expr) =
      .arithmetic (change.on pos) (change.on expr) := rfl

/-- A parameter in braces keeps them where they are not lost. -/
theorem Part.recast_braced {pos : Position} (kept : change.unbraced pos = false)
    (question : Question) (name : String) (index : Option Word) (operation : Option Operation) :
    change.on (Part.braced pos question name index operation) =
      .braced (change.on pos) question name (change.on index) (change.on operation) := by
  simp only [Change.on, Recastable.recast, Part.recast, kept, recastWord_eq_map,
    recastOperation_eq_map, Bool.false_and, Bool.false_eq_true, if_false]
  rfl

@[simp]
theorem Word.recast_mk (pos : Position) (parts : List Part) :
    change.on (Word.mk pos parts) = ⟨change.on pos, change.on parts⟩ := by
  simp [Change.on, Recastable.recast, Word.recast]

@[simp]
theorem Assign.recast_mk (pos : Position) (name : String) (index : Option Word) (append : Bool)
    (value : Value) :
    change.on (Assign.mk pos name index append value) =
      ⟨change.on pos, name, change.on index, append, change.on value⟩ := by
  simp only [Change.on, Recastable.recast, Assign.recast, recastWord_eq_map]
  rfl

@[simp]
theorem Redirect.recast_mk (pos : Position) (op : RedirectOp) (fd : Option String) (target : Word)
    (body : Option Word) :
    change.on (Redirect.mk pos op fd target body) =
      ⟨change.on pos, op, fd, change.on target, change.on body⟩ := by
  simp only [Change.on, Recastable.recast, Redirect.recast, recastWord_eq_map]
  rfl

@[simp]
theorem Stmt.recast_mk (pos : Position) (command : Option Command) (redirects : List Redirect)
    (negated background : Bool) :
    change.on (Stmt.mk pos command redirects negated background) =
      ⟨change.on pos, change.on command, change.on redirects, negated, background⟩ := by
  simp only [Change.on, Recastable.recast, Stmt.recast, recastCommand_eq_map,
    recastRedirects_eq_map]
  rfl

@[simp]
theorem CaseItem.recast_mk (pos : Position) (patterns : List Word) (body : List Item)
    (ending : CaseEnd) :
    change.on (CaseItem.mk pos patterns body ending) =
      ⟨change.on pos, change.on patterns, change.on body, ending⟩ := by
  simp [Change.on, Recastable.recast, CaseItem.recast]

@[simp]
theorem Comment.recast_mk (pos : Position) (text : String) :
    change.on (Comment.mk pos text) = ⟨change.on pos, text⟩ := rfl

@[simp]
theorem Awaited.recast_mk (pos : Position) (tabs : Bool) (delimiter : List Char) (quoted : Bool) :
    change.on (Awaited.mk pos tabs delimiter quoted) =
      ⟨change.on pos, tabs, delimiter, quoted⟩ := rfl

@[simp]
theorem CallDraft.recast_mk (assigns : List Assign) (args : List Word) (redirects : List Redirect) :
    change.on (CallDraft.mk assigns args redirects) =
      ⟨change.on assigns, change.on args, change.on redirects⟩ := rfl

@[simp]
theorem DeclarationDraft.recast_mk (opts : List Word) (assigns : List Assign)
    (redirects : List Redirect) :
    change.on (DeclarationDraft.mk opts assigns redirects) =
      ⟨change.on opts, change.on assigns, change.on redirects⟩ := rfl

@[simp]
theorem EvaluationDraft.recast_mk (exprs : List Word) (redirects : List Redirect) :
    change.on (EvaluationDraft.mk exprs redirects) =
      ⟨change.on exprs, change.on redirects⟩ := rfl

@[simp]
theorem Reading.Nested.recast_mk {γ : Type} (pieces : Pieces) (depth : γ) :
    change.on (Reading.Nested.mk pieces depth) = ⟨change.on pieces, depth⟩ := rfl

end Equations

section Invariance

variable (change : Change)

@[simp]
theorem Part.literal?_recast (part : Part) : (change.on part).literal? = part.literal? := by
  cases part with
  | braced pos question name index operation =>
      simp only [Change.on, Recastable.recast, Part.recast]
      split <;> rfl
  | _ => rfl

@[simp]
theorem Word.pos_recast (word : Word) : (change.on word).pos = change.on word.pos := by
  cases word
  rfl

@[simp]
theorem Word.parts_recast (word : Word) :
    (change.on word).parts = change.on word.parts := by
  cases word
  simp

theorem literal?_comp_recast : Part.literal? ∘ change.on = Part.literal? :=
  funext fun part => part.literal?_recast change

@[simp]
theorem Word.literal?_recast (word : Word) : (change.on word).literal? = word.literal? := by
  have same : List.mapM Part.literal? (change.on word.parts) = word.parts.mapM Part.literal? := by
    simp only [Change.on, Recastable.recast, List.mapM_map]
    exact congrArg (List.mapM · word.parts) (literal?_comp_recast change)
  simp only [Word.literal?, Word.parts_recast, isEmpty_recast, same]

@[simp]
theorem Part.delimiter_recast (part : Part) : (change.on part).delimiter = part.delimiter := by
  cases part with
  | braced pos question name index operation =>
      simp only [Change.on, Recastable.recast, Part.recast]
      split <;> rfl
  | double pos parts dollar =>
      have same : List.filterMap Part.literal? (change.on parts) =
          parts.filterMap Part.literal? := by
        simp only [Change.on, Recastable.recast, List.filterMap_map]
        exact congrArg (List.filterMap · parts) (literal?_comp_recast change)
      simp only [Part.recast_double, Part.delimiter, same]
  | _ => rfl

@[simp]
theorem Stmt.pos_recast (statement : Stmt) :
    (change.on statement).pos = change.on statement.pos := by
  cases statement
  rfl

@[simp]
theorem Awaited.recast_ofRedirect (redirect : Redirect) :
    change.on (Awaited.ofRedirect redirect) = .ofRedirect (change.on redirect) := by
  obtain ⟨pos, op, fd, target, body⟩ := redirect
  have same : List.map Part.delimiter (change.on target.parts) =
      target.parts.map Part.delimiter := by
    simp only [Change.on, Recastable.recast, List.map_map]
    exact congrArg (List.map · target.parts) (funext fun part => part.delimiter_recast change)
  simp only [Awaited.ofRedirect, Redirect.recast_mk, Word.parts_recast, same, Awaited.recast_mk]

@[simp]
theorem Stmt.recast_ofDraft (pos : Position) (command : Option Command)
    (redirects : List Redirect) :
    change.on (Stmt.ofDraft pos command redirects) =
      .ofDraft (change.on pos) (change.on command) (change.on redirects) := by
  simp [Stmt.ofDraft]

theorem Stmt.recast_negated (statement : Stmt) (pos : Position) :
    change.on { statement with negated := true, pos } =
      { change.on statement with negated := true, pos := change.on pos } := by
  cases statement
  simp

theorem Stmt.recast_background (statement : Stmt) (background : Bool) :
    change.on { statement with background } = { change.on statement with background } := by
  cases statement
  simp

namespace Pieces

variable (pieces : Pieces)

@[simp]
theorem recast_empty (pos : Position) : change.on (empty pos) = empty (change.on pos) := rfl

@[simp]
theorem isEmpty_recast : (change.on pieces).isEmpty = pieces.isEmpty := by
  simp [isEmpty, Change.on, Recastable.recast]

@[simp]
theorem recast_push (pos : Position) (chars : List Char) :
    change.on (pieces.push pos chars) = (change.on pieces).push (change.on pos) chars := by
  cases started : pieces.run.isEmpty <;> simp [push, started, Change.on, Recastable.recast]

theorem recast_flush : change.on pieces.flush = (change.on pieces).flush := by
  cases started : pieces.run.isEmpty <;>
    simp [flush, started, Change.on, Recastable.recast, Part.recast]

@[simp]
theorem recast_add (part : Part) :
    change.on (pieces.add part) = (change.on pieces).add (change.on part) := by
  simp only [add, ← recast_flush]
  rfl

@[simp]
theorem recast_finish : change.on pieces.finish = (change.on pieces).finish := by
  simp only [finish, ← recast_flush, recast_reverse]
  rfl

end Pieces

@[simp]
theorem DeclarationDraft.recast_add (draft : DeclarationDraft) (word : Word) :
    change.on (draft.add word) = (change.on draft).add (change.on word) := by
  simp only [add, Word.literal?_recast]
  cases word.literal? with
  | none => rfl
  | some name =>
      simp only
      split
      · rw [Word.pos_recast]
        rfl
      · rfl

end Invariance

end RecipeLint
