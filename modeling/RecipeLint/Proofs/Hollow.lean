import RecipeLint.Lint.Linter
import RecipeLint.Proofs.Classification
import RecipeLint.Proofs.Nodes

/-!
# Functions do not reach out of their bodies

A script is hollowed by taking out the bodies of its outermost functions.  Two scripts that are the
same when hollowed differ in these bodies only.  The checks of the top level see no more of a script
than what is left then. -/

namespace RecipeLint

/-- What stands for a body that has been taken out. -/
def Stmt.hollowed : Stmt :=
  { pos := .start, command := none, redirects := [], negated := false, background := false }

mutual

/-- Hollows a word. -/
def Word.hollow : Word → Word
  | { pos, parts } => { pos, parts := hollowParts parts }

def hollowParts : List Part → List Part
  | [] => []
  | part :: parts => part.hollow :: hollowParts parts

def Part.hollow : Part → Part
  | .literal pos text => .literal pos text
  | .single pos text dollar => .single pos text dollar
  | .double pos parts dollar => .double pos (hollowParts parts) dollar
  | .simple pos name => .simple pos name
  | .braced pos question name index operation =>
      .braced pos question name (hollowWord index) (hollowOperation operation)
  | .substitution pos body backquoted => .substitution pos (hollowItems body) backquoted
  | .arithmetic pos parts bracketed => .arithmetic pos (hollowParts parts) bracketed
  | .process pos direction body => .process pos direction (hollowItems body)
  | .glob pos mark pattern => .glob pos mark pattern

def hollowWord : Option Word → Option Word
  | none => none
  | some word => some word.hollow

def hollowOperation : Option Operation → Option Operation
  | none => none
  | some operation => some operation.hollow

def Operation.hollow : Operation → Operation
  | .slice pos offset length => .slice pos (hollowWord offset) (hollowWord length)
  | .replace pos everywhere pattern replacement =>
      .replace pos everywhere (hollowWord pattern) (hollowWord replacement)
  | .expand pos op operand => .expand pos op (hollowWord operand)

def hollowWords : List Word → List Word
  | [] => []
  | word :: words => word.hollow :: hollowWords words

def Value.hollow : Value → Value
  | .naked => .naked
  | .empty => .empty
  | .scalar word => .scalar word.hollow
  | .array elements => .array (hollowWords elements)

def Assign.hollow : Assign → Assign
  | { pos, name, index, append, value } =>
      { pos, name, index := hollowWord index, append, value := value.hollow }

def hollowAssigns : List Assign → List Assign
  | [] => []
  | assign :: assigns => assign.hollow :: hollowAssigns assigns

def Redirect.hollow : Redirect → Redirect
  | { pos, op, fd, target, body } =>
      { pos, op, fd, target := target.hollow, body := hollowWord body }

def hollowRedirects : List Redirect → List Redirect
  | [] => []
  | redirect :: redirects => redirect.hollow :: hollowRedirects redirects

def Item.hollow : Item → Item
  | .comment remark => .comment remark
  | .stmt statement => .stmt statement.hollow

def hollowItems : List Item → List Item
  | [] => []
  | item :: items => item.hollow :: hollowItems items

def Stmt.hollow : Stmt → Stmt
  | { pos, command, redirects, negated, background } =>
      { pos, command := hollowCommand command, redirects := hollowRedirects redirects,
        negated, background }

def hollowCommand : Option Command → Option Command
  | none => none
  | some command => some command.hollow

/-- Hollows a command.  Only here is something taken out. -/
def Command.hollow : Command → Command
  | .call pos assigns args => .call pos (hollowAssigns assigns) (hollowWords args)
  | .declaration pos declarator opts assigns =>
      .declaration pos declarator (hollowWords opts) (hollowAssigns assigns)
  | .evaluation pos exprs => .evaluation pos (hollowWords exprs)
  | .function pos name _ keyword => .function pos name .hollowed keyword
  | .block pos body => .block pos (hollowItems body)
  | .subshell pos body => .subshell pos (hollowItems body)
  | .conditional pos condition consequence alternative =>
      .conditional pos (hollowItems condition) (hollowItems consequence) (hollowItems alternative)
  | .loop pos condition body untilTrue =>
      .loop pos (hollowItems condition) (hollowItems body) untilTrue
  | .iteration pos range body select => .iteration pos range.hollow (hollowItems body) select
  | .case pos subject items => .case pos subject.hollow (hollowCaseItems items)
  | .binary pos connective left right => .binary pos connective left.hollow right.hollow
  | .test pos words => .test pos (hollowWords words)
  | .arithmetic pos expr => .arithmetic pos expr.hollow

def Range.hollow : Range → Range
  | .words pos name items listed => .words pos name (hollowWords items) listed
  | .arithmetic pos expr => .arithmetic pos expr.hollow

def CaseItem.hollow : CaseItem → CaseItem
  | { pos, patterns, body, ending } =>
      { pos, patterns := hollowWords patterns, body := hollowItems body, ending }

def hollowCaseItems : List CaseItem → List CaseItem
  | [] => []
  | item :: items => item.hollow :: hollowCaseItems items

end

/-- Takes out the bodies of the outermost functions of a script. -/
def Script.hollow (script : Script) : Script where
  name := script.name
  items := hollowItems script.items

def Node.hollow : Node → Node
  | .script it => .script it.hollow
  | .comment it => .comment it
  | .stmt it => .stmt it.hollow
  | .command it => .command it.hollow
  | .range it => .range it.hollow
  | .caseItem it => .caseItem it.hollow
  | .assign it => .assign it.hollow
  | .redirect it => .redirect it.hollow
  | .word it => .word it.hollow
  | .part it => .part it.hollow
  | .operation it => .operation it.hollow

@[simp]
theorem hollowParts_eq_map (parts : List Part) : hollowParts parts = parts.map Part.hollow :=
  eq_map_of_cons rfl (fun _ _ => rfl) parts

@[simp]
theorem hollowWords_eq_map (words : List Word) : hollowWords words = words.map Word.hollow :=
  eq_map_of_cons rfl (fun _ _ => rfl) words

@[simp]
theorem hollowAssigns_eq_map (assigns : List Assign) :
    hollowAssigns assigns = assigns.map Assign.hollow :=
  eq_map_of_cons rfl (fun _ _ => rfl) assigns

@[simp]
theorem hollowRedirects_eq_map (redirects : List Redirect) :
    hollowRedirects redirects = redirects.map Redirect.hollow :=
  eq_map_of_cons rfl (fun _ _ => rfl) redirects

@[simp]
theorem hollowItems_eq_map (items : List Item) : hollowItems items = items.map Item.hollow :=
  eq_map_of_cons rfl (fun _ _ => rfl) items

@[simp]
theorem hollowCaseItems_eq_map (items : List CaseItem) :
    hollowCaseItems items = items.map CaseItem.hollow :=
  eq_map_of_cons rfl (fun _ _ => rfl) items

@[simp]
theorem hollowWord_eq_map (word : Option Word) : hollowWord word = word.map Word.hollow := by
  cases word <;> rfl

@[simp]
theorem hollowCommand_eq_map (command : Option Command) :
    hollowCommand command = command.map Command.hollow := by
  cases command <;> rfl

/-! ## What a hollowed script still has -/

namespace Node

/-- Whether a node declares a function. -/
def isFunction : Node → Bool
  | .command (.function ..) => true
  | _ => false

/-- Below a node that declares no function, hollowing changes nothing but the nodes themselves. -/
theorem fields_hollow {node : Node} (other : node.isFunction = false) :
    node.hollow.fields = node.fields.map (Field.change fun _ => hollow) := by
  have item (it : Item) : it.node.hollow = it.hollow.node := by cases it <;> rfl
  cases node with
  | comment => rfl
  | script it | stmt it | caseItem it | redirect it | word it =>
      cases it
      rw [hollow]
      simp [Script.hollow, Stmt.hollow, CaseItem.hollow, Redirect.hollow, Word.hollow, fields, item]
        <;> rfl
  | command it =>
      cases it with
      | function => cases other
      | _ =>
          rw [hollow]
          simp [Command.hollow, fields, Command.fields, item] <;> rfl
  | range it => cases it <;> rw [hollow] <;> simp [Range.hollow, fields, Range.fields] <;> rfl
  | assign it =>
      rcases it with ⟨_, _, _, _, _ | _ | _ | _⟩ <;> rw [hollow] <;>
        simp [Assign.hollow, Value.hollow, fields, Value.fields] <;> rfl
  | operation it =>
      cases it <;> rw [hollow] <;> simp [Operation.hollow, fields, Operation.fields] <;> rfl
  | part it =>
      rcases it with _ | _ | _ | _ | ⟨_, _, _, _, _ | operation⟩ | _ | _ | _ | _
      case braced.some =>
        rw [hollow]
        cases operation <;> simp [Part.hollow, hollowOperation, fields, Part.fields] <;> rfl
      all_goals
        rw [hollow]
        simp [Part.hollow, hollowOperation, fields, Part.fields, item] <;> rfl

theorem children_hollow {node : Node} (other : node.isFunction = false) :
    node.hollow.children = node.children.map hollow := by
  simp only [children, fields_hollow other, List.map_map]
  rfl

/-- A walk that does not go below functions takes the same way through a hollowed script. -/
theorem trail_hollow {enters : Node → Bool} (same : ∀ node, enters node.hollow = enters node)
    (shut : ∀ node, enters node = true → node.isFunction = false) (nodes : List Node) :
    Descent.full.trail enters (nodes.map hollow) =
      (Descent.full.trail enters nodes).map hollow := by
  fun_induction Descent.trail Descent.full enters nodes with
  | case1 => simp [Descent.trail]
  | case2 node nodes entered ih =>
      rw [List.map_append] at ih
      rw [List.map_cons, Descent.trail, same, if_pos entered, List.map_cons, ← ih]
      simp only [Descent.full, children_hollow (shut node entered)]
  | case3 node nodes passed ih =>
      rw [List.map_cons, Descent.trail, same, if_neg passed, ih, List.map_cons]

theorem isOpen_hollow (node : Node) : node.hollow.isOpen = node.isOpen := by
  cases node with
  | command it =>
      cases it with
      | declaration _ declarator => cases declarator <;> rfl
      | _ => rfl
  | _ => rfl

theorem collect_hollow {α : Type} {visit : Node → Bool × List α}
    (same : ∀ node, visit node.hollow = visit node)
    (shut : ∀ node, (visit node).1 = true → node.isFunction = false) (root : Node) :
    Descent.full.collect visit root.hollow = Descent.full.collect visit root := by
  rw [Descent.collect_eq_flatMap, Descent.collect_eq_flatMap,
    ← List.map_singleton, trail_hollow (fun node => by rw [same]) shut, List.flatMap_map]
  simp only [same]

end Node

/-! ## What the checks of the top level see -/

/-- Only the place and the name of an assignment. -/
def Assign.bare (assign : Assign) : Assign where
  pos := assign.pos
  name := assign.name
  index := none
  append := false
  value := .empty

/-- Only the place and the name of a function. -/
def Function.bare (function : Function) : Function where
  pos := function.pos
  name := function.name
  body := .hollowed
  keyword := false

theorem Function.insert_bare (function : Function) (table : List Function) :
    function.bare.insert (table.map bare) = (function.insert table).map bare := by
  induction table with
  | nil => rfl
  | cons other table ih =>
      by_cases same : other.name = function.name
      · simp [insert, bare, same]
      · simp [insert, ih, same, show other.bare.name ≠ function.bare.name from same]

theorem Function.tabulate_bare (functions : List Function) :
    tabulate (functions.map bare) = (tabulate functions).map bare := by
  have step (table : List Function) :
      (functions.map bare).foldl (fun table function => function.insert table) (table.map bare) =
        (functions.foldl (fun table function => function.insert table) table).map bare := by
    induction functions generalizing table with
    | nil => rfl
    | cons function functions ih =>
        rw [List.map_cons, List.foldl_cons, insert_bare, ih, List.foldl_cons]
  exact step []

theorem maintainerViolations_bare {ε : Type} (read : MailboxReader ε) (comments : List Comment)
    (assigns : List Assign) : maintainerViolations read comments (assigns.map Assign.bare) =
      maintainerViolations read comments assigns := by
  have place (contributors : List Credit) (maintainer : Comment) :
      maintainerPlace (assigns.map Assign.bare) contributors maintainer =
        maintainerPlace assigns contributors maintainer := by
    cases assigns <;> rfl
  unfold maintainerViolations
  simp only [funext fun contributors => funext (place contributors)]

theorem repeatedFunctions_bare (seen : List String) (functions : List Function) :
    repeatedFunctions seen (functions.map Function.bare) = repeatedFunctions seen functions := by
  induction functions generalizing seen with
  | nil => rfl
  | cons function functions ih => simp only [List.map_cons, repeatedFunctions, ih, Function.bare]

namespace Recipe

/-- What the checks of the top level see of a recipe. -/
def bare (recipe : Recipe) : Recipe where
  script := { name := "", items := [] }
  comments := recipe.comments
  assigns := recipe.assigns.map Assign.bare
  functions := recipe.functions.map Function.bare
  table := Function.tabulate (recipe.functions.map Function.bare)
  table_eq := rfl

variable (recipe : Recipe)

theorem isGlobal_bare (name : String) : recipe.bare.isGlobal name = recipe.isGlobal name := by
  rw [isGlobal, isGlobal, bare, List.any_map]
  rfl

theorem globalViolations_bare : recipe.bare.globalViolations = recipe.globalViolations := by
  simp [globalViolations, bare, List.filter_map, Function.comp_def, Assign.bare]

theorem placementViolations_bare :
    recipe.bare.placementViolations = recipe.placementViolations := by
  have misplaced (first last : Function) :
      (recipe.assigns.map Assign.bare).filterMap (·.misplaced? first.bare last.bare) =
        recipe.assigns.filterMap (·.misplaced? first last) := by
    rw [List.filterMap_map]
    rfl
  simp only [placementViolations, firstFunction?, lastFunction?, bare, List.head?_map,
    List.getLast?_map]
  cases recipe.functions.head? with
  | none => rfl
  | some first =>
      cases recipe.functions.getLast? with
      | none => rfl
      | some last => exact misplaced first last

theorem metadataViolations_bare : recipe.bare.metadataViolations = recipe.metadataViolations := by
  simp only [metadataViolations, isGlobal_bare]

theorem function?_bare (name : String) :
    recipe.bare.function? name = (recipe.function? name).map Function.bare := by
  have table : recipe.bare.table = recipe.table.map Function.bare := by
    rw [recipe.table_eq]
    exact Function.tabulate_bare recipe.functions
  rw [function?, function?, table, List.find?_map]
  rfl

theorem orderViolations_bare : recipe.bare.orderViolations = recipe.orderViolations := by
  have inversion (names : String × String) : recipe.bare.inversion? names =
      recipe.inversion? names := by
    obtain ⟨earlier, later⟩ := names
    simp only [inversion?, function?_bare]
    cases recipe.function? earlier with
    | none => rfl
    | some first =>
        cases recipe.function? later with
        | none | some second => rfl
  simp only [orderViolations, funext inversion]

theorem duplicateViolations_bare : recipe.bare.duplicateViolations = recipe.duplicateViolations :=
  repeatedFunctions_bare [] recipe.functions

/-- Hollowing a script leaves its top level as it is. -/
theorem bare_hollow (script : Script) : (ofScript script.hollow).bare = (ofScript script).bare := by
  have shut (node : Node) (entered : node.isOpen = true) : node.isFunction = false := by
    cases node with
    | command it =>
        cases it with
        | function => cases entered
        | _ => rfl
    | _ => rfl
  have exposed : (Node.script script.hollow).exposed =
      (Node.script script).exposed.map Node.hollow := by
    rw [Node.exposed_eq_trail, Node.exposed_eq_trail, ← Node.trail_hollow Node.isOpen_hollow shut]
    rfl
  have assign : (fun node : Node => node.hollow.assign?.map Assign.bare) =
      fun node => node.assign?.map Assign.bare := by
    funext node
    cases node with
    | assign it =>
        obtain ⟨pos, name, index, append, value⟩ := it
        rfl
    | _ => rfl
  have function : (fun node : Node => node.hollow.function?.map Function.bare) =
      fun node => node.function?.map Function.bare := by
    funext node
    cases node with
    | command it => cases it <;> rfl
    | _ => rfl
  have comment : (fun node : Node => node.hollow.comment?) = Node.comment? := by
    funext node
    cases node <;> rfl
  simp only [bare, ofScript_assigns, ofScript_comments, ofScript_functions, exposed,
    List.filterMap_map, List.map_filterMap, Function.comp_def, assign, function, comment]

theorem substitutionViolations_hollow (script : Script) :
    (ofScript script.hollow).substitutionViolations = (ofScript script).substitutionViolations := by
  refine Node.collect_hollow (fun node => ?_) (fun node entered => ?_) (.script script)
  · cases node with
    | command it | part it => cases it <;> rfl
    | _ => rfl
  · cases node with
    | command it =>
        cases it with
        | function => cases entered
        | _ => rfl
    | _ => rfl

end Recipe

/-- The rules that check the top level of a recipe. -/
def Rule.topLevel : List Rule :=
  [.maintainer, .globalVariables, .globalSubstitutions, .metadataPlacement, .requiredMetadata,
    .functionOrder, .duplicateFunctions]

namespace Rule

variable {ε : Type} (read : MailboxReader ε)

theorem checkWith_bare {rule : Rule} (top : rule ∈ topLevel) (other : rule ≠ .globalSubstitutions)
    (recipe : Recipe) : rule.checkWith read recipe.bare = rule.checkWith read recipe := by
  cases rule with
  | maintainer => exact maintainerViolations_bare read recipe.comments recipe.assigns
  | globalVariables => exact congrArg Except.ok recipe.globalViolations_bare
  | globalSubstitutions => exact absurd rfl other
  | metadataPlacement => exact congrArg Except.ok recipe.placementViolations_bare
  | requiredMetadata => exact congrArg Except.ok recipe.metadataViolations_bare
  | functionOrder => exact congrArg Except.ok recipe.orderViolations_bare
  | duplicateFunctions => exact congrArg Except.ok recipe.duplicateViolations_bare
  | _ => simp [topLevel] at top

theorem checkWith_hollow {rule : Rule} (top : rule ∈ topLevel) (script : Script) :
    rule.checkWith read (.ofScript script.hollow) = rule.checkWith read (.ofScript script) := by
  by_cases other : rule = .globalSubstitutions
  · subst other
    exact congrArg Except.ok (Recipe.substitutionViolations_hollow script)
  · rw [← checkWith_bare read top other, Recipe.bare_hollow, checkWith_bare read top other]

/-- Scripts that differ in the bodies of their outermost functions only are the same to the rules
that check the top level, whatever reads mailboxes, and have the same global variables. -/
theorem check_eq_of_hollow {first second : Script} (same : first.hollow = second.hollow) :
    (∀ rule ∈ topLevel, rule.checkWith read (.ofScript first) =
      rule.checkWith read (.ofScript second)) ∧
      ∀ name, (Recipe.ofScript first).isGlobal name = (Recipe.ofScript second).isGlobal name := by
  refine ⟨fun rule top => ?_, fun name => ?_⟩
  · rw [← checkWith_hollow read top first, same, checkWith_hollow read top second]
  · rw [← Recipe.isGlobal_bare, ← Recipe.bare_hollow first, same, Recipe.bare_hollow second,
      Recipe.isGlobal_bare]

/-- A function that assigns a variable, and one that runs a substitution. -/
theorem check_eq_of_hollow_build : ∃ first second : Script,
    first =
      { name := ""
        items := [.stmt (.ofDraft ⟨1, 1⟩ (some (.function ⟨1, 1⟩ "build" (.ofDraft ⟨1, 9⟩
          (some (.call ⟨1, 9⟩ [⟨⟨1, 9⟩, "x", none, false, .empty⟩] [])) []) false)) [])] } ∧
    second =
      { name := ""
        items := [.stmt (.ofDraft ⟨1, 1⟩ (some (.function ⟨1, 1⟩ "build" (.ofDraft ⟨1, 9⟩
          (some (.call ⟨1, 9⟩ [] [⟨⟨1, 9⟩, [.substitution ⟨1, 9⟩ [] false]⟩])) []) false)) [])] } ∧
    first.hollow = second.hollow ∧
    ∀ rule ∈ topLevel, rule.check (.ofScript first) = rule.check (.ofScript second) := by
  refine ⟨_, _, rfl, rfl, ?same, (check_eq_of_hollow Mail.parse ?same).1⟩
  rfl

end Rule
end RecipeLint
