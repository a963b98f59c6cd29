import RecipeLint.Proofs.Assembly.Commands
import RecipeLint.Proofs.Braces
import RecipeLint.Proofs.Reports
import RecipeLint.Proofs.Selection

/-!
# Messages as lines

A violation speaks of names that are fixed, of names that are read from the recipe, or of the
mailbox of a person.  A name that is read has no newline.  So with a reader that refuses mailboxes
with newlines, as the usual one does, every message is one line, and a report about recipes has as
many lines as there are violations. -/

namespace RecipeLint

open Text (IsLine)

variable {node : Node} {violations : List Violation} {feature : String}

/-! ## Mailboxes -/

namespace Mail

/-- Signs without newlines make up a line. -/
theorem Sign.isLine_toString {signs : List Sign} (straight : ∀ sign ∈ signs, sign ≠ .char '\n') :
    IsLine (Sign.toString signs) := by
  intro member
  rw [Sign.toString, String.toList_ofList, Sign.toText, List.mem_filterMap] at member
  obtain ⟨sign, inside, newline⟩ := member
  cases sign with
  | char c =>
      cases newline
      exact straight _ inside rfl
  | octet => cases newline

theorem newline_not_mem_quotedText {text : List Char} (straight : '\n' ∉ text) :
    '\n' ∉ quotedText text := by
  have inside (c : Char) (member : c ∈ text) :
      '\n' ∉ if c = '"' || c = '\\' then ['\\', c] else [c] := by
    have other : '\n' ≠ c := fun same => straight (same ▸ member)
    split <;> simp [other]
  simpa [quotedText] using inside

namespace Mailbox

/-- The parts of a mailbox have no newlines. -/
structure IsStraight (mailbox : Mailbox) : Prop where
  displayName : IsLine mailbox.displayName
  username : IsLine mailbox.username
  domain : IsLine mailbox.domain

namespace IsStraight

variable {mailbox : Mailbox}

/-- A part that is written as it is or in quotation marks is a line. -/
theorem written {part : String} (straight : IsLine part) (quoted : Bool) :
    IsLine (String.ofList (if quoted then quotedText part.toList else part.toList)) := by
  rw [IsLine, String.toList_ofList]
  cases quoted with
  | false => exact straight
  | true => exact newline_not_mem_quotedText straight

theorem address (straight : mailbox.IsStraight) : IsLine mailbox.address :=
  ((written straight.username _).append (by decide)).append straight.domain

theorem text (straight : mailbox.IsStraight) : IsLine mailbox.text := by
  unfold Mailbox.text
  dsimp only
  split
  · exact straight.address
  · exact (((written straight.displayName _).append (by decide)).append straight.address).append
      (by decide)

end IsStraight
end Mailbox

theorem Entry.isStraight_mailbox {entry : Entry} {mailbox : Mailbox}
    (named : entry.mailbox = .ok mailbox) :
    mailbox.IsStraight := by
  have refuses {displayName username domain : List Sign}
    (named : (if (displayName ++ username ++ domain).any
      (·.holds fun c => c = '\r' || c = '\n') then Except.error Stop.refused
      else Except.ok ⟨Sign.toString displayName, Sign.toString username, Sign.toString domain⟩) =
        .ok mailbox) :
      mailbox.IsStraight := by
    split at named
    · cases named
    · next clear =>
        cases named
        have straight : ∀ sign ∈ displayName ++ username ++ domain, sign ≠ .char '\n' := by
          rintro _ member rfl
          exact clear (List.any_eq_true.mpr ⟨_, member, rfl⟩)
        obtain ⟨front, domain⟩ := List.forall_mem_append.mp straight
        obtain ⟨displayName, username⟩ := List.forall_mem_append.mp front
        exact ⟨Sign.isLine_toString displayName, Sign.isLine_toString username,
          Sign.isLine_toString domain⟩
  unfold Entry.mailbox at named
  dsimp only at named
  split at named
  all_goals
    obtain ⟨displayName, -, named⟩ := exists_of_bind_ok named
    split at named
    · split at named
      · exact refuses named
      · cases named
    · exact refuses named

theorem isStraight_soleMailbox? {listing : Listing Place} {mailbox : Mailbox}
    (sole : soleMailbox? listing = .ok (some mailbox)) : mailbox.IsStraight := by
  obtain ⟨places, run, sole⟩ := exists_of_bind_ok sole
  split at sole
  · split at sole <;> cases sole
    obtain ⟨place, -, named⟩ := exists_of_mem_mapM run _ (List.mem_singleton.mpr rfl)
    cases place with
    | junk =>
        cases named
        exact ⟨by decide, by decide, by decide⟩
    | entry entry =>
        obtain ⟨mailbox, named, same⟩ := exists_of_bind_ok named
        cases same
        exact Entry.isStraight_mailbox named
    | group name members trailed =>
        obtain ⟨_, -, named⟩ := exists_of_bind_ok named
        split at named
        · cases named
        · obtain ⟨_, -, named⟩ := exists_of_bind_ok named
          cases named
  · cases sole

/-- The mailboxes that a reader accepts have no newlines. -/
def ReadsStraight {ε : Type} (read : MailboxReader ε) : Prop :=
  ∀ text mailbox, read text = .ok (some mailbox) → mailbox.IsStraight

/-- A text with a newline in a part of it is no mailbox. -/
theorem readsStraight_parse : ReadsStraight parse := by
  intro text mailbox read
  unfold parse at read
  dsimp only at read
  split at read
  next run =>
    cases read
    obtain ⟨⟨listing, _⟩, -, sole⟩ := exists_of_bind_ok run
    exact isStraight_soleMailbox? sole
  next => cases read
  next => cases read

end Mail

/-! ## Names in violations -/

/-- The violation speaks of names without newlines. -/
def Violation.IsPlain (violation : Violation) : Prop :=
  ∀ name ∈ violation.names, IsLine name

theorem Node.Everywhere.of_reaches {holds : Node → Prop} {descent : Descent} {enters : Node → Bool}
    {root : Node}
    (everywhere : root.Everywhere holds) (reached : descent.Reaches enters root node) :
    node.Everywhere holds := by
  induction reached with
  | root => exact everywhere
  | next _ _ member ih => exact ih.child ((descent.next_sublist _).subset member)

theorem Node.Everywhere.exists_of_mem_collect {holds : Node → Prop} {descent : Descent} {α : Type}
    {visit : Node → Bool × List α} {root : Node} {value : α} (everywhere : root.Everywhere holds)
    (member : value ∈ descent.collect visit root) : ∃ node, node.Everywhere holds ∧
    value ∈ (visit node).2 := by
  rw [Descent.collect_eq_flatMap] at member
  obtain ⟨node, visited, found⟩ := List.mem_flatMap.mp member
  obtain ⟨_, only, reached⟩ := Descent.mem_trail.mp visited
  obtain rfl := List.mem_singleton.mp only
  exact ⟨node, everywhere.of_reaches reached, found⟩

/-! ## What each rule finds -/

section Reader

variable {ε : Type} {read : MailboxReader ε} (straight : Mail.ReadsStraight read)
include straight

theorem Comment.isPlain_credit {label : String} {comment : Comment} {outcome : Violation ⊕ Credit}
    (examined : comment.credit read label = .ok outcome) :
    outcome.elim Violation.IsPlain fun credit => IsLine credit.mailbox.text := by
  unfold Comment.credit at examined
  dsimp only at examined
  split at examined
  · cases examined
    exact List.forall_mem_nil _
  · split at examined
    · cases examined
      exact List.forall_mem_nil _
    · obtain ⟨mailbox, accepted, examined⟩ := exists_of_bind_ok examined
      cases mailbox <;> cases examined
      · exact List.forall_mem_nil _
      · exact (straight _ _ accepted).text

theorem Credits.isPlain_ofComments {label : String} {comments : List Comment} {credits : Credits}
    (examined : Credits.ofComments read label comments = .ok credits) :
    (∀ violation ∈ credits.violations, violation.IsPlain) ∧
      ∀ credit ∈ credits.credits, IsLine credit.mailbox.text := by
  obtain ⟨outcomes, run, same⟩ := exists_of_bind_ok examined
  cases same
  have plain (outcome : Violation ⊕ Credit) (member : outcome ∈ outcomes) :
      outcome.elim Violation.IsPlain fun credit => IsLine credit.mailbox.text := by
    obtain ⟨comment, -, credited⟩ := exists_of_mem_mapM run outcome member
    exact Comment.isPlain_credit straight credited
  constructor
  · intro violation member
    obtain ⟨outcome, inside, left⟩ := List.mem_filterMap.mp member
    obtain rfl := Sum.getLeft?_eq_some_iff.mp left
    exact plain _ inside
  · intro credit member
    obtain ⟨outcome, inside, right⟩ := List.mem_filterMap.mp member
    obtain rfl := Sum.getRight?_eq_some_iff.mp right
    exact plain _ inside

end Reader

theorem isPlain_maintainerCount (maintainers : List Comment) :
    ∀ violation ∈ maintainerCount maintainers, violation.IsPlain := by
  unfold maintainerCount
  split
  · exact List.forall_mem_singleton.mpr (List.forall_mem_nil _)
  · exact List.forall_mem_nil _
  · exact List.forall_mem_singleton.mpr (List.forall_mem_nil _)

theorem isPlain_maintainerPlace (assigns : List Assign) (contributors : List Credit)
    (maintainer : Comment) :
    ∀ violation ∈ maintainerPlace assigns contributors maintainer, violation.IsPlain := by
  refine List.forall_mem_append.mpr ⟨?_, List.forall_mem_map.mpr fun credit _ =>
    List.forall_mem_nil _⟩
  split
  · exact List.forall_mem_singleton.mpr (List.forall_mem_nil _)
  · exact List.forall_mem_nil _

theorem isPlain_repeatedCredits (seen : List String) {credits : List Credit}
    (straight : ∀ credit ∈ credits, IsLine credit.mailbox.text) :
    ∀ violation ∈ repeatedCredits seen credits, violation.IsPlain := by
  induction credits generalizing seen with
  | nil => exact List.forall_mem_nil _
  | cons credit credits ih =>
      obtain ⟨first, later⟩ := List.forall_mem_cons.mp straight
      unfold repeatedCredits
      dsimp only
      split
      · exact List.forall_mem_cons.mpr ⟨List.forall_mem_singleton.mpr first, ih _ later⟩
      · exact ih _ later

theorem isPlain_maintainerViolations {ε : Type} {read : MailboxReader ε}
    (straight : Mail.ReadsStraight read) {comments : List Comment} {assigns : List Assign}
    (found : maintainerViolations read comments assigns = .ok violations) :
    ∀ violation ∈ violations, violation.IsPlain := by
  obtain ⟨maintainers, named, found⟩ := exists_of_bind_ok found
  obtain ⟨contributors, others, found⟩ := exists_of_bind_ok found
  cases found
  obtain ⟨plain, lines⟩ := Credits.isPlain_ofComments straight others
  simp only [List.forall_mem_append]
  refine ⟨⟨⟨⟨(Credits.isPlain_ofComments straight named).1, plain⟩, isPlain_maintainerCount _⟩, ?_⟩,
    isPlain_repeatedCredits [] lines⟩
  cases (comments.filter (·.hasLabel maintainerLabel)).head? with
  | none => exact List.forall_mem_nil _
  | some maintainer => exact isPlain_maintainerPlace _ _ maintainer

theorem isPlain_braceViolations {source : List Char} {parts : List Part}
    (drawn : ∀ part ∈ parts, (Node.part part).Drawn source) :
    ∀ violation ∈ braceViolations parts, violation.IsPlain := by
  intro violation member
  obtain ⟨front, pos, name, back, rfl, -, -, rfl⟩ := exists_of_mem_braceViolations member
  have straight : IsLine name :=
    (drawn _ (List.mem_append_right front List.mem_cons_self)).here.straight name rfl
  exact List.forall_mem_cons.mpr ⟨straight, List.forall_mem_singleton.mpr straight⟩

theorem Assign.isPlain_misplaced? {assign : Assign} {first last : Function} {violation : Violation}
    (found : assign.misplaced? first last = some violation) (straight : IsLine assign.name) :
    violation.IsPlain := by
  have named : violation.names = [assign.name] := by
    unfold Assign.misplaced? at found
    split at found
    · split at found <;> cases found
      rfl
    · split at found <;> cases found
      rfl
    · cases found
  rw [Violation.IsPlain, named]
  exact List.forall_mem_singleton.mpr straight

theorem isPlain_repeatedFunctions (seen : List String) {functions : List Function}
    (straight : ∀ function ∈ functions, IsLine function.name) :
    ∀ violation ∈ repeatedFunctions seen functions, violation.IsPlain := by
  induction functions generalizing seen with
  | nil => exact List.forall_mem_nil _
  | cons function functions ih =>
      obtain ⟨first, later⟩ := List.forall_mem_cons.mp straight
      unfold repeatedFunctions
      dsimp only
      split
      · exact List.forall_mem_cons.mpr ⟨List.forall_mem_singleton.mpr first, ih _ later⟩
      · exact ih _ later

theorem Command.isLine_foreign? {command : Command} (foreign : command.foreign? = some feature) :
    IsLine feature := by
  have declares (declarator : Declarator) : IsLine declarator.text := by cases declarator <;> decide
  unfold Command.foreign? at foreign
  split at foreign
  · cases foreign
    decide
  · cases foreign
    decide
  · split at foreign <;> cases foreign
    exact declares _
  · split at foreign <;> cases foreign
    decide
  · split at foreign <;> cases foreign
    decide
  · cases foreign

theorem Part.isLine_foreign? {part : Part} (foreign : part.foreign? = some feature) :
    IsLine feature := by
  unfold Part.foreign? at foreign
  split at foreign <;> cases foreign <;> decide

theorem Node.isLine_foreign? (foreign : node.foreign? = some feature) :
    IsLine feature := by
  cases node with
  | command => exact Command.isLine_foreign? foreign
  | part => exact Part.isLine_foreign? foreign
  | _ => cases foreign

theorem Node.isPlain_commentViolations (node : Node) :
    ∀ violation ∈ node.commentViolations, violation.IsPlain := by
  unfold commentViolations
  split
  · split
    · exact List.forall_mem_nil _
    · split
      · exact List.forall_mem_nil _
      · exact List.forall_mem_singleton.mpr (List.forall_mem_nil _)
  · exact List.forall_mem_nil _

theorem Node.name?_of_target? {pos : Position} {name : String}
    (sets : node.target? = some (pos, name)) : node.name? = some name := by
  cases node with
  | assign =>
      cases sets
      rfl
  | range it =>
      cases it <;> cases sets
      rfl
  | _ => cases sets

namespace Recipe

variable (recipe : Recipe)

theorem isPlain_metadataViolations :
    ∀ violation ∈ recipe.metadataViolations, violation.IsPlain := by
  have fixed : ∀ name ∈ Metadata.requiredNames, IsLine name := by decide +kernel
  refine List.forall_mem_map.mpr fun name member => List.forall_mem_singleton.mpr ?_
  exact fixed name (List.mem_of_mem_filter member)

theorem isPlain_orderViolations : ∀ violation ∈ recipe.orderViolations, violation.IsPlain := by
  have fixed : ∀ pair ∈ orderedPairs lifecycle, IsLine pair.1 ∧ IsLine pair.2 := by decide +kernel
  intro violation member
  obtain ⟨⟨pos, _⟩, sorted, rfl⟩ := List.mem_map.mp member
  obtain ⟨⟨earlier, later⟩, listed, found⟩ := List.mem_filterMap.mp (List.mem_mergeSort.mp sorted)
  obtain ⟨first, -, found⟩ := Option.bind_eq_some_iff.mp found
  obtain ⟨second, -, found⟩ := Option.bind_eq_some_iff.mp found
  obtain ⟨front, back⟩ := fixed _ listed
  split at found <;> cases found
  exact List.forall_mem_cons.mpr ⟨back, List.forall_mem_singleton.mpr front⟩

end Recipe

section Drawn

variable {source : List Char} {script : Script} (drawn : (Node.script script).Drawn source)
include drawn

theorem Script.exists_of_mem_violations {check : Node → List Violation} {violation : Violation}
    (member : violation ∈ script.violations check) : ∃ node, node.Drawn source ∧
    violation ∈ check node :=
  drawn.exists_of_mem_collect member

theorem isLine_assign {assign : Assign} (member : assign ∈ (Recipe.ofScript script).assigns) :
    IsLine assign.name := by
  rw [Recipe.ofScript_assigns] at member
  obtain ⟨node, visited, is⟩ := List.mem_filterMap.mp member
  have below := drawn.of_reaches (Node.mem_visited.mp visited)
  cases node with
  | assign =>
      cases is
      exact below.here.straight _ rfl
  | _ => cases is

theorem drawn_function {function : Function}
    (member : function ∈ (Recipe.ofScript script).functions) :
    (Node.command (.function function.pos function.name function.body function.keyword)).Drawn
    source :=
  drawn.of_reaches (Recipe.mem_functions.mp member)

theorem isPlain_unusedViolations :
    ∀ violation ∈ (Recipe.ofScript script).unusedViolations, violation.IsPlain := by
  intro violation member
  rw [Recipe.unusedViolations_eq_trail] at member
  obtain ⟨assign, idle, rfl⟩ := List.mem_map.mp member
  obtain ⟨node, visited, is⟩ := List.mem_filterMap.mp (List.mem_of_mem_filter idle)
  obtain ⟨_, only, reached⟩ := Descent.mem_trail.mp visited
  obtain rfl := List.mem_singleton.mp only
  have below := drawn.of_reaches reached
  cases node with
  | assign =>
      cases is
      exact List.forall_mem_singleton.mpr (below.here.straight _ rfl)
  | _ => cases is

theorem isPlain_substitutionViolations :
    ∀ violation ∈ (Recipe.ofScript script).substitutionViolations, violation.IsPlain := by
  intro violation member
  obtain ⟨node, -, found⟩ := drawn.exists_of_mem_collect member
  split at found
  · cases found
  · obtain rfl := List.mem_singleton.mp found
    exact List.forall_mem_nil _
  · cases found

theorem isPlain_localViolations :
    ∀ violation ∈ (Recipe.ofScript script).localViolations, violation.IsPlain := by
  intro violation member
  obtain ⟨function, listed, found⟩ := List.mem_flatMap.mp member
  rcases Recipe.of_mem_behind (Recipe.mem_scopeViolations.mp found) with old | ⟨node, visited, pos,
    name, sets, -, rfl⟩
  · cases old
  · obtain ⟨_, only, reached⟩ := Descent.mem_trail.mp visited
    obtain rfl := List.mem_singleton.mp only
    have body : (Node.stmt function.body).Drawn source :=
      (drawn_function drawn listed).child (List.mem_singleton.mpr rfl)
    have straight := (body.of_reaches reached).here.straight name (Node.name?_of_target? sets)
    exact List.forall_mem_singleton.mpr straight

end Drawn

/-- In a recipe that is drawn from a source, every violation speaks of names without newlines. -/
theorem Rule.isPlain_check {ε : Type} {read : MailboxReader ε} (straight : Mail.ReadsStraight read)
    {source : List Char} {script : Script} (drawn : (Node.script script).Drawn source) {rule : Rule}
    (found : rule.checkWith read (.ofScript script) = .ok violations) :
    ∀ violation ∈ violations, violation.IsPlain := by
  cases rule with
  | maintainer => exact isPlain_maintainerViolations straight found
  | comments =>
      cases found
      intro violation member
      obtain ⟨node, -, found⟩ := Script.exists_of_mem_violations drawn member
      exact node.isPlain_commentViolations violation found
  | globalVariables =>
      cases found
      refine List.forall_mem_map.mpr fun assign member => List.forall_mem_singleton.mpr ?_
      exact isLine_assign drawn (List.mem_of_mem_filter member)
  | unusedVariables =>
      cases found
      exact isPlain_unusedViolations drawn
  | globalSubstitutions =>
      cases found
      exact isPlain_substitutionViolations drawn
  | localVariables =>
      cases found
      exact isPlain_localViolations drawn
  | paramExpansions =>
      cases found
      intro violation member
      obtain ⟨node, below, found⟩ := Script.exists_of_mem_violations drawn member
      exact isPlain_braceViolations (fun part inside => below.child (Node.part_mem_children inside))
        violation found
  | metadataPlacement =>
      cases found
      intro violation member
      unfold Recipe.placementViolations at member
      split at member
      · obtain ⟨assign, listed, found⟩ := List.mem_filterMap.mp member
        exact Assign.isPlain_misplaced? found (isLine_assign drawn listed)
      · cases member
  | requiredMetadata =>
      cases found
      exact Recipe.isPlain_metadataViolations _
  | functionOrder =>
      cases found
      exact Recipe.isPlain_orderViolations _
  | duplicateFunctions =>
      cases found
      exact isPlain_repeatedFunctions [] fun function listed =>
        (drawn_function drawn listed).here.straight _ rfl
  | bashisms =>
      cases found
      intro violation member
      obtain ⟨node, -, found⟩ := Script.exists_of_mem_violations drawn member
      obtain ⟨feature, foreign, rfl⟩ := List.mem_map.mp found
      exact List.forall_mem_singleton.mpr (Node.isLine_foreign? (Option.mem_toList.mp foreign))

theorem Linter.isPlain_lint {ε : Type} {mailbox : MailboxReader ε}
    (straight : Mail.ReadsStraight mailbox)
    {linter : Linter} {name : String} {text : List Char} {limit : NestingLimit} {recipe : Recipe}
    (read : Recipe.parse name text limit = .ok recipe)
    (run : linter.lintWith mailbox recipe = .ok violations) : ∀ violation ∈ violations,
    violation.IsPlain := by
  obtain ⟨findings, gathered, same⟩ := exists_of_bind_ok run
  cases same
  intro violation member
  obtain ⟨⟨rule, found⟩, listed, inside⟩ := List.mem_flatMap.mp member
  obtain ⟨_, -, checked⟩ := exists_of_mem_mapM gathered _ listed
  obtain ⟨_, checked, same⟩ := exists_of_bind_ok checked
  cases same
  unfold Recipe.parse at read
  cases parsed : Script.parse name text limit with
  | error =>
      rw [parsed] at read
      cases read
  | ok script =>
      rw [parsed] at read
      cases read
      exact Rule.isPlain_check straight (Script.parse_drawn parsed) checked violation inside

namespace Report

/-- A violation that some linter finds in some recipe with the given reader of mailboxes. -/
def IsFinding {ε : Type} (mailbox : MailboxReader ε) (violation : Violation) : Prop :=
  ∃ (linter : Linter) (name : String) (text : List Char) (limit : NestingLimit) (recipe : Recipe)
      (violations : List Violation),
    Recipe.parse name text limit = .ok recipe ∧ linter.lintWith mailbox recipe = .ok violations ∧
      violation ∈ violations

/-- Whatever is found is reported on one line each: the text that is written about recipes whose
names are lines has the lines of the violations in order, as many as are counted. -/
theorem addAll_findings {ε : Type} {mailbox : MailboxReader ε}
    (refused : Mail.ReadsStraight mailbox)
    {reports : List (String × List Violation)} (named : ∀ report ∈ reports, IsLine report.1)
    (findings : ∀ report ∈ reports, ∀ violation ∈ report.2, IsFinding mailbox violation) :
    (∀ report ∈ reports, ∀ violation ∈ report.2, IsLine violation.message) ∧
    (addAll {} reports).2.written = String.join ((linesAbout reports).map (· ++ "\n")) ∧
    Text.lines (addAll {} reports).2.written = linesAbout reports ∧
    (addAll {} reports).1.sum = (linesAbout reports).length ∧
    ((addAll {} reports).2.found = true ↔ 0 < (addAll {} reports).1.sum) := by
  have straight : ∀ report ∈ reports, ∀ violation ∈ report.2, IsLine violation.message := by
    intro report listed violation member
    obtain ⟨linter, name, text, limit, recipe, violations, read, run, found⟩ :=
      findings report listed violation member
    exact Violation.isLine_message (Linter.isPlain_lint refused read run violation found)
  refine ⟨straight, ?_, lines_addAll ?_, ?_, ?_⟩
  · rw [addAll_written, String.empty_append]
  · intro line member
    obtain ⟨⟨name, violations⟩, listed, inside⟩ := List.mem_flatMap.mp member
    obtain ⟨violation, found, rfl⟩ := List.mem_map.mp inside
    exact Violation.isLine_line (named _ listed) (straight _ listed violation found)
  · rw [addAll_counts, linesAbout_length]
  · rw [addAll_found, addAll_counts, Bool.false_or]
    exact any_filled_iff reports

/-- A variable that is not used is reported twice, once under a name that looks like a position. -/
theorem addAll_findings_unused : ∃ recipe violations,
    Recipe.parse "" "x=1".toList = .ok recipe ∧ (Linter.make [.unusedVariables] []).lint recipe =
      .ok violations ∧
    Text.lines (addAll {} [("a", violations), ("b:1", violations)]).2.written =
      ["a:1:1: Variable x is set but never used", "b:1:1:1: Variable x is set but never used"] := by
  have found : (Recipe.parse "" "x=1".toList).toOption.any (fun recipe =>
      ((Linter.make [.unusedVariables] []).lint recipe).toOption.any
        (· = [.found .variableUnused ⟨1, 1⟩ ["x"]])) = true := by
    decide +kernel
  obtain ⟨recipe, read, found⟩ := Recipe.exists_of_any found
  obtain ⟨violations, run, found⟩ := Recipe.exists_of_any found
  have findings : ∀ violation ∈ violations, IsFinding Mail.parse violation :=
    fun violation member => ⟨_, _, _, _, recipe, violations, read, run, member⟩
  have named : ∀ report ∈ [("a", violations), ("b:1", violations)], IsLine report.1 :=
    List.forall_mem_cons.mpr
      ⟨show IsLine "a" by decide, List.forall_mem_singleton.mpr (show IsLine "b:1" by decide)⟩
  have reported : ∀ report ∈ [("a", violations), ("b:1", violations)], ∀ violation ∈ report.2,
      IsFinding Mail.parse violation :=
    List.forall_mem_cons.mpr ⟨findings, List.forall_mem_singleton.mpr findings⟩
  refine ⟨recipe, violations, read, run, ?_⟩
  refine (addAll_findings Mail.readsStraight_parse named reported).2.2.1.trans ?_
  obtain rfl := of_decide_eq_true found
  decide +kernel

end Report
end RecipeLint
