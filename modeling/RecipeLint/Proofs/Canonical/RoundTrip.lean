import RecipeLint.Proofs.Canonical.Commands
import RecipeLint.Proofs.Nodes
import RecipeLint.Proofs.Termination

/-!
# Reading the canonical spelling

The canonical text of a list of the core language is read as the tree that it stands for, by
induction over the list and everything in it.  How deep constructs may lie in each other is limited,
so a text whose levels exceed the limit may be refused instead. -/

namespace RecipeLint

namespace Canonical

open Reading

variable {rounds : Nat} (layout : Layout)

theorem expands_level {depth : Nat} {word : Word} (shallow : word.levels ≤ depth)
    (positive : 0 < word.levels) :
    Expands rounds (.level rounds depth) := by
  obtain ⟨depth, rfl⟩ : ∃ less, depth = less + 1 := ⟨depth - 1, by omega⟩
  exact expands_around _

theorem levels_le_of_mem {depth : Nat} {words : List Word}
    (shallow : (words.map Word.levels).foldr max 0 ≤ depth)
    {word : Word} (member : word ∈ words) : word.levels ≤ depth :=
  Nat.le_trans (le_foldr_max (List.mem_map_of_mem member)) shallow

/-- A list lies one level further in than its elements. -/
theorem lists_level {depth : Nat} {forms : List (Form Stmt)} (positive : 0 < depth)
    (listed : ∀ less, depth = less + 1 → ∀ form ∈ forms, Listed rounds (.level rounds less) form) :
    Lists rounds (.level rounds depth) forms := by
  obtain ⟨less, rfl⟩ : ∃ less, depth = less + 1 := ⟨depth - 1, by omega⟩
  exact lists_around (listed less rfl) (Inner.level_rounds rounds less)

theorem Layout.gap_mem (place : Place) : layout.gap place ∈ gaps := by
  unfold gap
  split <;> decide

theorem Layout.margin_cases : layout.margin = [] ∨ layout.margin = [' '] := by
  unfold margin
  split
  · exact .inr rfl
  · exact .inl rfl

theorem Layout.exists_divides : ∃ mark space, layout.divider = mark ++ space ∧
    Divides mark space := by
  unfold divider
  split
  · exact ⟨_, _, rfl, .line⟩
  · exact ⟨_, _, rfl, .semicolon⟩

mutual

theorem Command.commanded {depth : Nat} (command : Command) (shallow : command.levels ≤ depth) :
    Commanded rounds (.level rounds depth) (command.form layout) := by
  have bounded := Inner.level_rounds rounds depth
  match command with
  | .call call =>
      refine commanded_call (fun positive => ?_) bounded
      obtain ⟨depth, rfl⟩ : ∃ less, depth = less + 1 := by
        rw [Command.levels] at shallow
        exact ⟨depth - 1, by omega⟩
      exact expands_around _
  | .block body =>
      rw [Command.levels] at shallow
      exact commanded_block bounded (lists_level (by omega) fun _ _ => items_listed body (by omega))
        (layout.gap_mem .block)
  | .subshell body =>
      rw [Command.levels] at shallow
      exact commanded_subshell bounded (lists_level (by omega) fun _ _ =>
        items_listed body (by omega))
        (layout.gap_mem .subshell)
  | .conditional condition consequence =>
      rw [Command.levels] at shallow
      exact commanded_conditional bounded (lists_level (by omega) fun _ _ =>
        items_listed condition (by omega))
        (layout.gap_mem .condition)
        (lists_level (by omega) fun _ _ => items_listed consequence (by omega))
        (layout.gap_mem .consequence)
        alternates_none
  | .choice condition consequence alternative =>
      rw [Command.levels] at shallow
      exact commanded_conditional bounded (lists_level (by omega) fun _ _ =>
        items_listed condition (by omega))
        (layout.gap_mem .condition)
        (lists_level (by omega) fun _ _ => items_listed consequence (by omega))
        (layout.gap_mem .consequence)
        (alternates_some (lists_level (by omega) fun _ _ => items_listed alternative (by omega))
          (layout.gap_mem .alternative))
  | .loop untilTrue condition body =>
      rw [Command.levels] at shallow
      exact commanded_loop untilTrue bounded (lists_level (by omega) fun _ _ =>
        items_listed condition (by omega))
        (layout.gap_mem .condition)
        (lists_level (by omega) fun _ _ => items_listed body (by omega)) (layout.gap_mem .body)
  | .iteration name words body =>
      rw [Command.levels] at shallow
      obtain ⟨mark, space, divider, divides⟩ := layout.exists_divides
      rw [Command.form, divider]
      exact commanded_iteration bounded
        (fun word member => expands_level (levels_le_of_mem (by omega) member)) divides
        (lists_level (by omega) fun _ _ => items_listed body (by omega)) (layout.gap_mem .body)
  | .case subject branches =>
      rw [Command.levels] at shallow
      exact commanded_case bounded (expands_level (by omega))
        (branches_itemized branches (by omega))
  | .function name ordinary body =>
      rw [Command.levels] at shallow
      obtain ⟨outer, same⟩ : ∃ less, depth = less + 1 := ⟨depth - 1, by omega⟩
      have block := commanded_block (Inner.level_rounds rounds outer)
        (lists_level (by omega) fun _ _ => items_listed body (by omega)) (layout.gap_mem .block)
      subst same
      exact commanded_function bounded ordinary block.opens block.reads

theorem Branch.itemized {depth : Nat} (branch : Branch) (shallow : branch.levels ≤ depth) :
    Itemized rounds (.level rounds depth) (branch.form layout) := by
  match branch with
  | .mk pattern further ordinary body =>
      rw [Branch.levels] at shallow
      exact itemized_branch (Inner.level_rounds rounds depth)
        (fun word member => expands_level (levels_le_of_mem (by omega) member))
        layout.margin_cases (ordinary pattern List.mem_cons_self)
        (lists_level (by omega) fun _ _ => items_listed body (by omega)) (layout.gap_mem .branch)

theorem Pipeline.piped {depth : Nat} (pipeline : Pipeline) (shallow : pipeline.levels ≤ depth) :
    Piped rounds (.level rounds depth) (pipeline.form layout) := by
  match pipeline with
  | .mk negated first further =>
      rw [Pipeline.levels] at shallow
      exact piped_of_pipes (Inner.level_rounds rounds depth) (first.commanded (by omega))
        (commands_commanded further (by omega)) negated

theorem Further.piped {depth : Nat} (further : Further) (shallow : further.levels ≤ depth) :
    ((further.form layout).1 = .both ∨ (further.form layout).1 = .either) ∧
      Piped rounds (.level rounds depth) (further.form layout).2 := by
  match further with
  | .mk both pipeline =>
      rw [Further.levels] at shallow
      refine ⟨?_, pipeline.piped shallow⟩
      cases both with
      | false => exact .inr rfl
      | true => exact .inl rfl

theorem Item.listed {depth : Nat} (item : Item) (shallow : item.levels ≤ depth) :
    Listed rounds (.level rounds depth) (item.form layout) := by
  match item with
  | .mk first further background =>
      rw [Item.levels] at shallow
      exact listed_of_logic (Inner.level_rounds rounds depth) (first.piped (by omega))
        (furthers_piped further (by omega)) background

theorem items_listed {depth : Nat} (items : List Item) (shallow : itemsLevels items ≤ depth) :
    ∀ form ∈ itemForms layout items, Listed rounds (.level rounds depth) form := by
  match items with
  | [] => exact nofun
  | item :: items =>
      rw [itemsLevels] at shallow
      rw [itemForms, List.forall_mem_cons]
      exact ⟨item.listed (by omega), items_listed items (by omega)⟩

theorem branches_itemized {depth : Nat} (branches : List Branch)
    (shallow : branchesLevels branches ≤ depth) :
    ∀ form ∈ branchForms layout branches, Itemized rounds (.level rounds depth) form := by
  match branches with
  | [] => exact nofun
  | branch :: branches =>
      rw [branchesLevels] at shallow
      rw [branchForms, List.forall_mem_cons]
      exact ⟨branch.itemized (by omega), branches_itemized branches (by omega)⟩

theorem commands_commanded {depth : Nat} (commands : List Command)
    (shallow : commandsLevels commands ≤ depth) :
    ∀ pair ∈ commandForms layout commands,
      pair.1 = .pipe ∧ Commanded rounds (.level rounds depth) pair.2 := by
  match commands with
  | [] => exact nofun
  | command :: commands =>
      rw [commandsLevels] at shallow
      rw [commandForms, List.forall_mem_cons]
      exact ⟨⟨rfl, command.commanded (by omega)⟩, commands_commanded commands (by omega)⟩

theorem furthers_piped {depth : Nat} (furthers : List Further)
    (shallow : furtherLevels furthers ≤ depth) :
    ∀ pair ∈ furtherForms layout furthers,
      (pair.1 = .both ∨ pair.1 = .either) ∧ Piped rounds (.level rounds depth) pair.2 := by
  match furthers with
  | [] => exact nofun
  | further :: furthers =>
      rw [furtherLevels] at shallow
      rw [furtherForms, List.forall_mem_cons]
      exact ⟨further.piped (by omega), furthers_piped furthers (by omega)⟩

end

/-- A text that is read up to its end is a script. -/
theorem parseWithin_of_reads {rounds depth : Nat} {text : List Char} {items : List RecipeLint.Item}
    (reads : Reads rounds ((Inner.level rounds depth).statements []) .start text [] items)
    (long : text.length < rounds) (name : String) :
    Script.parseWithin rounds depth name text = .ok { name, items } := by
  have whole : text = text ++ [] := (List.append_nil text).symm
  have run := reads (.ofText text .start) rfl rfl rfl whole (by rw [← whole]; exact long)
  have ended : ((ReadState.ofText text .start).skip text.length).cursor.rest = [] :=
    ReadState.skip_rest whole
  rw [Script.parseWithin_eq_conclude, run]
  change Script.conclude name (.ok (items, (ReadState.ofText text .start).skip text.length)) = _
  rw [Script.conclude, ended, List.head?_nil]
  simp only [ReadState.skip, ReadState.ofText, placeItems_nil]

/-- The canonical text is read as the tree that it stands for if enough levels are allowed for. -/
theorem parseWithin_form (name : String) (items : List Item) {rounds depth : Nat}
    (long : (form layout items).text.length < rounds) (deep : itemsLevels items < depth) :
    Script.parseWithin rounds depth name (form layout items).text =
      .ok { name, items := (form layout items).tree .start } := by
  have lists : Lists rounds (.level rounds depth) (itemForms layout items) :=
    lists_level (by omega) fun _ _ => items_listed layout items (by omega)
  exact parseWithin_of_reads (lists [] [] .start [] (by decide) .finish) long name

end Canonical

/-- Reading within a limit comes to what reading with more levels does, unless constructs lie too
deep. -/
theorem Script.parse_of_parseWithin {name : String} {text : List Char} {limit : NestingLimit}
    {script : Script}
    {deeper : Nat} (read : parseWithin (text.length + 1) (limit.levels + deeper) name text =
      .ok script) :
    parse name text limit = .ok script ∨ ∃ pos, parse name text limit = .error ⟨.tooDeep, pos⟩ := by
  obtain ⟨depth, levels⟩ := limit.levels_eq
  have twins : Bounds.shallow.Twins text.length (Inner.level (text.length + 1) (depth + 1))
      (Inner.level (text.length + 1) (depth + deeper + 1)) :=
    Bounds.level_shallow (by omega) (by omega)
  rw [parse, levels]
  rw [levels, Nat.add_right_comm] at read
  rcases parseWithin_matches (fun _ => id) twins with ⟨matched, -⟩ | ⟨⟨_, pos⟩, rfl, tooDeep⟩
  · exact .inl (matched.symm.trans read)
  · exact .inr ⟨pos, tooDeep⟩

/-! ## The main result -/

/-- Reading inverts the canonical spelling of the core language: the text of every list is read as
the tree that it stands for, unless its constructs lie too deep in each other for the limit. -/
theorem Script.parse_canonical (name : String) (layout : Canonical.Layout)
    (items : List Canonical.Item) (limit : NestingLimit) :
    parse name (Canonical.form layout items).text limit =
        .ok { name, items := (Canonical.form layout items).tree .start } ∨
      limit.levels ≤ Canonical.itemsLevels items ∧
        ∃ pos, parse name (Canonical.form layout items).text limit = .error ⟨.tooDeep, pos⟩ := by
  by_cases shallow : Canonical.itemsLevels items < limit.levels
  · exact .inl (Canonical.parseWithin_form layout name items (Nat.lt_succ_self _) shallow)
  · have deep := Canonical.parseWithin_form layout name items (Nat.lt_succ_self _)
      (Nat.lt_of_lt_of_le (Nat.lt_succ_self _)
        (Nat.le_add_left (Canonical.itemsLevels items + 1) limit.levels))
    exact (parse_of_parseWithin deep).imp_right fun tooDeep => ⟨Nat.le_of_not_lt shallow, tooDeep⟩

/-! ## Constructs that lie too deep -/

namespace Reading

variable {α β : Type} {rounds : Nat} {text : List Char} {cause : Cause}

/-- The reading fails in front of the text for the given reason. -/
def Fails (rounds : Nat) (reading : Reading α) (text : List Char) (cause : Cause) : Prop :=
  ∀ state : ReadState, state.awaited = [] → state.comments = [] → state.cursor.rest = text →
    text.length < rounds → ∃ pos, reading state = .error ⟨cause, pos⟩

namespace Fails

theorem bind {reading : Reading α} (fails : Fails rounds reading text cause)
    (next : α → Reading β) :
    Fails rounds (reading >>= next) text cause := by
  intro state awaited comments shape enough
  obtain ⟨pos, run⟩ := fails state awaited comments shape enough
  exact ⟨pos, bind_error run⟩

theorem map {reading : Reading α} (fails : Fails rounds reading text cause) (change : α → β) :
    Fails rounds (change <$> reading) text cause :=
  fails.bind fun value => Pure.pure (change value)

/-- A reading that takes the front of the text, before one that fails behind it. -/
theorem after {reading : Reading α} {next : α → Reading β} {front : List Char}
    {value : Position → α} (reads : ∀ pos, Reads rounds reading pos front text (value pos))
    (fails : ∀ pos, Fails rounds (next (value pos)) text cause) :
    Fails rounds (reading >>= next) (front ++ text) cause := by
  intro state awaited comments shape enough
  have run := reads _ state awaited comments rfl shape enough
  have fewer : text.length < rounds := by
    rw [List.length_append] at enough
    omega
  rw [bind_ok run]
  exact fails _ _ awaited comments (ReadState.skip_rest shape) fewer

/-- A loop whose first round fails. -/
theorem iterate {step : α → Reading (Round α β)} {value : α} {fuel : Nat} (positive : 0 < fuel)
    (fails : Fails rounds (step value) text cause) :
    Fails rounds (Reading.iterate step fuel value) text cause := by
  obtain ⟨fuel, rfl⟩ : ∃ less, fuel = less + 1 := ⟨fuel - 1, by omega⟩
  exact fails.bind _

end Fails

end Reading

namespace Canonical

open Reading

variable {rounds : Nat} {inner : Inner} {text : List Char} {cause : Cause}

/-- A block fails if the list in it does. -/
theorem command_fails (fails : Fails rounds (inner.statements ["\x7d"]) ('\n' :: text) cause) :
    Fails rounds (command inner) ('{' :: '\n' :: text) cause := by
  have block : Fails rounds (block inner) ('{' :: '\n' :: text) cause := by
    intro state awaited comments shape enough
    unfold Reading.block
    rw [here_bind, skip_bind]
    have split : state.cursor.rest = ['{'] ++ '\n' :: text := shape
    exact fails.bind _ _ awaited comments (ReadState.skip_rest split) (Nat.lt_of_succ_lt enough)
  intro state awaited comments shape enough
  have member : "\x7b" ∈ compoundWords := by decide
  obtain ⟨double, single, found⟩ := compound?_keyword "\x7b" member (.line _) shape
  have compound : ∃ pos, compound? inner state = .error ⟨cause, pos⟩ := by
    unfold compound?
    rw [cursor_bind, double, if_neg Bool.false_ne_true, if_neg single, found]
    exact block.map some state awaited comments shape enough
  obtain ⟨pos, run⟩ := compound
  refine ⟨pos, ?_⟩
  unfold command
  rw [skipBlanks_bind, ReadState.skipBlanks_of_isTight (by rw [shape]; rfl), here_bind]
  exact bind_error run

/-- A list fails if the block in front of it does. -/
theorem statementRound_fails {stops : List String} {items : List RecipeLint.Item}
    (fails : Fails rounds (inner.statements ["\x7d"]) ('\n' :: text) cause) :
    Fails rounds (statementRound inner stops items) ('{' :: '\n' :: text) cause := by
  intro state awaited comments shape enough
  have tight : isTight state.cursor.rest = true := by rw [shape]; rfl
  have opens : Opens ("\x7b".toList ++ '\n' :: text) := opens_keyword (by decide) (.line _)
  obtain ⟨pos, run⟩ := command_fails fails state awaited comments shape enough
  have pipeline : pipeline inner state = .error ⟨cause, pos⟩ := by
    rw [pipeline_of_pipes tight (by rw [shape]; rfl)]
    exact bind_error run
  have statement : statement inner items state = .error ⟨cause, pos⟩ :=
    bind_error (bind_error pipeline)
  rw [Reading.statementRound_statement tight comments (opens.starts state.cursor shape)]
  exact ⟨pos, bind_error statement⟩

/-- The command `a`. -/
def plainItem : Item :=
  let program : Text := ⟨['a'], by decide, by decide⟩
  let call : Call :=
    { assigns := []
      args := [program.word]
      filled := .inr (List.cons_ne_nil _ _)
      ordinary := by
        rintro word ⟨⟩ text ⟨⟩
        decide }
  .mk (.mk false (.call call) []) [] false

/-- The layout with as many lines as there can be. -/
def Layout.spacious : Layout :=
  fun _ => true

/-- Blocks in each other around a list. -/
def nested (items : List Item) : Nat → List Item
  | 0 => items
  | count + 1 => [.mk (.mk false (.block (nested items count)) []) [] false]

theorem nested_text (items : List Item) (count : Nat) :
    (form .spacious (nested items (count + 1))).text =
      '{' :: '\n' :: ((form .spacious (nested items count)).text ++ ['}', '\n']) := by
  simp [form, nested, itemForms, Item.form, Pipeline.form, Command.form, commandForms, furtherForms,
    Form.lines, Form.sequence, Form.background, Form.joined, Form.negated, Form.enclosed,
    Form.list, Form.behind,
    Layout.gap, Layout.spacious]

/-- The innermost of the blocks lies too deep. -/
theorem statements_fails (items : List Item) (stops : List String) (depth count : Nat)
    (deep : depth ≤ count)
    {lead : List Char} (leads : lead = [] ∨ lead = ['\n']) (back : List Char) :
    Fails rounds ((Inner.level rounds depth).statements stops)
      (lead ++ ((form .spacious (nested items count)).text ++ back)) .tooDeep := by
  induction depth generalizing count stops lead back with
  | zero => exact fun state _ _ _ _ => ⟨state.cursor.position, rfl⟩
  | succ depth ih =>
      obtain ⟨count, rfl⟩ : ∃ less, count = less + 1 := ⟨count - 1, by omega⟩
      have round (items' : List RecipeLint.Item) :
          Fails rounds (statementRound (.level rounds depth) stops items')
            ((form .spacious (nested items (count + 1))).text ++ back) .tooDeep := by
        have inside := ih ["\x7d"] count (by omega) (.inr rfl) (['}', '\n'] ++ back)
        rw [nested_text, List.cons_append, List.cons_append, List.append_assoc]
        exact statementRound_fails inside
      have loop (fuel : Nat) (more : 1 < fuel) :
          Fails rounds (iterate (statementRound (.level rounds depth) stops) fuel [])
            (lead ++ ((form .spacious (nested items (count + 1))).text ++ back)) .tooDeep := by
        rcases leads with rfl | rfl
        · exact (round []).iterate (by omega)
        · obtain ⟨fuel, rfl⟩ : ∃ less, fuel = less + 1 := ⟨fuel - 1, by omega⟩
          exact .after (fun _ => statementRound_newline) fun _ => (round []).iterate (by omega)
      intro state awaited comments shape enough
      have long : 1 < rounds := by
        rw [nested_text] at enough
        simp only [List.length_append, List.length_cons] at enough
        omega
      rw [Inner.level_statements]
      exact loop rounds long state awaited comments shape enough

end Canonical

/-- Blocks that lie in each other up to the limit are refused. -/
theorem Script.parse_nested (name : String) (items : List Canonical.Item) {limit : NestingLimit}
    {count : Nat} (deep : limit.levels ≤ count) :
    ∃ pos, parse name (Canonical.form .spacious (Canonical.nested items count)).text limit =
      .error ⟨.tooDeep, pos⟩ := by
  have fails := Canonical.statements_fails items [] limit.levels count deep (.inl rfl) []
    (.ofText (Canonical.form .spacious (Canonical.nested items count)).text .start) rfl rfl
    (List.append_nil _).symm (by rw [List.nil_append, List.append_nil]; exact Nat.lt_succ_self _)
  obtain ⟨pos, run⟩ := fails
  refine ⟨pos, ?_⟩
  rw [parse, parseWithin_eq_conclude, run]
  rfl

/-- A command in four thousand blocks is not read as the tree that it stands for. -/
theorem Script.parse_canonical_nested :
    parse "<unknown>"
      (Canonical.form .spacious (Canonical.nested [Canonical.plainItem] 4000)).text ≠
      .ok { name := "<unknown>"
            items := (Canonical.form .spacious (Canonical.nested [Canonical.plainItem] 4000)).tree
              .start } := by
  have deep : NestingLimit.usual.levels ≤ 4000 := by decide
  obtain ⟨pos, tooDeep⟩ := parse_nested "<unknown>" [Canonical.plainItem] deep
  rw [tooDeep]
  nofun

end RecipeLint
