import RecipeLint.Proofs.Assembly.Commands
import RecipeLint.Proofs.Canonical.Expansions

/-!
# Nested brackets

Three readings look for a closing bracket behind a text that may hold brackets itself: extended
patterns, arithmetic expressions, which two parentheses close, and indexes of array elements.  Each
of them takes exactly a balanced text, so that a word of such a text between its brackets is read as
one part.  The patterns in a script are always balanced. -/

namespace RecipeLint

/-- A script of one command, which is a word of one part. -/
def Script.ofPart (name : String) (part : Part) : Script :=
  { name
    items :=
      [.stmt (.ofDraft .start (some (.call .start [] [{ pos := .start, parts := [part] }])) [])] }

namespace Canonical

open Reading

variable {rounds : Nat} {pos : Position} {inner : Inner} {text back : List Char}

/-! ## Scripts of one word -/

section Words

variable {c : Char} {part : Part} (mark : c = '*' ∨ c = '$')

include mark

/-- No keyword starts with the mark of a part. -/
theorem Simple.of_mark : Simple (c :: text) := by
  refine ⟨⟨c, text, rfl, by rcases mark with rfl | rfl <;> decide⟩,
    fun cursor shape keyword member => ?_⟩
  have others : ∀ keyword ∈ reserved, keyword.toList ≠ [] ∧ '*' ∉ keyword.toList ∧
      '$' ∉ keyword.toList := by decide
  rw [Cursor.atWord, Cursor.startsWith, shape, ← Bool.not_eq_true, Bool.and_eq_true,
    List.isPrefixOf_iff_prefix]
  rintro ⟨⟨rest, starts⟩, -⟩
  obtain ⟨d, letters, spelled⟩ := List.exists_cons_of_ne_nil (others keyword member).1
  rw [spelled, List.cons_append] at starts
  cases (List.cons.inj starts).1
  have free := (others keyword member).2
  rcases mark with rfl | rfl <;> simp [spelled] at free

theorem callRound_mark (special : part.literal? = none)
    (word : Reads rounds (Reading.word inner) pos (c :: text) [] { pos, parts := [part] }) :
    Reads rounds (callRound inner pos { assigns := [], args := [], redirects := [] })
      pos (c :: text) []
      (.again { assigns := [], args := [{ pos, parts := [part] }], redirects := [] }) := by
  have tight : isTight (c :: text ++ []) = true := by
    rw [List.append_nil]
    exact (Simple.of_mark mark).opens.tight
  have digit : Text.isDecimal '*' = false ∧ Text.isDecimal '$' = false := by decide
  have name : isNameStart '*' = false ∧ isNameStart '$' = false := by decide
  have literal : (RecipeLint.Word.mk pos [part]).literal? =
      none := by simp [RecipeLint.Word.literal?, special]
  refine @callRound_of_word _ pos [] _ _ _ [] _ _ c ⟨.inl rfl, tight⟩ ?_ rfl ?_ ?_ ?_ word
    (by simp [literal])
  · apply RedirectHead.starting?_eq_none
    rcases mark with rfl | rfl <;> simp [digit]
  · rcases mark with rfl | rfl <;> decide
  · rcases mark with rfl | rfl <;> decide
  · apply AssignHead.of?_eq_none
    rcases mark with rfl | rfl <;> simp [nameRun, name]

/-- A word that is read in one round is a script. -/
theorem parse_word (name : String) (limit : NestingLimit) (special : part.literal? = none)
    (round : ∀ {rounds : Nat} {inner : Inner}, inner.rounds = rounds →
      Reads rounds (wordRound inner.around wordDelimiters (.empty .start)) .start (c :: text) []
        (.again ((Pieces.empty .start).add part))) :
    Script.parse name (c :: text) limit = .ok (.ofPart name part) := by
  obtain ⟨depth, levels⟩ := limit.levels_eq
  have filled : c :: text ≠ [] := List.cons_ne_nil _ _
  have bounded : (Inner.level ((c :: text).length + 1) depth).around.rounds =
      (c :: text).length + 1 :=
    Inner.level_rounds _ _
  have word := word_of_part bounded filled (round bounded) rfl
  have call := call_of_round bounded filled (.inl (List.cons_ne_nil _ _))
    (callRound_mark mark special word)
  have simple : Simple (c :: text ++ []) := by
    rw [List.append_nil]
    exact .of_mark mark
  rw [Script.parse, levels]
  exact parseWithin_of_reads (statements_call bounded simple rfl call) (Nat.lt_succ_self _) name

end Words

/-! ## Extended patterns -/

theorem glob_reads (balanced : Balances '(' ')' 0 text) {mark : Char} :
    Reads rounds (Reading.glob mark) pos ([mark, '('] ++ (text ++ [')'])) back
      (.glob pos mark (String.ofList text)) := by
  have length : text.length + 1 = (text ++ [')']).length := by simp
  refine .here (.skip [mark, '('] (.rest ?_))
  rw [bracketEnd?_of_balances (by decide) balanced]
  simp only [length, List.append_assoc, List.take_left]
  exact .bindLast (.skipped _) (.pure _)

theorem wordRound_glob (balanced : Balances '(' ')' 0 text) :
    Reads rounds (wordRound inner wordDelimiters (.empty pos))
      pos (['*', '('] ++ (text ++ [')'])) back
      (.again ((Pieces.empty pos).add (.glob pos '*' (String.ofList text)))) := by
  refine .here (.rest ?_)
  simp only [List.cons_append, List.nil_append]
  rw [if_neg (by decide), if_neg (by simp), if_neg (by decide), if_pos (by simp)]
  exact .bindLast (glob_reads balanced) (.pure _)

/-! ## Arithmetic expressions -/

theorem arithmeticRound_pushes {c : Char} (plain : c ∉ ['$', '\x60', '"', '\\'])
    {opening : Position} {pieces : Pieces} {depth : Int} (further : depth = 0 → c ≠ ')') :
    Reads rounds (arithmeticRound inner opening "))" { pieces, depth }) pos [c] back
      (.again { pieces := pieces.push pos [c]
                depth := if c = '(' then depth + 1 else if c =
                  ')' then depth - 1 else depth }) := by
  simp only [List.mem_cons, List.not_mem_nil, or_false, not_or] at plain
  refine .here (.rest (.cursor fun cursor shape => ?_))
  have inside : (decide (depth = 0) && cursor.startsWith "))") = false := by
    by_cases outermost : depth = 0
    · simp [Cursor.startsWith, shape, List.isPrefixOf, Ne.symm (further outermost)]
    · simp [outermost]
  simp only [inside, plain, Bool.false_eq_true, if_false, decide_false, Bool.false_and]
  split
  · exact .bindLast (.skipped [c]) (.pure _)
  split
  · exact .bindLast (.skipped [c]) (.pure _)
  · exact .bindLast (.skipped [c]) (.pure _)

/-- The expression ends behind the text that closes all open parentheses: in front of that, the
depth is zero only where no parenthesis closes. -/
theorem runs_arithmetic {depth : Nat} (balances : Balances '(' ')' depth text)
    (plain : ∀ c ∈ text, c ∉ ['$', '\x60', '"', '\\']) {opening : Position} {pieces : Pieces} :
    Runs rounds (arithmeticRound inner opening "))") { pieces, depth } pos text (')' :: ')' :: back)
      (pieces.push pos text).finish := by
  induction text generalizing depth pos pieces with
  | nil =>
      cases balances_nil.mp balances
      have unchanged : (pieces.push pos []).finish = pieces.finish := by
        cases empty : pieces.run <;> simp [Pieces.push, Pieces.finish, Pieces.flush, empty]
      refine .done (.here (.rest (.cursor fun cursor shape => ?_)))
      have closed : cursor.startsWith "))" = true := by
        rw [Cursor.startsWith, shape]
        rfl
      rw [unchanged]
      simp only [closed, Int.natCast_zero, decide_true, Bool.and_self, if_true]
      exact .pure _
  | cons c text ih =>
      obtain ⟨first, later⟩ := List.forall_mem_cons.mp plain
      have taken {next : Nat} (further : (depth : Int) = 0 → c ≠ ')')
          (turned : (if c = '(' then (depth : Int) + 1 else if c = ')' then depth - 1 else depth) =
            next)
          (balances : Balances '(' ')' next text) :
          Runs rounds (arithmeticRound inner opening "))") { pieces, depth } pos ([c] ++ text)
            (')' :: ')' :: back)
            (pieces.push pos (c :: text)).finish := by
        have round : Reads rounds (arithmeticRound inner opening "))" { pieces, depth }) pos [c]
            (text ++ ')' :: ')' :: back) _ := arithmeticRound_pushes first further
        rw [turned] at round
        rw [← Pieces.push_push]
        exact .again (List.cons_ne_nil _ _) round (ih balances later)
      by_cases opens : c = '('
      · subst opens
        exact taken (fun _ => by decide) rfl ((balances_opening (by decide)).mp balances)
      by_cases closes : c = ')'
      · subst closes
        cases depth with
        | zero => exact absurd balances (not_balances_closing (by decide))
        | succ depth =>
            exact taken (by omega) (by simp) ((balances_closing (by decide)).mp balances)
      · exact taken (fun _ => closes) (by simp [opens, closes])
          ((balances_other opens closes).mp balances)

theorem wordRound_arithmetic (bounded : inner.rounds = rounds) (balanced : Balances '(' ')' 0 text)
    (plain : ∀ c ∈ text, c ∉ ['$', '\x60', '"', '\\']) :
    Reads rounds (wordRound inner.around wordDelimiters (.empty pos)) pos
      (['$', '(', '('] ++ (text ++ [')', ')'])) back
      (.again ((Pieces.empty pos).add
        (.arithmetic pos (literalParts (pos.along ['$', '(', '(']) text) false))) := by
  have finish (start : Position) : ((Pieces.empty start).push start text).finish =
      literalParts start text := by
    by_cases empty : text = []
    · simp [literalParts, Pieces.push, Pieces.finish, Pieces.flush, Pieces.empty, empty]
    · rw [Pieces.finish_push rfl empty, literalParts, if_neg empty]
      rfl
  have parts (start : Position) : Reads rounds (arithmeticParts inner "))")
    start (text ++ [')', ')']) back
      (literalParts start text) := by
    refine .here ?_
    rw [bounded, ← finish]
    exact .bind (runs_arithmetic balanced plain).iterate (.bindLast (.skipped [')', ')']) (.pure _))
  change Reads rounds _ pos ('$' :: '(' :: '(' :: (text ++ [')', ')'])) back _
  refine wordRound_expansion _ (.here (.rest ?_))
  simp only [List.cons_append, List.drop_one, List.tail_cons, List.head?_cons]
  rw [if_neg (by simp), if_neg (by simp), if_pos trivial, if_pos trivial]
  exact .skip ['$', '(', '('] (.bindLast (parts _) (.pure _))

/-! ## Indexes -/

theorem wordRound_index (bounded : inner.rounds = rounds) (array : Name)
    (balanced : Balances '[' ']' 0 text) (plain : ∀ c ∈ text, c ∉ ['\\', '\x60', '$']) :
    let start := pos.along (['$', '{'] ++ array.chars ++ ['['])
    Reads rounds (wordRound inner.around wordDelimiters (.empty pos)) pos
      ('$' :: '{' :: (array.chars ++ (['['] ++ (text ++ [']'] ++ ['}'])))) back
      (.again ((Pieces.empty pos).add (.braced pos .value (String.ofList array.chars)
        (some { pos := start, parts := literalParts start text }) none))) := by
  intro start
  let expansion : Expansion :=
    { question := .value, parameter := ⟨array.chars, .inl array.named⟩, sized := nofun,
      index := none, modifier := none }
  let first : Form (Option RecipeLint.Word) :=
    { text := ['['] ++ (text ++ [']'])
      tree := fun pos =>
        some { pos := pos.along ['['], parts := literalParts (pos.along ['[']) text } }
  have index (start : Position) : Reads rounds (optionalIndex inner) start first.text ('}' :: back)
      (first.tree start) :=
    .current (.map some (Expansion.index_reads balanced plain bounded))
  have braced : Reads rounds (Reading.braced inner) pos _ back _ :=
    expansion.braced_of_index bounded (by rintro c ⟨⟩; decide) index
  have tree : first.tree (pos.along expansion.head) =
      some { pos := start, parts := literalParts start text } := by
    rw [show start = (pos.along expansion.head).along ['['] from Position.along_append ..]
  rw [tree] at braced
  exact wordRound_braced braced

end Canonical

open Canonical

/-- Brackets are matched exactly. -/
theorem brackets_matched (limit : NestingLimit) :
    (∀ name text, Balances '(' ')' 0 text →
      Script.parse name ("*(".toList ++ text ++ ")".toList) limit =
      .ok (.ofPart name (.glob .start '*' (String.ofList text)))) ∧
    (∀ name text, Balances '(' ')' 0 text → (∀ c ∈ text, c ∉ ['$', '\x60', '"', '\\']) →
      Script.parse name ("$((".toList ++ text ++ "))".toList) limit =
        .ok (.ofPart name
          (.arithmetic .start (literalParts (Position.start.along "$((".toList) text) false))) ∧
    (∀ name (array : Name) text, Balances '[' ']' 0 text → (∀ c ∈ text, c ∉ ['\\', '\x60', '$']) →
      let opening := ['$', '{'] ++ array.chars ++ ['[']
      Script.parse name (opening ++ text ++ [']', '}']) limit =
        .ok (.ofPart name (.braced .start .value (String.ofList array.chars)
          (some ⟨Position.start.along opening,
            literalParts (Position.start.along opening) text⟩)
          none))) ∧
    ∀ name text script, Script.parse name text limit = .ok script → ∀ pos mark pattern,
      Node.part (.glob pos mark pattern) ∈ (Node.script script).preorder →
      Balances '(' ')' 0 pattern.toList := by
  refine ⟨?_, ?_, ?_, ?_⟩
  · intro name text balanced
    rw [List.append_assoc]
    exact parse_word (.inl rfl) name limit rfl fun _ => wordRound_glob balanced
  · intro name text balanced plain
    rw [List.append_assoc]
    exact parse_word (.inr rfl) name limit rfl fun bounded =>
      wordRound_arithmetic bounded balanced plain
  · intro name array text balanced plain opening
    have shape : opening ++ text ++ [']', '}'] =
        '$' :: '{' :: (array.chars ++ (['['] ++ (text ++ [']'] ++ ['}']))) := by simp [opening]
    rw [shape]
    exact parse_word (.inr rfl) name limit rfl fun bounded =>
      wordRound_index bounded array balanced plain
  · intro name text script read pos mark pattern member
    exact (Script.sourced_of_mem_preorder read member).matched pattern rfl

/-- Brackets side by side and brackets in brackets. -/
theorem brackets_matched_nested :
    Script.parse "recipe" ("*(".toList ++ "a(b|c)(d)".toList ++ ")".toList) =
      .ok (.ofPart "recipe" (.glob .start '*' (String.ofList "a(b|c)(d)".toList))) ∧
    Script.parse "recipe" ("$((".toList ++ "1+(2*(3))".toList ++ "))".toList) =
      .ok (.ofPart "recipe" (.arithmetic .start (literalParts ⟨1, 4⟩ "1+(2*(3))".toList) false)) ∧
    Script.parse "recipe" (['$', '{', 'a', '['] ++ "i[j]".toList ++ [']', '}']) =
      .ok (.ofPart "recipe" (.braced .start .value (String.ofList ['a'])
        (some { pos := ⟨1, 5⟩, parts := literalParts ⟨1, 5⟩ "i[j]".toList }) none)) ∧
    Balances '(' ')' 0 (String.ofList "a(b|c)(d)".toList).toList := by
  have pattern : Balances '(' ')' 0 "a(b|c)(d)".toList := bracketEnd?_balances (by decide)
    (show bracketEnd? '(' ')' 0 1 "a(b|c)(d))".toList = some 9 from rfl)
  have sum : Balances '(' ')' 0 "1+(2*(3))".toList := bracketEnd?_balances (by decide)
    (show bracketEnd? '(' ')' 0 1 "1+(2*(3)))".toList = some 9 from rfl)
  have index : Balances '[' ']' 0 "i[j]".toList := bracketEnd?_balances (by decide)
    (show bracketEnd? '[' ']' 0 1 "i[j]]".toList = some 4 from rfl)
  obtain ⟨globs, arithmetic, indexes, patterns⟩ := brackets_matched .usual
  have read := globs "recipe" _ pattern
  refine ⟨read, arithmetic _ _ sum (by decide), indexes _ ⟨['a'], rfl⟩ _ index (by decide),
    patterns _ _ _ read .start '*' _ (Node.mem_preorder.mpr ?_)⟩
  -- From the script through its statement, its command and its word to the pattern.
  exact .head rfl (.head _) (.head rfl (.head _) (.head rfl (.head _) (.head rfl (.head _) .root)))

end RecipeLint
