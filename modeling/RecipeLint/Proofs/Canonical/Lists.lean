import RecipeLint.Proofs.Canonical.Calls

/-!
# Reading canonical lists

How keywords are recognised, and how lists of statements are read up to the text that closes them.
Pipelines and logical operators join what they stand between, from the left.
-/

namespace RecipeLint

namespace Canonical

open Reading

variable {rounds : Nat} {pos : Position} {back : List Char} {inner : Inner} {stops : List String}
  {c : Char} {blank text : List Char} {items : List RecipeLint.Item} {form : Form Stmt}

/-! ## Keywords -/

/-- The words that open, divide and close lists. -/
def keywords : List String :=
  listTerminators ++ compoundWords ++ ["in"]

section Keyword

variable {keyword : String} {cursor : Cursor}

theorem atWord_iff_of_keyword (member : keyword ∈ keywords) (ends : EndsToken back)
    (shape : cursor.rest = keyword.toList ++ back) {word : String} (among : word ∈ keywords) :
    cursor.atWord word = true ↔ word = keyword := by
  have inside : ∀ word ∈ keywords, ∀ c ∈ word.toList, c ∉ wordDelimiters := by decide
  have delimits : ∀ c ∈ tokenEnds, c ∈ wordDelimiters := by decide
  have apart : ∀ c ∈ back.head?, c ∉ word.toList := fun c head within =>
    inside word among c within (delimits c (tokenEnds_of_endsToken ends c head))
  rw [Cursor.atWord_iff shape (inside keyword member) apart, String.toList_inj, and_iff_left]
  obtain ⟨c, head, member⟩ := ends
  rw [Option.mem_def.mp head, Option.all_some, List.contains_iff_mem]
  exact delimits c (List.mem_append_left ['('] member)

theorem find?_atWord_keyword (keyword : String) (member : keyword ∈ keywords)
    (ends : EndsToken back) (shape : cursor.rest = keyword.toList ++ back) {words : List String}
    (among : ∀ word ∈ words, word ∈ keywords) (inside : keyword ∈ words) :
    words.find? cursor.atWord = some keyword := by
  have only {word : String} (found : words.find? cursor.atWord = some word) : word = keyword :=
    (atWord_iff_of_keyword member ends shape (among word (List.mem_of_find?_eq_some found))).mp
      (List.find?_some found)
  cases found : words.find? cursor.atWord with
  | none =>
      have here := (atWord_iff_of_keyword member ends shape (among keyword inside)).mpr rfl
      exact absurd here (List.find?_eq_none.mp found keyword inside)
  | some word => rw [only found]

theorem tight_keyword (member : keyword ∈ keywords) (back : List Char) :
    isTight (keyword.toList ++ back) = true := by
  have first : ∀ word ∈ keywords, word.toList ≠ [] ∧ isTight word.toList = true := by decide
  obtain ⟨filled, tight⟩ := first keyword member
  rwa [isTight, List.head?_append_of_ne_nil _ filled]

theorem expectWord_reads (member : keyword ∈ keywords) (ends : EndsToken back) :
    Reads rounds (expectWord keyword) pos keyword.toList back () := by
  refine .tight (tight_keyword member back) (.cursor fun cursor shape => ?_)
  rw [if_pos ((atWord_iff_of_keyword member ends shape member).mpr rfl), ← String.length_toList]
  exact .skipped _

end Keyword

/-! ## Gaps between tokens -/

/-- What may separate two tokens, in front of the second one. -/
structure Gap (gap back : List Char) : Prop where
  spaces : gap = [] ∨ gap = [' '] ∨ gap = ['\n']
  tight : isTight back = true
  solid : ∀ c ∈ back.head?, c ∉ ['\n', '#']

theorem linebreaks_reads {gap : List Char} (gaps : Gap gap back) (bounded : inner.rounds = rounds) :
    Reads rounds (linebreaks inner) pos gap back () := by
  have ended {pos : Position} {blank : List Char} (spaces : blank = [] ∨ blank = [' ']) :
      Runs rounds (linebreakRound inner) () pos blank back () := by
    have last : Reads rounds (linebreakRound inner ()) pos (blank ++ []) back (.done ()) := by
      refine .skipBlanks ⟨spaces, gaps.tight⟩ (.current ?_)
      have solid := gaps.solid
      rw [List.nil_append]
      generalize back.head? = head at solid ⊢
      split
      · exact absurd (by decide) (solid '\n' rfl)
      · exact absurd (by decide) (solid '#' rfl)
      · exact .pure _
    rw [List.append_nil] at last
    exact .done last
  unfold linebreaks
  rw [bounded]
  refine Runs.iterate ?_
  rcases gaps.spaces with rfl | rfl | rfl
  · exact ended (.inl rfl)
  · exact ended (.inr rfl)
  · have first : Reads rounds (linebreakRound inner ()) pos ['\n'] ([] ++ back) (.again ()) :=
      .tight rfl (.current (.bindLast (.newline inner) (.pure _)))
    exact .again (List.cons_ne_nil _ _) first (ended (.inl rfl))

/-! ## Lists of statements -/

/-- A statement starts in front of a text. -/
structure Opens (text : List Char) : Prop where
  tight : isTight text = true
  starts : ∀ cursor : Cursor, cursor.rest = text → startsStatement cursor = true

/-- The text closes a list up to one of `stops`. -/
inductive Closes (stops : List String) : List Char → Prop
  | finish : Closes stops []
  | item (back : List Char) : Closes stops (';' :: ';' :: back)
  | parenthesis (member : ")" ∈ stops) (back : List Char) : Closes stops (')' :: back)
  | keyword {keyword : String} (terminates : keyword ∈ listTerminators) (member : keyword ∈ stops)
      {back : List Char} (ends : EndsToken back) : Closes stops (keyword.toList ++ back)

theorem closesCaseItem_of_ne (other : c ≠ ';') (text : List Char) :
    closesCaseItem (c :: text) = false := by
  simp [closesCaseItem, List.isPrefixOf, other.symm]

/-- What a round of a list does in front of a word. -/
theorem statementRound_word {result : Round (List RecipeLint.Item) (List RecipeLint.Item)}
    (spaces : blank = [] ∨ blank = [' ']) (tight : isTight (text ++ back) = true)
    (open' : closesCaseItem (text ++ back) = false) (head : (text ++ back).head? = some c)
    (other : c ∉ ['\n', '#', ')'])
    (later : Reads rounds (do
      match ← wordAt? listTerminators with
      | some word =>
          if stops.contains word then
            return .done items.reverse
          else
            fail (.unexpectedWord word)
      | none => return .again (← statement inner items)) (pos.along blank) text back result) :
    Reads rounds (statementRound inner stops items) pos (blank ++ text) back result := by
  refine .skipBlanks ⟨spaces, tight⟩ ?_
  refine .bind (.takeComments items) (.rest ?_)
  rw [open', if_neg Bool.false_ne_true]
  refine .current ?_
  generalize (text ++ back).head? = next at head
  split
  · cases head
  case h_5 => exact later
  all_goals cases head
  all_goals exact absurd (by decide) other

/-- A list of statements is complete in front of what closes it. -/
theorem statementRound_closes (spaces : blank = [] ∨ blank = [' ']) (closes : Closes stops back) :
    Reads rounds (statementRound inner stops items) pos blank back (.done items.reverse) := by
  suffices last : Reads rounds (statementRound inner stops items) pos (blank ++ []) back
      (.done items.reverse) by rwa [List.append_nil] at last
  cases closes with
  | finish =>
      refine .skipBlanks ⟨spaces, rfl⟩ ?_
      exact .bind (.takeComments items) (.rest (.current (.pure _)))
  | item back =>
      refine .skipBlanks ⟨spaces, rfl⟩ ?_
      exact .bind (.takeComments items) (.rest (.pure _))
  | parenthesis member back =>
      refine .skipBlanks ⟨spaces, rfl⟩ ?_
      refine .bind (.takeComments items) (.rest (.current ?_))
      simp only [List.nil_append, List.head?_cons, List.contains_iff_mem, member, if_true]
      exact .pure _
  | @keyword keyword terminates member back ends =>
      have known : ∀ word ∈ listTerminators, word ∈ keywords := by decide
      have starts : ∀ word ∈ listTerminators, word.toList.head?.any
        (['\n', '#', ')', ';'].contains ·) = false ∧
          word.toList ≠ [] := by decide
      obtain ⟨first, filled⟩ := starts keyword terminates
      obtain ⟨c, rest, written⟩ := List.exists_cons_of_ne_nil filled
      have other : c ∉ ['\n', '#', ')', ';'] := by simpa [written] using first
      have head : (keyword.toList ++ back).head? = some c := by rw [written]; rfl
      refine statementRound_word spaces (tight_keyword (known keyword terminates) back) ?_ head
        (fun inside => other (List.mem_append_left [';'] inside)) (.wordAt fun cursor shape => ?_)
      · rw [List.nil_append, written]
        exact closesCaseItem_of_ne (fun same => other (by rw [same]; decide)) _
      · rw [find?_atWord_keyword keyword (known keyword terminates) ends shape known terminates]
        simp only [List.contains_iff_mem, member, if_true]
        exact .pure _

/-- The form is read as an element of a list. -/
structure Listed (rounds : Nat) (inner : Inner) (form : Form Stmt) : Prop where
  opens : ∀ back, Opens (form.text ++ '\n' :: back)
  reads : ∀ items pos back,
    Reads rounds (statement inner items) pos form.text ('\n' :: back)
      (.stmt (form.tree pos) :: items)

theorem Listed.filled (listed : Listed rounds inner form) : form.text ≠ [] := by
  intro empty
  have starts := (listed.opens []).starts ⟨['\n'], 0, .start⟩ (by rw [empty]; rfl)
  simp [startsStatement] at starts

/-- A round of a list reads a statement where one starts. -/
theorem statementRound_opens {more : List RecipeLint.Item}
    (opens : Opens (text ++ back)) (spaces : blank = [] ∨ blank = [' '])
    (reads : Reads rounds (statement inner items) (pos.along blank) text back more) :
    Reads rounds (statementRound inner stops items) pos (blank ++ text) back (.again more) := by
  obtain ⟨tight, starts⟩ := opens
  have facts (cursor : Cursor) (shape : cursor.rest = text ++ back) := starts cursor shape
  simp only [startsStatement, Bool.and_eq_true, Bool.not_eq_true', List.all_eq_true,
    Option.any_eq_true] at facts
  obtain ⟨⟨closes, c, head, ordinary⟩, -⟩ := facts ⟨_, 0, .start⟩ rfl
  refine statementRound_word spaces tight closes head (by simpa using ordinary)
    (.wordAt fun cursor shape => ?_)
  have none : listTerminators.find? cursor.atWord = none := by
    rw [List.find?_eq_none]
    intro word member
    simp [(facts cursor shape).2 word member]
  rw [none]
  exact .bindLast reads (.pure _)

theorem statementRound_newline :
    Reads rounds (statementRound inner stops items) pos ['\n'] back (.again items) := by
  refine .tight rfl ?_
  exact .bind (.takeComments items) (.rest (.current (.bindLast (.newline inner) (.pure _))))

/-- Elements on lines of their own, up to what closes the list. -/
theorem runs_lines {forms : List (Form Stmt)} (listed : ∀ form ∈ forms, Listed rounds inner form)
    (closes : Closes stops back) (spaces : blank = [] ∨ blank = [' ']) :
    Runs rounds (statementRound inner stops) items pos (blank ++ (Form.lines forms).text) back
      (items.reverse ++ (Form.lines forms).tree (pos.along blank)) := by
  induction forms generalizing pos blank items with
  | nil =>
      simp only [Form.lines, List.map_nil, Form.sequence, List.append_nil]
      exact .done (statementRound_closes spaces closes)
  | cons form forms ih =>
      have later : Runs rounds (statementRound inner stops)
        (.stmt (form.tree (pos.along blank)) :: items)
          ((pos.along (blank ++ form.text)).along ['\n']) (Form.lines forms).text back _ :=
        ih (fun other member => listed other (List.mem_cons_of_mem form member)) (.inl rfl)
      have first : Reads rounds (statementRound inner stops items) pos (blank ++ form.text)
          (['\n'] ++ (Form.lines forms).text ++ back)
          (.again (.stmt (form.tree (pos.along blank)) :: items)) :=
        statementRound_opens ((listed form List.mem_cons_self).opens _) spaces
          ((listed form List.mem_cons_self).reads items _ _)
      have filled : blank ++ form.text ≠ [] :=
        List.append_ne_nil_of_right_ne_nil _ (listed form List.mem_cons_self).filled
      have whole :=
        Runs.again filled first (.again (List.cons_ne_nil _ _) statementRound_newline later)
      have text : blank ++ (Form.lines (form :: forms)).text =
          (blank ++ form.text) ++ (['\n'] ++ (Form.lines forms).text) := by
        simp only [Form.lines, List.map_cons, Form.sequence, List.append_assoc]
      have tree : items.reverse ++ (Form.lines (form :: forms)).tree (pos.along blank) =
          (Item.stmt (form.tree (pos.along blank)) :: items).reverse ++
            (Form.lines forms).tree ((pos.along (blank ++ form.text)).along ['\n']) := by
        simp only [Form.lines, List.map_cons, Form.sequence, List.reverse_cons, List.append_assoc,
          Position.along_append, List.cons_append, List.nil_append]
      rw [text, tree]
      exact whole

/-- What may stand between the text that opens a list and its first element. -/
def leads : List (List Char) :=
  [[], [' '], ['\n']]

/-- The level inside reads the elements as a list. -/
def Lists (rounds : Nat) (inner : Inner) (forms : List (Form Stmt)) : Prop :=
  ∀ stops lead pos back, lead ∈ leads → Closes stops back →
    Reads rounds (inner.statements stops) pos (Form.list lead forms).text back
      ((Form.list lead forms).tree pos)

theorem lists_around {forms : List (Form Stmt)} (listed : ∀ form ∈ forms, Listed rounds inner form)
    (bounded : inner.rounds = rounds) : Lists rounds inner.around forms := by
  intro stops lead pos back member closes
  have runs : Runs rounds (statementRound inner stops) [] pos (lead ++ (Form.lines forms).text) back
      ([] ++ (Form.lines forms).tree (pos.along lead)) := by
    have cases' : lead = [] ∨ lead = [' '] ∨ lead = ['\n'] := by simpa [leads] using member
    rcases cases' with rfl | rfl | rfl
    · exact runs_lines listed closes (.inl rfl)
    · exact runs_lines listed closes (.inr rfl)
    · exact .again (List.cons_ne_nil _ _) statementRound_newline
        (runs_lines listed closes (.inl rfl))
  have reads := runs.iterate
  rw [← bounded] at reads
  rw [← bounded]
  exact reads

/-! ## Joined statements -/

variable {further : List (Connective × Form Stmt)} {first : Form Stmt} {ending : Ending}

namespace Ending

/-- What follows the first of the statements that are joined in front of the ending. -/
def next (ending : Ending) : List (Connective × Form Stmt) → Ending
  | [] => ending
  | (connective, _) :: _ => .joint connective

/-- The text behind the first statement and its blank. -/
def joins (ending : Ending) : List (Connective × Form Stmt) → List Char
  | [] => []
  | (connective, second) :: further =>
      connective.text.toList ++
        ([' '] ++ (second.text ++ ((ending.next further).blank ++ ending.joins further)))

theorem exists_joins (ending : Ending) (further : List (Connective × Form Stmt))
    (back : List Char) :
    ∃ behind, ending.joins further ++ (ending.text ++ back) = (ending.next further).text ++
      behind := by
  cases further with
  | nil => exact ⟨back, rfl⟩
  | cons pair further =>
      obtain ⟨connective, second⟩ := pair
      refine ⟨second.text ++ ((ending.next further).blank ++ ending.joins further) ++
        (ending.text ++ back), ?_⟩
      simp only [joins, next, text, List.append_assoc]

/-- Whether a pipe follows. -/
def isPipe : Ending → Bool
  | .joint .pipe | .joint .pipeAll => true
  | _ => false

end Ending

theorem joined_text (ending : Ending) (first : Form Stmt)
    (further : List (Connective × Form Stmt)) :
    (Form.joined first further).text ++ ending.blank =
      (first.text ++ (ending.next further).blank) ++ ending.joins further := by
  induction further generalizing first with
  | nil => rw [Form.joined, Ending.next, Ending.joins, List.append_nil]
  | cons pair further ih =>
      obtain ⟨connective, second⟩ := pair
      rw [Form.joined, ih]
      simp only [Ending.next, Ending.joins, Ending.blank, List.append_assoc]

/-- Joined statements begin with the first one, followed by a blank or nothing. -/
theorem exists_joined_text (first : Form Stmt) (further : List (Connective × Form Stmt)) :
    ∃ more, (Form.joined first further).text = first.text ++ more ∧
    (more = [] ∨ more.head? = some ' ') := by
  induction further generalizing first with
  | nil => exact ⟨[], (List.append_nil _).symm, .inl rfl⟩
  | cons pair further ih =>
      obtain ⟨connective, second⟩ := pair
      obtain ⟨more, text, -⟩ := ih
        { text := first.text ++ ([' '] ++ (connective.text.toList ++ ([' '] ++ second.text)))
          tree := fun pos => Reading.joined connective (first.tree pos)
            (second.tree ((((pos.along first.text).along [' ']).along connective.text.toList).along
              [' '])) }
      refine ⟨[' '] ++ (connective.text.toList ++ ([' '] ++ second.text)) ++ more, ?_, .inr rfl⟩
      rw [Form.joined, text]
      simp only [List.append_assoc]

/-- A loop that joins statements from the left, one in every round. -/
theorem runs_joined {step : Stmt → Reading (Round Stmt Stmt)} (allowed : Ending → Prop)
    (final : allowed ending) (inside : ∀ pair ∈ further, allowed (.joint pair.1))
    (ended : ∀ left pos, Reads rounds (step left) pos [] (ending.text ++ back) (.done left))
    (round : ∀ pair ∈ further, ∀ left pos next behind, allowed next →
      Reads rounds (step left) pos (pair.1.text.toList ++ ([' '] ++ (pair.2.text ++ next.blank)))
        (next.text ++ behind)
        (.again (joined pair.1 left (pair.2.tree ((pos.along pair.1.text.toList).along [' ']))))) :
    Runs rounds step (first.tree pos) (pos.along (first.text ++ (ending.next further).blank))
      (ending.joins further) (ending.text ++ back) ((Form.joined first further).tree pos) := by
  induction further generalizing first with
  | nil => exact .done (ended _ _)
  | cons pair further ih =>
      obtain ⟨connective, second⟩ := pair
      have later : Runs rounds step (joined connective (first.tree pos)
          (second.tree ((((pos.along first.text).along [' ']).along connective.text.toList).along
            [' '])))
          (pos.along
            ((first.text ++ ([' '] ++ (connective.text.toList ++ ([' '] ++ second.text)))) ++
            (ending.next further).blank)) (ending.joins further) (ending.text ++ back) _ :=
        @ih { text := first.text ++ ([' '] ++ (connective.text.toList ++ ([' '] ++ second.text)))
              tree := fun pos => joined connective (first.tree pos) (second.tree
                ((((pos.along first.text).along [' ']).along connective.text.toList).along [' '])) }
          (fun pair member => inside pair (List.mem_cons_of_mem _ member))
          (fun pair member => round pair (List.mem_cons_of_mem _ member))
      obtain ⟨behind, shape⟩ := ending.exists_joins further back
      have follows : allowed (ending.next further) := by
        cases further with
        | nil => exact final
        | cons pair further => exact inside pair (List.mem_cons_of_mem _ List.mem_cons_self)
      have once := round (connective, second) List.mem_cons_self (first.tree pos)
        (pos.along (first.text ++ [' '])) (ending.next further) behind follows
      rw [← shape] at once
      simp only [Position.along_append] at once later
      have filled : connective.text.toList ++
          ([' '] ++ (second.text ++ (ending.next further).blank)) ≠ [] := by
        simp
      have whole := Runs.again filled once (by simpa only [Position.along_append] using later)
      have text : ending.joins ((connective, second) :: further) = connective.text.toList ++
        ([' '] ++
          (second.text ++ (ending.next further).blank)) ++ ending.joins further := by
        simp only [Ending.joins, List.append_assoc]
      have blank : (ending.next ((connective, second) :: further)).blank = [' '] := rfl
      rw [Form.joined, text, blank, Position.along_append]
      exact whole

/-- The form is read as a command. -/
structure Commanded (rounds : Nat) (inner : Inner) (form : Form Stmt) : Prop where
  opens : ∀ back, EndsToken back → Opens (form.text ++ back)
  affirms : ∀ back, EndsToken back → negates (form.text ++ back) = false
  reads : ∀ (ending : Ending) pos back,
    Reads rounds (command inner) pos (form.text ++ ending.blank) (ending.text ++ back)
      (form.tree pos)

/-- The form is read as a pipeline. -/
structure Piped (rounds : Nat) (inner : Inner) (form : Form Stmt) : Prop where
  opens : ∀ back, EndsToken back → Opens (form.text ++ back)
  reads : ∀ (ending : Ending) pos back, ending.isPipe = false →
    Reads rounds (pipeline inner) pos (form.text ++ ending.blank) (ending.text ++ back)
      (form.tree pos)

theorem not_atWord_of_head {cursor : Cursor} (head : cursor.rest.head? = some c) {word : String}
    (filled : word.toList ≠ []) (other : word.toList.head? ≠ some c) :
    cursor.atWord word = false := by
  rw [← Bool.not_eq_true, Cursor.atWord, Bool.and_eq_true]
  rintro ⟨starts, -⟩
  obtain ⟨rest, shape⟩ := Cursor.rest_of_startsWith starts
  rw [shape, List.head?_append_of_ne_nil _ filled] at head
  exact other head

/-- A statement starts in front of a character that neither ends lists nor starts their keywords. -/
theorem opens_of_head (head : text.head? = some c)
    (blank : c ∉ [' ', '\t', '\r', '\\', '\n', '#', ')', ';'])
    (other : ∀ word ∈ listTerminators, word.toList.head? ≠ some c) : Opens text := by
  simp only [List.mem_cons, List.not_mem_nil, or_false, not_or] at blank
  refine ⟨by simp [isTight, head, blank], fun cursor shape => ?_⟩
  have filled : ∀ word ∈ listTerminators, word.toList ≠ [] := by decide
  have words (word : String) (member : word ∈ listTerminators) : cursor.atWord word = false :=
    not_atWord_of_head (by rw [shape, head]) (filled word member) (other word member)
  obtain ⟨rest, rfl⟩ := List.head?_eq_some_iff.mp head
  have open' : closesCaseItem (c :: rest) = false := closesCaseItem_of_ne blank.2.2.2.2.2.2.2 rest
  simp only [startsStatement, shape, open', List.head?_cons, Option.any_some, Bool.and_eq_true,
    List.all_eq_true]
  exact ⟨⟨rfl, by simp [blank]⟩, fun word member => by rw [words word member]; rfl⟩

theorem Opens.gap (opens : Opens text) : Gap [' '] text := by
  refine ⟨.inr (.inl rfl), opens.tight, fun c head member => ?_⟩
  have starts := opens.starts ⟨text, 0, .start⟩ rfl
  simp only [startsStatement, Bool.and_eq_true, Option.mem_def.mp head, Option.any_some] at starts
  have other : c ∉ ['\n', '#', ')'] := by simpa using starts.1.2
  exact other (List.mem_append_left [')'] member)

/-- What follows joined statements follows the first of them, or a blank does. -/
theorem EndsToken.joined {more : List Char} (ends : EndsToken back)
    (blank : more = [] ∨ more.head? = some ' ') :
    EndsToken (more ++ back) := by
  rcases blank with rfl | head
  · exact ends
  · exact ⟨' ', by rw [List.head?_append, head]; rfl, by decide⟩

theorem opens_joined (opens : ∀ back, EndsToken back → Opens (first.text ++ back))
    (further : List (Connective × Form Stmt)) (ends : EndsToken back) :
    Opens ((Form.joined first further).text ++ back) := by
  obtain ⟨more, text, blank⟩ := exists_joined_text first further
  rw [text, List.append_assoc]
  exact opens _ (ends.joined blank)

theorem join_reads {connective : Connective} {left : Stmt} {right : Reading Stmt}
    {next : Ending} (bounded : inner.rounds = rounds)
    (opens : Opens (form.text ++ (next.blank ++ (next.text ++ back))))
    (reads : Reads rounds right ((pos.along connective.text.toList).along [' '])
      (form.text ++ next.blank) (next.text ++ back)
      (form.tree ((pos.along connective.text.toList).along [' ']))) :
    Reads rounds (join inner left connective right) pos
      (connective.text.toList ++ ([' '] ++ (form.text ++ next.blank))) (next.text ++ back)
      (.again
        (joined connective left (form.tree ((pos.along connective.text.toList).along [' '])))) := by
  have gap := opens.gap
  rw [← List.append_assoc] at gap
  unfold join
  rw [← String.length_toList]
  exact .skip _ (.bind (linebreaks_reads gap bounded) (.bindLast reads (.pure _)))

/-! ## Pipelines -/

theorem pipe?_text (ending : Ending) (back : List Char) (other : ending.isPipe = false) :
    Connective.pipe? (ending.text ++ back) = none := by
  cases ending with
  | line | background => rfl
  | joint connective =>
      cases connective with
      | both | either => rfl
      | pipe | pipeAll => cases other

theorem pipelineRound_ends (other : ending.isPipe = false) (left : Stmt) (pos : Position) :
    Reads rounds (pipelineRound inner left) pos [] (ending.text ++ back) (.done left) := by
  refine .tight (ending.tight back) (.rest ?_)
  rw [List.nil_append, pipe?_text ending back other]
  exact .pure _

theorem pipelineRound_joins (bounded : inner.rounds = rounds)
    (good : Commanded rounds inner form) (left : Stmt) (pos : Position) (next : Ending)
    (back : List Char) :
    Reads rounds (pipelineRound inner left) pos
      (Connective.pipe.text.toList ++ ([' '] ++ (form.text ++ next.blank))) (next.text ++ back)
      (.again (joined .pipe left
        (form.tree ((pos.along Connective.pipe.text.toList).along [' '])))) := by
  have found (text : List Char) :
      Connective.pipe? (Connective.pipe.text.toList ++ ([' '] ++ text) ++ (next.text ++ back)) =
        some .pipe := rfl
  refine .tight rfl (.rest ?_)
  rw [found]
  exact join_reads bounded (good.opens _ (next.endsToken back)) (good.reads next _ back)

/-- A command can be read behind a blank as well. -/
theorem command_blank {stmt : Stmt} (tight : isTight (text ++ back) = true)
    (reads : Reads rounds (command inner) (pos.along [' ']) text back stmt) :
    Reads rounds (command inner) pos ([' '] ++ text) back stmt := by
  intro state awaited comments here shape enough
  have split : state.cursor.rest = [' '] ++ (text ++ back) := shape
  have behind : (state.skip 1).cursor.rest = text ++ back := ReadState.skip_rest split
  have same : command inner state = command inner (state.skip 1) := by
    unfold command
    rw [skipBlanks_bind, skipBlanks_bind, ReadState.skipBlanks_of_space shape tight,
      ReadState.skipBlanks_of_isTight (by rw [behind]; exact tight)]
  rw [same, List.length_append, ReadState.skip_add]
  refine reads _ awaited comments ?_ behind (Nat.lt_of_succ_lt enough)
  rw [← here]
  exact ReadState.skip_position split

theorem pipes_reads (bounded : inner.rounds = rounds) (start : Commanded rounds inner first)
    (commands : ∀ pair ∈ further, pair.1 = .pipe ∧ Commanded rounds inner pair.2)
    (spaces : blank = [] ∨ blank = [' ']) (other : ending.isPipe = false) :
    Reads rounds (pipes inner) pos (blank ++ ((Form.joined first further).text ++ ending.blank))
      (ending.text ++ back) ((Form.joined first further).tree (pos.along blank)) := by
  obtain ⟨behind, shape⟩ := ending.exists_joins further back
  have head : Reads rounds (command inner)
    pos (blank ++ (first.text ++ (ending.next further).blank))
      (ending.joins further ++ (ending.text ++ back)) (first.tree (pos.along blank)) := by
    rw [shape]
    rcases spaces with rfl | rfl
    · exact start.reads _ pos behind
    · have opens := start.opens _ ((ending.next further).endsToken behind)
      rw [← List.append_assoc] at opens
      exact command_blank opens.tight (start.reads _ _ behind)
  have runs : Runs rounds (pipelineRound inner) (first.tree (pos.along blank))
      ((pos.along blank).along (first.text ++ (ending.next further).blank)) (ending.joins further)
      (ending.text ++ back) ((Form.joined first further).tree (pos.along blank)) := by
    refine runs_joined (fun _ => True) trivial (fun _ _ => trivial)
      (pipelineRound_ends other) ?_
    rintro ⟨connective, second⟩ member left pos next behind -
    obtain ⟨rfl, good⟩ := commands _ member
    exact pipelineRound_joins bounded good left pos next behind
  rw [joined_text, ← List.append_assoc]
  have loop := runs.iterate
  rw [← Position.along_append, ← bounded] at loop
  rw [← bounded] at head ⊢
  exact .bind head loop

theorem piped_of_pipes (bounded : inner.rounds = rounds) (start : Commanded rounds inner first)
    (commands : ∀ pair ∈ further, pair.1 = .pipe ∧ Commanded rounds inner pair.2) (negated : Bool) :
    Piped rounds inner (.negated negated (.joined first further)) := by
  cases negated with
  | false =>
      refine ⟨fun back ends => opens_joined start.opens further ends,
        fun ending pos back other => ?_⟩
      have opens := opens_joined start.opens further (ending.endsToken back)
      obtain ⟨more, text, blank⟩ := exists_joined_text first further
      have affirms := start.affirms _ ((ending.endsToken back).joined blank)
      rw [← List.append_assoc, ← text] at affirms
      rw [← List.append_assoc] at affirms opens
      refine .tight opens.tight (.here (.rest ?_))
      show Reads rounds
        (if negates ((Form.joined first further).text ++ ending.blank ++ (ending.text ++ back))
          then _ else _) _ _ _ _
      rw [affirms]
      exact pipes_reads bounded start commands (.inl rfl) other
  | true =>
      refine ⟨fun back _ => opens_of_head rfl (by decide) (by decide),
        fun ending pos back other => ?_⟩
      have yes (text : List Char) : negates ("! ".toList ++ text) = true := rfl
      refine .tight rfl (.here (.rest ?_))
      simp only [Form.negated, if_true, List.append_assoc, yes]
      exact .skip ['!'] (.bindLast (pipes_reads bounded start commands (.inr rfl) other) (.pure _))

/-! ## Elements of lists -/

theorem logicRound_joins (bounded : inner.rounds = rounds) {connective : Connective}
    (logical : connective = .both ∨ connective = .either) (good : Piped rounds inner form)
    (left : Stmt)
    (pos : Position) {next : Ending} (other : next.isPipe = false) (back : List Char) :
    Reads rounds (logicRound inner left) pos
      (connective.text.toList ++ ([' '] ++ (form.text ++ next.blank))) (next.text ++ back)
      (.again (joined connective left
        (form.tree ((pos.along connective.text.toList).along [' '])))) := by
  have found (text : List Char) :
      Connective.logical? (connective.text.toList ++ ([' '] ++ text) ++ (next.text ++ back)) =
        some connective := by
    rcases logical with rfl | rfl <;> rfl
  have tight (text : List Char) : isTight (connective.text.toList ++ ([' '] ++ text) ++
    (next.text ++ back)) =
      true := by
    rcases logical with rfl | rfl <;> rfl
  refine .tight (tight _) (.rest ?_)
  rw [found]
  exact join_reads bounded (good.opens _ (next.endsToken back)) (good.reads next _ back other)

/-- What ends an element of a list. -/
def lineEnding (background : Bool) : Ending :=
  if background then .background else .line

theorem logicRound_ends (background : Bool) (left : Stmt) (pos : Position) :
    Reads rounds (logicRound inner left) pos [] ((lineEnding background).text ++ back)
      (.done left) := by
  refine .tight ((lineEnding background).tight back) (.rest ?_)
  cases background <;> exact .pure _

theorem logic_reads (bounded : inner.rounds = rounds) (start : Piped rounds inner first)
    (pipelines : ∀ pair ∈ further, (pair.1 = .both ∨ pair.1 = .either) ∧ Piped rounds inner pair.2)
    (background : Bool) :
    Reads rounds (logic inner) pos ((Form.joined first further).text ++
      (lineEnding background).blank)
      ((lineEnding background).text ++ back) ((Form.joined first further).tree pos) := by
  have plain : (lineEnding background).isPipe = false := by cases background <;> rfl
  have inside : ∀ pair ∈ further, (Ending.joint pair.1).isPipe = false := by
    intro pair member
    rcases (pipelines pair member).1 with same | same <;> rw [same] <;> rfl
  obtain ⟨behind, shape⟩ := (lineEnding background).exists_joins further back
  have head : Reads rounds (pipeline inner) pos
      (first.text ++ ((lineEnding background).next further).blank)
      ((lineEnding background).joins further ++ ((lineEnding background).text ++ back))
      (first.tree pos) := by
    rw [shape]
    refine start.reads _ pos behind ?_
    cases further with
    | nil => exact plain
    | cons pair further => exact inside pair List.mem_cons_self
  have runs : Runs rounds (logicRound inner) (first.tree pos)
      (pos.along (first.text ++ ((lineEnding background).next further).blank))
      ((lineEnding background).joins further) ((lineEnding background).text ++ back)
      ((Form.joined first further).tree pos) :=
    runs_joined (fun ending => ending.isPipe = false) plain inside (logicRound_ends background)
      fun pair member left pos next behind other =>
        logicRound_joins bounded (pipelines pair member).1 (pipelines pair member).2
          left pos other behind
  have loop := runs.iterate
  rw [joined_text]
  rw [← bounded] at head loop ⊢
  exact .bind head loop

theorem statementEnd_reads (background : Bool) :
    Reads rounds statementEnd pos (if background then ['&'] else []) ('\n' :: back) background := by
  cases background with
  | false => exact .tight rfl (.rest (.current (.pure _)))
  | true => exact .tight rfl (.rest (.current (.bindLast (.skipped ['&']) (.pure _))))

/-- Pipelines joined by logical operators are an element of a list. -/
theorem listed_of_logic (bounded : inner.rounds = rounds) (start : Piped rounds inner first)
    (pipelines : ∀ pair ∈ further, (pair.1 = .both ∨ pair.1 = .either) ∧ Piped rounds inner pair.2)
    (background : Bool) : Listed rounds inner (.background background (.joined first further)) := by
  have split : (Form.background background (.joined first further)).text =
      ((Form.joined first further).text ++ (lineEnding background).blank) ++
        (if background then ['&'] else []) := by
    cases background <;> simp [Form.background, lineEnding, Ending.blank]
  refine ⟨fun back => ?_, fun items pos back => ?_⟩
  · rw [Form.background, List.append_assoc]
    refine opens_joined start.opens further ?_
    cases background with
    | false => exact .line _
    | true => exact .blank _
  · have read : Reads rounds (logic inner) pos
        ((Form.joined first further).text ++ (lineEnding background).blank)
        ((if background then ['&'] else []) ++ '\n' :: back)
        ((Form.joined first further).tree pos) := by
      cases background with
      | false => exact logic_reads bounded start pipelines false
      | true => exact logic_reads bounded start pipelines true
    rw [split]
    exact .bind read
      (.bind (.takeComments []) (.bindLast (statementEnd_reads background) (.pure _)))

end Canonical
end RecipeLint
