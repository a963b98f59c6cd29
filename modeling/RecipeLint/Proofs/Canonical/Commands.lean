import RecipeLint.Proofs.Canonical.Lists

/-!
# Reading canonical commands

Every kind of command is read as it stands if the lists in it are.  The keyword in front tells
compound commands apart; behind them nothing is redirected. -/

namespace RecipeLint

namespace Canonical

open Reading

variable {rounds : Nat} {pos : Position} {back : List Char} {inner : Inner} {keyword : String}
  {gap space mark : List Char} {forms : List (Form Stmt)} {words : List Word}

/-! ## The keyword in front -/

theorem compoundWords_known : ∀ word ∈ compoundWords, word ∈ keywords := by decide

theorem listTerminators_known : ∀ word ∈ listTerminators, word ∈ keywords := by decide

/-- The first character of a keyword that opens a command. -/
theorem exists_head_keyword (member : keyword ∈ compoundWords) :
    ∃ c rest, keyword.toList = c :: rest ∧ c ∉ ['\n', '#', ')', ';', '(', '!'] := by
  have heads : ∀ word ∈ compoundWords, word.toList ≠ [] ∧
      word.toList.head?.all (fun c => !(['\n', '#', ')', ';', '(', '!'].contains c)) =
        true := by decide
  obtain ⟨filled, other⟩ := heads keyword member
  obtain ⟨c, rest, written⟩ := List.exists_cons_of_ne_nil filled
  exact ⟨c, rest, written, by simpa [written] using other⟩

theorem opens_keyword (member : keyword ∈ compoundWords) (ends : EndsToken back) :
    Opens (keyword.toList ++ back) := by
  have known := compoundWords_known keyword member
  refine ⟨tight_keyword known back, fun cursor shape => ?_⟩
  obtain ⟨c, rest, written, other⟩ := exists_head_keyword member
  have apart : ∀ word ∈ compoundWords, word ∉ listTerminators := by decide
  have words (word : String) (terminates : word ∈ listTerminators) :
      cursor.atWord word = false := by
    rw [← Bool.not_eq_true, atWord_iff_of_keyword known ends shape
      (listTerminators_known word terminates)]
    rintro rfl
    exact apart word member terminates
  simp only [List.mem_cons, List.not_mem_nil, or_false, not_or] at other
  have open' : closesCaseItem (keyword.toList ++ back) = false := by
    rw [written]
    exact closesCaseItem_of_ne other.2.2.2.1 _
  have head : (keyword.toList ++ back).head? = some c := by rw [written]; rfl
  simp only [startsStatement, shape, open', head, Option.any_some,
    Bool.and_eq_true, List.all_eq_true]
  exact ⟨⟨rfl, by simp [other]⟩, fun word terminates => by rw [words word terminates]; rfl⟩

theorem negates_keyword (member : keyword ∈ compoundWords) (back : List Char) :
    negates (keyword.toList ++ back) = false := by
  obtain ⟨c, rest, written, other⟩ := exists_head_keyword member
  simp only [List.mem_cons, List.not_mem_nil, or_false, not_or] at other
  rw [written]
  simp [negates, List.isPrefixOf, Ne.symm other.2.2.2.2.2]

theorem startsWith_of_head {cursor : Cursor} {c : Char} (head : cursor.rest.head? = some c)
    (other : c ≠ '(') : cursor.startsWith "((" = false := by
  rw [← Bool.not_eq_true]
  intro starts
  obtain ⟨more, text⟩ := Cursor.rest_of_startsWith starts
  rw [text] at head
  cases head
  exact other rfl

/-- The keyword decides what is read. -/
theorem compound?_keyword (keyword : String) (member : keyword ∈ compoundWords)
    (ends : EndsToken back) {cursor : Cursor} (shape : cursor.rest = keyword.toList ++ back) :
    cursor.startsWith "((" = false ∧ cursor.current ≠ some '(' ∧
      compoundWords.find? cursor.atWord = some keyword := by
  obtain ⟨c, rest, written, other⟩ := exists_head_keyword member
  simp only [List.mem_cons, List.not_mem_nil, or_false, not_or] at other
  have head : cursor.rest.head? = some c := by rw [shape, written]; rfl
  refine ⟨startsWith_of_head head other.2.2.2.2.1, ?_,
    find?_atWord_keyword keyword (compoundWords_known keyword member) ends shape
      compoundWords_known member⟩
  rw [Cursor.current, head]
  simpa using other.2.2.2.2.1

/-- Behind a compound command nothing is redirected. -/
theorem commanded_of_compound {form : Form Stmt} {command : Position → RecipeLint.Command}
    (bounded : inner.rounds = rounds) (opens : ∀ back, EndsToken back → Opens (form.text ++ back))
    (affirms : ∀ back, EndsToken back → negates (form.text ++ back) = false)
    (tree : ∀ pos, form.tree pos = .ofDraft pos (some (command pos)) [])
    (reads : ∀ pos back, EndsToken back →
      Reads rounds (compound? inner) pos form.text back (some (command pos))) :
    Commanded rounds inner form := by
  refine ⟨opens, affirms, fun ending pos back => ?_⟩
  have ends := ending.endsToken back
  have last : Reads rounds (redirectRound inner []) (pos.along form.text) (ending.blank ++ [])
      (ending.text ++ back) (.done []) := by
    refine .skipBlanks (ending.blanks back) (.redirectAt ?_)
    rw [List.nil_append, ending.starting?_text]
    exact .pure _
  rw [List.append_nil] at last
  have loop := (Runs.done last).iterate
  have tight := (opens _ ends).tight
  rw [← List.append_assoc] at tight
  rw [tree]
  refine .tight tight (.here (.bind (reads pos _ ends) ?_))
  rw [← bounded] at loop ⊢
  exact .bindLast loop (.pure _)

/-! ## Lists in brackets -/

/-- What separates a list from the text that opens it. -/
def gaps : List (List Char) :=
  [[' '], ['\n']]

theorem endsToken_list (wide : gap ∈ gaps) (forms : List (Form Stmt)) (back : List Char) :
    EndsToken ((Form.list gap forms).text ++ back) := by
  have cases' : gap = [' '] ∨ gap = ['\n'] := by simpa [gaps] using wide
  rcases cases' with rfl | rfl
  · exact .blank _
  · exact .line _

theorem Lists.reads (lists : Lists rounds inner forms)
    (wide : gap ∈ gaps) {stops : List String} (closes : Closes stops back) (pos : Position) :
    Reads rounds (inner.statements stops) pos (Form.list gap forms).text back
      ((Form.list gap forms).tree pos) :=
  lists stops gap pos back (List.mem_cons_of_mem [] wide) closes

theorem commanded_block (bounded : inner.rounds = rounds) (lists : Lists rounds inner forms)
    (wide : gap ∈ gaps) :
    Commanded rounds inner (.enclosed '{' '}' .block (.list gap forms)) := by
  have member : "\x7b" ∈ compoundWords := by decide
  have ahead (back : List Char) : EndsToken ((Form.list gap forms).text ++ ['}'] ++ back) := by
    rw [List.append_assoc]
    exact endsToken_list wide forms _
  refine commanded_of_compound bounded (fun back _ => opens_keyword member (ahead back))
    (fun back _ => negates_keyword member _) (fun pos => rfl) fun pos back ends => ?_
  refine .cursor fun cursor shape => ?_
  obtain ⟨double, single, found⟩ := compound?_keyword "\x7b" member (ahead back) shape
  rw [double, if_neg Bool.false_ne_true, if_neg single, found]
  have closes : Closes ["\x7d"] ("\x7d".toList ++ back) := .keyword (by decide) (by decide) ends
  exact .map some (.here (.skip ['{'] (.bind (lists.reads wide closes _)
    (.bindLast (expectWord_reads (by decide) ends) (.pure _)))))

theorem commanded_subshell (bounded : inner.rounds = rounds)
    (lists : Lists rounds inner forms) (wide : gap ∈ gaps) :
    Commanded rounds inner (.enclosed '(' ')' .subshell (.list gap forms)) := by
  refine commanded_of_compound bounded (fun back _ => opens_of_head rfl (by decide) (by decide))
    (fun back _ => rfl) (fun pos => rfl) fun pos back ends => ?_
  refine .cursor fun cursor shape => ?_
  have double : cursor.startsWith "((" = false := by
    have cases' : gap = [' '] ∨ gap = ['\n'] := by simpa [gaps] using wide
    rw [Cursor.startsWith, shape]
    rcases cases' with rfl | rfl <;> rfl
  have single : cursor.current = some '(' := by
    rw [Cursor.current, shape]
    rfl
  rw [double, if_neg Bool.false_ne_true, if_pos single]
  have closes : Closes [")"] ([')'] ++ back) := .parenthesis (by decide) back
  refine .map some (.here (.skip ['('] (.bind (lists.reads wide closes _) (.current ?_))))
  exact .bindLast (.skipped [')']) (.pure _)

/-! ## Conditionals -/

/-- The form is read as what follows the consequence of a conditional. -/
structure Alternates (rounds : Nat) (inner : Inner) (form : Form (List RecipeLint.Item)) :
    Prop where
  closes : ∀ back, EndsToken back → Closes ["elif", "else", "fi"] (form.text ++ back)
  reads : ∀ pos back, EndsToken back →
    Reads rounds (alternative inner) pos form.text back (form.tree pos)

theorem alternates_none : Alternates rounds inner .noAlternative := by
  refine ⟨fun back ends => .keyword (by decide) (by decide) ends, fun pos back ends => ?_⟩
  refine .tight rfl (.here (.wordAt fun cursor shape => ?_))
  rw [find?_atWord_keyword "fi" (by decide) ends shape (by decide) (by decide)]
  exact .bindLast (.skipped "fi".toList) (.pure _)

theorem alternates_some (lists : Lists rounds inner forms)
    (wide : gap ∈ gaps) : Alternates rounds inner (.alternative (.list gap forms)) := by
  have terminates : "else" ∈ listTerminators := by decide
  have ahead (back : List Char) :
      EndsToken ((Form.list gap forms).text ++ "fi".toList ++ back) := by
    rw [List.append_assoc]
    exact endsToken_list wide forms _
  refine ⟨fun back ends => .keyword terminates (by decide) (ahead back), fun pos back ends => ?_⟩
  refine .tight rfl (.here (.wordAt fun cursor shape => ?_))
  rw [find?_atWord_keyword "else" (by decide) (ahead back) shape (by decide) (by decide)]
  have closes : Closes ["fi"] ("fi".toList ++ back) := .keyword (by decide) (by decide) ends
  exact .skip "else".toList (.bind (lists.reads wide closes _)
    (.bindLast (expectWord_reads (by decide) ends) (.pure _)))

theorem commanded_conditional {condition consequence : List (Form Stmt)}
    {alternative : Form (List RecipeLint.Item)} {gap' : List Char} (bounded : inner.rounds = rounds)
    (first : Lists rounds inner condition) (wide : gap ∈ gaps)
    (second : Lists rounds inner consequence) (wide' : gap' ∈ gaps)
    (third : Alternates rounds inner alternative) :
    Commanded rounds inner (.conditional (.list gap condition) (.list gap' consequence)
      alternative) := by
  have member : "if" ∈ compoundWords := by decide
  have ahead (back : List Char) : EndsToken ((Form.list gap condition).text ++
      ("then".toList ++ ((Form.list gap' consequence).text ++ alternative.text)) ++ back) := by
    rw [List.append_assoc]
    exact endsToken_list wide condition _
  refine commanded_of_compound bounded (fun back _ => opens_keyword member (ahead back))
    (fun back _ => negates_keyword member _) (fun pos => rfl) fun pos back ends => ?_
  refine .cursor fun cursor shape => ?_
  obtain ⟨double, single, found⟩ := compound?_keyword "if" member (ahead back) shape
  rw [double, if_neg Bool.false_ne_true, if_neg single, found]
  have behind : EndsToken ((Form.list gap' consequence).text ++ alternative.text ++ back) := by
    rw [List.append_assoc]
    exact endsToken_list wide' consequence _
  have closes : Closes ["then"]
      ("then".toList ++ ((Form.list gap' consequence).text ++ alternative.text) ++ back) := by
    rw [List.append_assoc]
    exact .keyword (by decide) (by decide) behind
  exact .map some (.here (.skip "if".toList (.bind (first.reads wide closes _)
    (.bind (expectWord_reads (by decide) behind)
      (.bind (second.reads wide' (third.closes back ends) _)
      (.bindLast (third.reads _ back ends) (.pure _)))))))

/-! ## Loops -/

theorem loopBody_reads (bounded : inner.rounds = rounds)
    (lists : Lists rounds inner forms) (wide : gap ∈ gaps) (spaces : space ∈ leads)
    (ends : EndsToken back) :
    Reads rounds (loopBody inner) pos (space ++ (Form.loopBody (.list gap forms)).text) back
      ((Form.loopBody (.list gap forms)).tree (pos.along space)) := by
  have ahead : Gap space ((Form.loopBody (.list gap forms)).text ++ back) := by
    refine ⟨by simpa [leads] using spaces, rfl, ?_⟩
    rintro c ⟨⟩
    decide
  have behind : EndsToken ((Form.list gap forms).text ++ "done".toList ++ back) := by
    rw [List.append_assoc]
    exact endsToken_list wide forms _
  have closes : Closes ["done"] ("done".toList ++ back) := .keyword (by decide) (by decide) ends
  exact .bind (linebreaks_reads ahead bounded) (.bind (expectWord_reads (by decide) behind)
    (.bind (lists.reads wide closes _) (.bindLast (expectWord_reads (by decide) ends) (.pure _))))

theorem commanded_loop {condition body : List (Form Stmt)} {gap' : List Char} (untilTrue : Bool)
    (bounded : inner.rounds = rounds) (first : Lists rounds inner condition) (wide : gap ∈ gaps)
    (second : Lists rounds inner body) (wide' : gap' ∈ gaps) :
    Commanded rounds inner (.loop untilTrue (.list gap condition) (.list gap' body)) := by
  have member : (if untilTrue then "until" else "while") ∈
      compoundWords := by cases untilTrue <;> decide
  have ahead (back : List Char) : EndsToken ((Form.list gap condition).text ++
      (Form.loopBody (.list gap' body)).text ++ back) := by
    rw [List.append_assoc]
    exact endsToken_list wide condition _
  have text (back : List Char) :
    (Form.loop untilTrue (.list gap condition) (.list gap' body)).text ++ back =
      (if untilTrue then "until" else "while").toList ++ ((Form.list gap condition).text ++
        (Form.loopBody (.list gap' body)).text ++ back) := List.append_assoc ..
  refine commanded_of_compound bounded (fun back _ => ?_) (fun back _ => ?_) (fun pos => rfl)
    fun pos back ends => ?_
  · rw [text]
    exact opens_keyword member (ahead back)
  · rw [text]
    exact negates_keyword member _
  refine .cursor fun cursor shape => ?_
  rw [text] at shape
  obtain ⟨double, single, found⟩ := compound?_keyword _ member (ahead back) shape
  rw [double, if_neg Bool.false_ne_true, if_neg single, found]
  have behind : EndsToken ((Form.list gap' body).text ++ "done".toList ++ back) := by
    rw [List.append_assoc]
    exact endsToken_list wide' body _
  have terminates : "do" ∈ listTerminators := by decide
  have closes : Closes ["do"] ((Form.loopBody (.list gap' body)).text ++ back) :=
    .keyword terminates (by decide) behind
  have read (keyword : String) : Reads rounds (loop inner keyword) pos
      (keyword.toList ++ ((Form.list gap condition).text ++ (Form.loopBody (.list gap' body)).text))
      back
      (.loop pos ((Form.list gap condition).tree (pos.along keyword.toList))
        ((Form.loopBody (.list gap' body)).tree
          ((pos.along keyword.toList).along (Form.list gap condition).text))
        (keyword = "until")) := by
    unfold loop
    rw [← String.length_toList]
    exact .here (.skip keyword.toList (.bind (first.reads wide closes _)
      (.bindLast (loopBody_reads bounded second wide' List.mem_cons_self ends) (.pure _))))
  cases untilTrue with
  | false => exact .map some (read "while")
  | true => exact .map some (read "until")

/-! ## Iterations -/

theorem rangeRound_reads {word : Word} {items : List RecipeLint.Word}
    (expands : 0 < word.levels → Expands rounds inner) (bounded : inner.rounds = rounds)
    (ends : EndsToken back) :
    Reads rounds (rangeRound inner items) pos ([' '] ++ word.form.text) back
      (.again (word.form.tree (pos.along [' ']) :: items)) := by
  obtain ⟨c, rest, written, begins⟩ := word.exists_head
  have other : c ∉ ['\n', ';', '#'] := Word.head_not_mem begins (by decide)
  have head : (word.form.text ++ back).head? = some c := by rw [written]; rfl
  refine .skipBlanks ⟨.inr rfl, word.tight back⟩ (.current ?_)
  rw [head, if_neg (by simpa using other)]
  exact .bindLast (word_reads expands bounded ends.endsWord) (.pure _)

theorem foldl_cons_eq {α : Type} (values items : List α) :
    values.foldl (fun items value => value :: items) items = values.reverse ++ items := by
  induction values generalizing items with
  | nil => rfl
  | cons value values ih => rw [List.foldl_cons, ih]; simp

/-- What ends the words of an iteration, and what separates it from the body. -/
inductive Divides : List Char → List Char → Prop
  | line : Divides [] ['\n']
  | semicolon : Divides [';'] [' ']

theorem Divides.exists_head (divides : Divides mark space) (back : List Char) :
    ∃ c rest, mark ++ (space ++ back) = c :: rest ∧ c ∈ ['\n', ';'] := by
  cases divides with
  | line => exact ⟨'\n', back, rfl, by decide⟩
  | semicolon => exact ⟨';', ' ' :: back, rfl, by decide⟩

theorem rangeWords_reads (bounded : inner.rounds = rounds)
    (expands : ∀ word ∈ words, 0 < word.levels → Expands rounds inner) {c : Char}
    (stop : c ∈ ['\n', ';']) :
    Reads rounds (rangeWords inner) pos ("in".toList ++ (Call.spaced words).text) (c :: back)
      (some ((Call.spaced words).tree (pos.along "in".toList))) := by
  have ended : EndsToken (c :: back) := ⟨c, rfl, List.mem_cons_of_mem ' ' stop⟩
  have runs : Runs rounds (rangeRound inner) [] (pos.along "in".toList)
    ((Call.spaced words).text ++ [])
      (c :: back) ((Call.spaced words).tree (pos.along "in".toList)) := by
    refine runs_sequence (fun items word => word :: items) (fun _ => True) EndsToken trivial
      (fun _ _ _ => trivial) ?_ ?_ ended ?_ ?_
    · intro form member
      obtain ⟨word, -, rfl⟩ := List.mem_map.mp member
      exact List.cons_ne_nil _ _
    · intro form member behind
      obtain ⟨word, -, rfl⟩ := List.mem_map.mp member
      exact .blank _
    · intro form member items pos behind _ follow
      obtain ⟨word, inside, rfl⟩ := List.mem_map.mp member
      exact rangeRound_reads (expands word inside) bounded follow
    · rw [foldl_cons_eq, List.append_nil]
      have tight : isTight (c :: back) = true ∧ c ∈ ['\n', ';', '#'] := by
        have among : ∀ c ∈ ['\n', ';'], c ∉ [' ', '\t', '\r', '\\'] ∧
            c ∈ ['\n', ';', '#'] := by decide
        exact ⟨by simpa [isTight] using (among c stop).1, (among c stop).2⟩
      have last :
        Reads rounds (rangeRound inner ((Call.spaced words).tree (pos.along "in".toList)).reverse)
          ((pos.along "in".toList).along (Call.spaced words).text) [] (c :: back)
          (.done ((Call.spaced words).tree (pos.along "in".toList)).reverse.reverse) := by
        refine .tight tight.1 (.current ?_)
        rw [List.nil_append, List.head?_cons, if_pos (by simpa using tight.2)]
        exact .pure _
      rw [List.reverse_reverse] at last
      exact .done last
  rw [List.append_nil] at runs
  have loop := runs.iterate
  have ends : EndsToken ((Call.spaced words).text ++ c :: back) := endsToken_spaced ended
  refine .cursor fun cursor shape => ?_
  rw [List.append_assoc] at shape
  rw [if_pos ((atWord_iff_of_keyword (by decide) ends shape (by decide)).mpr rfl)]
  rw [← bounded] at loop ⊢
  exact .skip "in".toList (.map some loop)

theorem rangeEnd_reads (divides : Divides mark space) :
    Reads rounds rangeEnd pos mark (space ++ back) () := by
  cases divides with
  | line => exact .tight rfl (.current (.pure _))
  | semicolon => exact .tight rfl (.current (.skipped [';']))

theorem rangeName_reads (name : Name) (keyword : String) :
    Reads rounds (rangeName keyword) pos name.chars (' ' :: back) (String.ofList name.chars) := by
  have filled : name.chars.isEmpty = false := by
    obtain ⟨c, rest, shape, -⟩ := name.exists_head
    rw [shape]
    rfl
  have run : nameRun (name.chars ++ ' ' :: back) = name.chars := by
    refine nameRun_append name.named ?_
    rintro c ⟨⟩
    decide
  refine .rest ?_
  rw [run]
  refine .bindLast (.skipped name.chars) (.cursor fun cursor shape => ?_)
  have ended : cursor.wordEndsAt 0 = true := by
    rw [Cursor.wordEndsAt, Cursor.peek, shape]
    rfl
  rw [filled, ended]
  exact .pure _

theorem range_reads {name : Name} {text : List Char}
    (bounded : inner.rounds = rounds) (expands : ∀ word ∈ words, 0 < word.levels →
      Expands rounds inner)
    (divides : Divides mark space) :
    Reads rounds (range inner "for") pos
      (name.chars ++ ([' '] ++ ("in".toList ++ (Call.spaced words).text ++ mark)))
      (space ++ text ++ back) (.words pos (String.ofList name.chars)
        ((Call.spaced words).tree (((pos.along name.chars).along [' ']).along "in".toList))
        true) := by
  obtain ⟨c, rest, written, start⟩ := name.exists_head
  have other : c ∉ ['('] := not_mem_of_isNameStart start (by decide)
  have ahead : Gap [' '] ("in".toList ++ (Call.spaced words).text ++ mark ++
      (space ++ text ++ back)) := by
    refine ⟨.inr (.inl rfl), rfl, ?_⟩
    rintro c ⟨⟩
    decide
  have words {pos : Position} : Reads rounds (rangeWords inner) pos
      ("in".toList ++ (Call.spaced words).text) (mark ++ (space ++ text ++ back))
      (some ((Call.spaced words).tree (pos.along "in".toList))) := by
    obtain ⟨c, rest, shape, stop⟩ := divides.exists_head (text ++ back)
    rw [List.append_assoc, shape]
    exact rangeWords_reads bounded expands stop
  have ended {pos : Position} : Reads rounds rangeEnd pos mark (space ++ text ++ back) () := by
    rw [List.append_assoc]
    exact rangeEnd_reads divides
  refine .cursor fun cursor shape => ?_
  have double : cursor.startsWith "((" = false :=
    startsWith_of_head (by rw [shape, written]; rfl) (List.mem_singleton.not.mp other)
  rw [double, if_neg (by simp)]
  exact .here (.bind (rangeName_reads name "for") (.bind (linebreaks_reads ahead bounded)
    (.bind words (.bindLast ended (.pure _)))))

theorem commanded_iteration {name : Name} {body : List (Form Stmt)}
    (bounded : inner.rounds = rounds)
    (expands : ∀ word ∈ words, 0 < word.levels → Expands rounds inner)
    (divides : Divides mark space) (lists : Lists rounds inner body) (wide : gap ∈ gaps) :
    Commanded rounds inner (.iteration name (Call.spaced words) (mark ++ space)
      (.list gap body)) := by
  have member : "for" ∈ compoundWords := by decide
  refine commanded_of_compound bounded (fun back _ => opens_keyword member (.blank _))
    (fun back _ => negates_keyword member _) (fun pos => rfl) fun pos back ends => ?_
  refine .cursor fun cursor shape => ?_
  obtain ⟨double, single, found⟩ := compound?_keyword "for" member (.blank _) shape
  rw [double, if_neg Bool.false_ne_true, if_neg single, found]
  obtain ⟨c, rest, written, start⟩ := name.exists_head
  have solid : c ∉ [' ', '\t', '\r', '\\'] := not_mem_of_isNameStart start (by decide)
  have tight :
    isTight (name.chars ++ ([' '] ++ ("in".toList ++ (Call.spaced words).text ++ mark)) ++
      (space ++ (Form.loopBody (.list gap body)).text) ++ back) = true := by
    rw [written]
    simpa [isTight] using solid
  have text : (Form.iteration name (Call.spaced words) (mark ++ space) (.list gap body)).text =
      "for".toList ++
        ([' '] ++ (name.chars ++ ([' '] ++ ("in".toList ++ (Call.spaced words).text ++ mark)) ++
        (space ++ (Form.loopBody (.list gap body)).text))) := by
    simp only [Form.iteration, List.append_assoc]
    rfl
  have moved (pos : Position) :
      (pos.along (name.chars ++ ([' '] ++ ("in".toList ++ (Call.spaced words).text ++ mark)))).along
      space =
        (((pos.along name.chars).along " in".toList).along (Call.spaced words).text).along
          (mark ++ space) := by
    simp only [Position.along_append]
    rfl
  have spaced : space ∈ leads := by cases divides <;> decide
  have read {pos : Position} : Reads rounds (loopBody inner)
      (pos.along (name.chars ++ ([' '] ++ ("in".toList ++ (Call.spaced words).text ++ mark))))
      (space ++ (Form.loopBody (.list gap body)).text) back ((Form.loopBody (.list gap body)).tree
        ((((pos.along name.chars).along " in".toList).along (Call.spaced words).text).along
          (mark ++ space))) := by
    rw [← moved]
    exact loopBody_reads bounded lists wide spaced ends
  rw [text]
  exact .map some (.here (.skip "for".toList (.skipBlanks ⟨.inr rfl, tight⟩
    (.bind (range_reads bounded expands divides) (.bindLast read (.pure _))))))

/-! ## Choices by patterns -/

/-- The form is read as an item of a choice. -/
structure Itemized (rounds : Nat) (inner : Inner) (form : Form CaseItem) : Prop where
  gap : ∀ back, Gap ['\n'] (form.text ++ back)
  usual : ∀ (cursor : Cursor) back, cursor.rest = form.text ++ back → cursor.atWord "esac" = false
  reads : ∀ pos back, Reads rounds (caseItem inner) pos form.text ('\n' :: back) (form.tree pos)

section Choices

variable (bounded : inner.rounds = rounds)

include bounded

section Patterns

variable {pattern : Word} {further : List Word} {margin : List Char}
  (expands : ∀ word ∈ pattern :: further, 0 < word.levels → Expands rounds inner)
  (margins : margin = [] ∨ margin = [' '])

include expands margins

theorem patterns_reads :
    Reads rounds (iterate (patternRound inner) rounds [])
      pos (Form.patterns margin pattern further).text
      (')' :: back) ((Form.patterns margin pattern further).tree pos) := by
  suffices runs : ∀ blank items, blank = [] ∨ blank = [' '] →
      Runs rounds (patternRound inner) items pos
        (blank ++ (Form.patterns margin pattern further).text)
        (')' :: back) (items.reverse ++ (Form.patterns margin pattern further).tree
          (pos.along blank)) from
    (runs [] [] (.inl rfl)).iterate
  induction further generalizing pattern pos with
  | nil =>
      intro blank items spaces
      have able := expands pattern List.mem_cons_self
      have last : Reads rounds (patternRound inner items) pos (blank ++ pattern.form.text)
        (')' :: back)
          (.done (pattern.form.tree (pos.along blank) :: items).reverse) := by
        refine .skipBlanks ⟨spaces, pattern.tight _⟩ (.bindLast (word_reads able bounded rfl) ?_)
        exact .tight rfl (.current (.pure _))
      rw [List.reverse_cons] at last
      simp only [Form.patterns, List.map_nil, Form.sequence, List.append_nil]
      exact .done last
  | cons second further ih =>
      intro blank items spaces
      have able := expands pattern List.mem_cons_self
      have ends :
        endsWord (margin ++ ['|'] ++ (margin ++ (Form.patterns margin second further).text ++
          ')' :: back)) = true := by
        rcases margins with rfl | rfl <;> rfl
      have first : Reads rounds (patternRound inner items) pos
          (blank ++ (pattern.form.text ++ (margin ++ ['|'])))
          (margin ++ (Form.patterns margin second further).text ++ ')' :: back)
          (.again (pattern.form.tree (pos.along blank) :: items)) := by
        refine .skipBlanks ⟨spaces, by rw [List.append_assoc]; exact pattern.tight _⟩
          (.bind (word_reads able bounded ends) (.skipBlanks ⟨margins, rfl⟩ (.current ?_)))
        exact .bindLast (.skipped ['|']) (.pure _)
      have later : Runs rounds (patternRound inner) (pattern.form.tree (pos.along blank) :: items)
          (pos.along (blank ++ (pattern.form.text ++ (margin ++ ['|']))))
          (margin ++ (Form.patterns margin second further).text) (')' :: back) _ :=
        ih (fun word member => expands word (List.mem_cons_of_mem _ member)) _ _ margins
      have whole := Runs.again (by simp) first later
      have text : blank ++ (Form.patterns margin pattern (second :: further)).text =
          blank ++ (pattern.form.text ++ (margin ++ ['|'])) ++
            (margin ++ (Form.patterns margin second further).text) := by
        simp only [Form.patterns, Form.behind, List.map_cons, Form.sequence, List.append_assoc]
      have tree : items.reverse ++
          (Form.patterns margin pattern (second :: further)).tree (pos.along blank) =
          (pattern.form.tree (pos.along blank) :: items).reverse ++
            (Form.patterns margin second further).tree
              ((pos.along (blank ++ (pattern.form.text ++ (margin ++ ['|'])))).along margin) := by
        simp only [Form.patterns, Form.behind, List.map_cons, Form.sequence, List.reverse_cons,
          List.append_assoc, Position.along_append]
        rfl
      rw [text, tree]
      exact whole

theorem itemized_branch (ordinary : pattern.Ordinary) (lists : Lists rounds inner forms)
    (wide : gap ∈ gaps) :
    Itemized rounds inner (.branch (.patterns margin pattern further) (.list gap forms)) := by
  have split (text : List Char) : ∃ behind,
      (Form.branch (.patterns margin pattern further) (.list gap forms)).text ++ text =
        pattern.form.text ++ behind ∧ ∀ c ∈ behind.head?, c ∈ wordDelimiters := by
    refine ⟨(Form.sequence (further.map fun word =>
      word.form.behind (margin ++ ['|'] ++ margin))).text ++
      ([')'] ++ ((Form.list gap forms).text ++ ";;".toList)) ++ text, ?_, ?_⟩
    · simp only [Form.branch, Form.patterns, List.append_assoc]
    · rcases margins with rfl | rfl <;> cases further <;> rintro c ⟨⟩ <;> decide
  obtain ⟨c, rest, written, begins⟩ := pattern.exists_head
  refine ⟨fun back => ?_, fun cursor back shape => ?_, fun pos back => ?_⟩
  · obtain ⟨behind, text, -⟩ := split back
    rw [text]
    refine ⟨.inr (.inr rfl), pattern.tight behind, fun d head => ?_⟩
    rw [written] at head
    cases head
    exact Word.head_not_mem begins (by decide)
  · obtain ⟨behind, text, ends⟩ := split back
    exact ordinary.not_atWord (shape.trans text) ends (by decide)
  · obtain ⟨behind, text, -⟩ := split ('\n' :: back)
    have closed : c ∉ ['('] := Word.head_not_mem begins (by decide)
    have opening : Reads rounds (skipIf (· = '(')) pos []
        ((Form.branch (.patterns margin pattern further) (.list gap forms)).text ++ '\n' :: back)
        () := by
      refine .current ?_
      rw [List.nil_append, text, written]
      simp only [List.cons_append, List.head?_cons, Option.any_some, decide_eq_true_eq,
        if_neg (List.mem_singleton.not.mp closed)]
      exact .pure _
    have ended {pos : Position} : Reads rounds caseEnd pos ";;".toList ('\n' :: back) .leave :=
      .rest (.bindLast (.skipped ";;".toList) (.pure _))
    have patterns : Reads rounds (iterate (patternRound inner) inner.rounds []) pos
        (Form.patterns margin pattern further).text
        ([')'] ++ ((Form.list gap forms).text ++ ";;".toList) ++ '\n' :: back)
        ((Form.patterns margin pattern further).tree pos) := by
      rw [bounded]
      exact patterns_reads bounded expands margins
    have closes : Closes ["esac"] (";;".toList ++ '\n' :: back) := .item _
    exact .here
      (.bindFirst opening (.bind patterns (.current (.skip [')'] (.bind (lists.reads wide closes _)
      (.bindLast ended (.pure _)))))))

end Patterns

theorem caseRound_reads {form : Form CaseItem} (item : Itemized rounds inner form)
    {items : List CaseItem} :
    Reads rounds (caseRound inner items) pos (['\n'] ++ form.text) ('\n' :: back)
      (.again (form.tree (pos.along ['\n']) :: items)) := by
  refine .bind (linebreaks_reads (item.gap _) bounded) (.cursor fun cursor shape => ?_)
  rw [item.usual cursor _ shape, if_neg Bool.false_ne_true]
  refine .cursor fun cursor shape => ?_
  have more : cursor.atEnd = false := by
    rw [Cursor.atEnd, shape]
    cases form.text <;> rfl
  rw [more, if_neg Bool.false_ne_true]
  exact .bindLast (item.reads _ back) (.pure _)

theorem caseRound_ends (ends : EndsToken back) (items : List CaseItem) :
    Reads rounds (caseRound inner items) pos "\nesac".toList back (.done items.reverse) := by
  have gaps : Gap ['\n'] ("esac".toList ++ back) := by
    refine ⟨.inr (.inr rfl), rfl, ?_⟩
    rintro c ⟨⟩
    decide
  change Reads rounds _ pos (['\n'] ++ "esac".toList) back _
  refine .bind (linebreaks_reads gaps bounded) (.cursor fun cursor shape => ?_)
  rw [if_pos ((atWord_iff_of_keyword (by decide) ends shape (by decide)).mpr rfl)]
  exact .bindLast (.skipped "esac".toList) (.pure _)

/-- The branches of a choice, each on a line of its own. -/
def Form.branches (items : List (Form CaseItem)) : Form (List CaseItem) :=
  .sequence (items.map (.behind ['\n']))

variable {branches : List (Form CaseItem)}

theorem branches_reads (items : ∀ form ∈ branches, Itemized rounds inner form)
    (ends : EndsToken back) :
    Reads rounds (iterate (caseRound inner) rounds []) pos ((Form.branches branches).text ++
      "\nesac".toList) back
      ((Form.branches branches).tree pos) := by
  refine (runs_sequence (fun items item => item :: items) (fun _ => True)
    (fun text => ∃ behind, text = '\n' :: behind) trivial (fun _ _ _ => trivial) ?_ ?_ ?_ ?_
    ?_).iterate
  · intro form inside
    obtain ⟨item, -, rfl⟩ := List.mem_map.mp inside
    exact List.cons_ne_nil _ _
  · intro form inside behind
    obtain ⟨item, -, rfl⟩ := List.mem_map.mp inside
    exact ⟨_, rfl⟩
  · exact ⟨_, rfl⟩
  · rintro form inside taken pos _ - ⟨behind, rfl⟩
    obtain ⟨item, from', rfl⟩ := List.mem_map.mp inside
    exact caseRound_reads bounded (items item from')
  · rw [foldl_cons_eq, List.append_nil]
    have last : Reads rounds (caseRound inner ((Form.branches branches).tree pos).reverse)
        (pos.along (Form.branches branches).text) "\nesac".toList back _ :=
          caseRound_ends bounded ends _
    rw [List.reverse_reverse] at last
    exact .done last

theorem commanded_case {subject : Word} (expands : 0 < subject.levels → Expands rounds inner)
    (items : ∀ form ∈ branches, Itemized rounds inner form) :
    Commanded rounds inner (.case subject branches) := by
  have member : "case" ∈ compoundWords := by decide
  refine commanded_of_compound bounded (fun back _ => opens_keyword member (.blank _))
    (fun back _ => negates_keyword member _) (fun pos => rfl) fun pos back ends => ?_
  refine .cursor fun cursor shape => ?_
  obtain ⟨double, single, found⟩ := compound?_keyword "case" member (.blank _) shape
  rw [double, if_neg Bool.false_ne_true, if_neg single, found]
  have loop {pos : Position} : Reads rounds (iterate (caseRound inner) inner.rounds []) pos
      ((Form.branches branches).text ++ "\nesac".toList)
      back ((Form.branches branches).tree pos) := by
    rw [bounded]
    exact branches_reads bounded items ends
  obtain ⟨tail, ahead⟩ : ∃ tail, (Form.branches branches).text ++ "\nesac".toList ++ back =
    '\n' :: tail := by
    cases branches with
    | nil | cons branch branches => exact ⟨_, rfl⟩
  have gaps : Gap [' '] ("in".toList ++ ((Form.branches branches).text ++ "\nesac".toList) ++
      back) := by
    refine ⟨.inr (.inl rfl), rfl, ?_⟩
    rintro c ⟨⟩
    decide
  have divided {pos : Position} : Reads rounds (expectWord "in") pos "in".toList
      ((Form.branches branches).text ++ "\nesac".toList ++ back) () := by
    refine expectWord_reads (by decide) ?_
    rw [ahead]
    exact .line _
  have text : (Form.case subject branches).text = "case".toList ++
    ([' '] ++ (subject.form.text ++ ([' '] ++
      ("in".toList ++ ((Form.branches branches).text ++ "\nesac".toList))))) := rfl
  rw [text]
  exact .map some (.here (.skip "case".toList (.skipBlanks ⟨.inr rfl, by
    rw [List.append_assoc]; exact subject.tight _⟩ (.bind (word_reads expands bounded rfl)
    (.bind (linebreaks_reads gaps bounded) (.bind divided (.bindLast loop (.pure _))))))))

end Choices

/-! ## Simple commands -/

/-- Neither a bracket nor a keyword is in front of a text. -/
structure Simple (text : List Char) : Prop where
  head : ∃ c rest, text = c :: rest ∧
    c ∉ [' ', '\t', '\r', '\\', '\n', '#', ')', ';', '(', '!']
  words : ∀ cursor : Cursor, cursor.rest = text → ∀ keyword ∈ reserved,
    cursor.atWord keyword = false

namespace Simple

variable {text : List Char}

theorem opens (simple : Simple text) : Opens text := by
  obtain ⟨c, rest, rfl, other⟩ := simple.head
  simp only [List.mem_cons, List.not_mem_nil, or_false, not_or] at other
  refine ⟨by simp [isTight, other], fun cursor shape => ?_⟩
  have words (word : String) (member : word ∈ listTerminators) : cursor.atWord word = false :=
    simple.words cursor shape word
      (List.mem_append_left _ (List.mem_append_left _ (List.mem_append_left _ member)))
  have open' : closesCaseItem (c :: rest) = false := closesCaseItem_of_ne other.2.2.2.2.2.2.2.1 rest
  simp only [startsStatement, shape, open', List.head?_cons, Option.any_some, Bool.and_eq_true,
    List.all_eq_true]
  exact ⟨⟨rfl, by simp [other]⟩, fun word member => by rw [words word member]; rfl⟩

theorem affirms (simple : Simple text) : negates text = false := by
  obtain ⟨c, rest, rfl, other⟩ := simple.head
  simp only [List.mem_cons, List.not_mem_nil, or_false, not_or] at other
  simp [negates, List.isPrefixOf, Ne.symm other.2.2.2.2.2.2.2.2.2]

theorem compound? (simple : Simple text) :
    Reads rounds (Reading.compound? inner) pos [] text none := by
  obtain ⟨c, rest, rfl, other⟩ := simple.head
  simp only [List.mem_cons, List.not_mem_nil, or_false, not_or] at other
  refine .cursor fun cursor shape => ?_
  have head : cursor.rest.head? = some c := by rw [shape]; rfl
  have single : cursor.current ≠ some '(' := by
    rw [Cursor.current, head]
    simpa using other.2.2.2.2.2.2.2.2.1
  have none : compoundWords.find? cursor.atWord = none := by
    rw [List.find?_eq_none]
    intro word member
    rw [simple.words cursor shape word
      (List.mem_append_left _ (List.mem_append_left _ (List.mem_append_right _ member)))]
    exact Bool.false_ne_true
  rw [startsWith_of_head head other.2.2.2.2.2.2.2.2.1, if_neg Bool.false_ne_true,
    if_neg single, none]
  exact .pure _

end Simple

theorem Word.Ordinary.simple {word : Word} (ordinary : word.Ordinary)
    (ends : ∀ c ∈ back.head?, c ∈ wordDelimiters) : Simple (word.form.text ++ back) := by
  obtain ⟨c, rest, written, begins⟩ := word.exists_head
  refine ⟨⟨c, rest ++ back, by rw [written]; rfl, head_not_mem begins (by decide)⟩,
    fun cursor shape keyword member => ordinary.not_atWord shape ends member⟩

theorem Assign.simple (assign : Assign) (back : List Char) : Simple (assign.head ++ back) := by
  obtain ⟨c, rest, written, start⟩ := assign.exists_head
  refine ⟨⟨c, rest ++ back, by rw [written]; rfl, not_mem_of_isNameStart start (by decide)⟩,
    fun cursor shape keyword member => assign.not_atWord shape member⟩

theorem Call.simple (call : Call) (ends : EndsToken back) : Simple (call.form.text ++ back) := by
  have delimits : ∀ c ∈ tokenEnds, c ∈ wordDelimiters := by decide
  obtain ⟨assigns, args, filled, ordinary⟩ := call
  cases assigns with
  | nil =>
      cases args with
      | nil => exact absurd rfl (filled.resolve_left (· rfl))
      | cons word words =>
          rw [form, List.append_assoc]
          exact (ordinary word rfl).simple fun c head =>
            delimits c (tokenEnds_of_endsToken (endsToken_spaced ends) c head)
  | cons assign assigns =>
      rw [form, List.append_assoc, Assign.form, List.append_assoc]
      exact assign.simple _

theorem commanded_call {call : Call} (expands : 0 < call.levels → Expands rounds inner)
    (bounded : inner.rounds = rounds) : Commanded rounds inner call.form := by
  refine ⟨fun back ends => (call.simple ends).opens, fun back ends => (call.simple ends).affirms,
    fun ending pos back => ?_⟩
  have simple := call.simple (ending.endsToken back)
  rw [← List.append_assoc] at simple
  exact .tight simple.opens.tight
    (.here (.bindFirst simple.compound? (call_reads expands bounded ending)))

/-! ## Functions -/

/-- The literal as a word. -/
def Text.word (text : Text) : Word where
  pieces := [.bare (.literal text)]
  filled := List.cons_ne_nil _ _
  apart := .singleton _

theorem callFunction_reads {name : Text} {body : Form Stmt} {start : Position}
    (bounded : inner.rounds = rounds)
    (opens : ∀ back, EndsToken back → Opens (body.text ++ back)) {ending : Ending}
    (reads : ∀ pos, Reads rounds inner.command pos (body.text ++ ending.blank) (ending.text ++ back)
      (body.tree pos)) :
    Reads rounds (callFunction inner start
      { assigns := [], args := [name.word.form.tree start], redirects := [] }) pos
      ("() ".toList ++ (body.text ++ ending.blank)) (ending.text ++ back)
      (.ofDraft start (some (.function start (String.ofList name.chars)
        (body.tree (pos.along "() ".toList)) false)) []) := by
  have literal : (name.word.form.tree start).literal? = some (String.ofList name.chars) := by
    simp [RecipeLint.Word.literal?, Word.form, Text.word, Piece.form, Bare.form, Form.sequence,
      RecipeLint.Part.literal?]
  have parentheses : Reads rounds emptyParentheses pos ['(', ')']
      ([' '] ++ (body.text ++ ending.blank) ++ (ending.text ++ back)) () :=
    .skip ['('] (.tight rfl (.current (.skipped [')'])))
  have gaps : Gap [' '] (body.text ++ ending.blank ++ (ending.text ++ back)) := by
    rw [List.append_assoc]
    exact (opens _ (ending.endsToken back)).gap
  unfold callFunction
  simp only [literal]
  change Reads rounds _ pos (['(', ')'] ++ ([' '] ++ (body.text ++ ending.blank))) _ _
  refine .bindLast ?_ (.pure _)
  exact .bind parentheses (.bind (linebreaks_reads gaps bounded) (.bindLast (reads _) (.pure _)))

theorem commanded_function {name : Text} {body : Form Stmt} (bounded : inner.rounds = rounds)
    (ordinary : String.ofList name.chars ∉ reserved)
    (opens : ∀ back, EndsToken back → Opens (body.text ++ back))
    (reads : ∀ (ending : Ending) pos back, Reads rounds inner.command pos
      (body.text ++ ending.blank)
      (ending.text ++ back) (body.tree pos)) :
    Commanded rounds inner (.function name body) := by
  have usual : name.word.Ordinary := by
    rintro text ⟨⟩
    exact ordinary
  have written : name.word.form.text = name.chars := List.append_nil _
  have simple (back : List Char) : Simple ((Form.function name body).text ++ back) := by
    have start : Simple (name.word.form.text ++ ("() ".toList ++ body.text ++ back)) := by
      refine usual.simple ?_
      rintro c ⟨⟩
      decide
    rw [written, ← List.append_assoc] at start
    exact start
  refine ⟨fun back _ => (simple back).opens, fun back _ => (simple back).affirms,
    fun ending pos back => ?_⟩
  have start := simple (ending.blank ++ (ending.text ++ back))
  rw [← List.append_assoc] at start
  refine .tight start.opens.tight (.here (.bindFirst start.compound? ?_))
  have first : Reads rounds (callRound inner pos { assigns := [], args := [], redirects := [] }) pos
      name.word.form.text ("() ".toList ++ (body.text ++ ending.blank) ++ (ending.text ++ back))
      (.again { assigns := [], args := [name.word.form.tree pos], redirects := [] }) := by
    have plain : ¬0 < name.word.levels := Nat.lt_irrefl 0
    refine callRound_reads (.inl rfl) (fun positive => absurd positive plain)
      bounded ?_ fun _ _ => usual
    rintro c ⟨⟩
    decide
  have unredirected (text : List Char) : RedirectHead.starting? ('(' :: text) = none := by
    have digit : Text.isDecimal '(' = false := by decide
    simp [RedirectHead.starting?, RedirectHead.of?, RedirectOp.of?, RedirectOp.both?,
      RedirectOp.text, digit]
  have second : Reads rounds
      (callRound inner pos { assigns := [], args := [name.word.form.tree pos], redirects := [] })
      (pos.along name.word.form.text) ("() ".toList ++ (body.text ++ ending.blank))
      (ending.text ++ back) (.done ((Form.function name body).tree pos)) := by
    refine .tight rfl (.redirectAt ?_)
    rw [show "() ".toList ++ (body.text ++ ending.blank) ++ (ending.text ++ back) =
      '(' :: _ from rfl, unredirected]
    refine .current (.bindLast (callFunction_reads bounded opens (reads ending · back)) ?_)
    rw [written]
    exact .pure _
  have runs := Runs.again name.word.text_ne_nil first (.done second)
  have loop := runs.iterate
  have text : (Form.function name body).text ++ ending.blank =
      name.word.form.text ++ ("() ".toList ++ (body.text ++ ending.blank)) := by
    rw [written, Form.function, List.append_assoc, List.append_assoc]
  rw [text, call, bounded]
  exact loop

end Canonical
end RecipeLint
