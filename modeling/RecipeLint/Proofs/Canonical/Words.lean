import RecipeLint.Proofs.Canonical.Reads
import RecipeLint.Proofs.Canonical.Syntax

/-!
# Reading canonical words

The parts of a word are read one after the other: a literal character by character, every other part
in one round.  Parts that can be told apart are not merged.
-/

namespace RecipeLint

namespace Pieces

variable {pieces : Pieces}

theorem run_add (part : Part) : (pieces.add part).run = [] := by
  unfold add flush
  split <;> simp_all

theorem finish_push {text : List Char} (empty : pieces.run = []) (filled : text ≠ [])
    (pos : Position) :
    (pieces.push pos text).finish = pieces.finish ++ [.literal pos (String.ofList text)] := by
  simp [push, finish, flush, empty, filled]

end Pieces

namespace Canonical

open Reading

variable {α β : Type} {rounds : Nat} {pos : Position} {back : List Char} {inner : Inner}

/-- A loop that takes forms one after the other, a round for each; `keeps` holds of what it has
gathered. -/
theorem runs_sequence {γ : Type} {step : α → Reading (Round α β)} (add : α → γ → α)
    (keeps : α → Prop)
    (follow : List Char → Prop) {forms : List (Form γ)} {rest : List Char} {result : β} {value : α}
    (kept : keeps value) (keep : ∀ value added, keeps value → keeps (add value added))
    (filled : ∀ form ∈ forms, form.text ≠ [])
    (starts : ∀ form ∈ forms, ∀ behind, follow (form.text ++ behind)) (ends : follow (rest ++ back))
    (round : ∀ form ∈ forms, ∀ value pos behind, keeps value → follow behind →
      Reads rounds (step value) pos form.text behind (.again (add value (form.tree pos))))
    (later : Runs rounds step (((Form.sequence forms).tree pos).foldl add value)
      (pos.along (Form.sequence forms).text) rest back result) :
    Runs rounds step value pos ((Form.sequence forms).text ++ rest) back result := by
  induction forms generalizing value pos with
  | nil => exact later
  | cons form forms ih =>
      have member := List.mem_cons_self (a := form) (l := forms)
      have further (other : Form γ) (inside : other ∈ forms) := List.mem_cons_of_mem form inside
      rw [Form.sequence, Position.along_append] at later
      have tail := ih (keep value (form.tree pos) kept)
        (fun other inside => filled other (further other inside))
        (fun other inside => starts other (further other inside))
        (fun other inside => round other (further other inside)) later
      have next : follow ((Form.sequence forms).text ++ rest ++ back) := by
        cases forms with
        | nil => exact ends
        | cons other forms =>
            have begins := starts other (further other List.mem_cons_self)
            rw [Form.sequence, List.append_assoc, List.append_assoc]
            exact begins _
      rw [Form.sequence, List.append_assoc]
      exact .again (filled form member) (round form member value pos _ kept next) tail

/-- Rounds that push literal characters one by one push their text. -/
theorem runs_literal {step : α → Reading (Round α β)} (wrap : Pieces → α) {ordinary : Char → Bool}
    (pushes : ∀ pieces pos c behind, ordinary c = true →
      Reads rounds (step (wrap pieces)) pos [c] behind (.again (wrap (pieces.push pos [c]))))
    {text rest : List Char} (filled : text ≠ []) (all : ∀ c ∈ text, ordinary c = true)
    {pieces : Pieces}
    {result : β} (later : Runs rounds step (wrap (pieces.push pos text)) (pos.along text)
      rest back result) :
    Runs rounds step (wrap pieces) pos (text ++ rest) back result := by
  induction text generalizing pieces pos with
  | nil => exact absurd rfl filled
  | cons c text ih =>
      have first := pushes pieces pos c (text ++ rest ++ back) (all c List.mem_cons_self)
      have split : c :: text ++ rest = [c] ++ (text ++ rest) := rfl
      rw [split]
      refine .again (by simp) first ?_
      cases text with
      | nil => exact later
      | cons d text =>
          refine ih (by simp) (fun e member => all e (List.mem_cons_of_mem c member)) ?_
          rw [Pieces.push_push]
          exact later

/-- A loop that gathers parts: literals are pushed character by character, all other parts are added
in one round each. -/
theorem runs_parts {γ : Type} {step : Pieces → Reading (Round Pieces (List Part))}
    {form : γ → Form Part} {text? : γ → Option Text} {parts : List γ} {pieces : Pieces}
    (ends : ∀ pieces pos, Reads rounds (step pieces) pos [] back (.done pieces.finish))
    (pushes : ∀ pieces pos c behind, isSolid c = true →
      Reads rounds (step pieces) pos [c] behind (.again (pieces.push pos [c])))
    (literal : ∀ part ∈ parts, ∀ text ∈ text? part, form part = (Bare.literal text).form)
    (adds : ∀ front part later, parts = front ++ part :: later → text? part = none →
      (form part).text ≠ [] ∧ ∀ pieces pos, Reads rounds (step pieces) pos (form part).text
        ((Form.sequence (later.map form)).text ++ back)
        (.again (pieces.add ((form part).tree pos))))
    (apart : parts.IsChain fun first second => text? first = none ∨ text? second = none)
    (clear : pieces.run = [] ∨ ∀ part ∈ parts.head?, text? part = none) :
    Runs rounds step pieces pos (Form.sequence (parts.map form)).text back
      (pieces.finish ++ (Form.sequence (parts.map form)).tree pos) := by
  induction parts generalizing pieces pos with
  | nil =>
      simp only [List.map_nil, Form.sequence, List.append_nil]
      exact .done (ends pieces pos)
  | cons part parts ih =>
      obtain ⟨next, apart⟩ := List.isChain_cons.mp apart
      have later (pieces : Pieces) (pos : Position)
          (clear : pieces.run = [] ∨ ∀ part ∈ parts.head?, text? part = none) :
          Runs rounds step pieces pos (Form.sequence (parts.map form)).text back
            (pieces.finish ++ (Form.sequence (parts.map form)).tree pos) :=
        ih (fun other inside => literal other (List.mem_cons_of_mem part inside))
          (fun front other later split => adds (part :: front) other later (by rw [split]; rfl))
          apart clear
      rw [List.map_cons, Form.sequence]
      cases kind : text? part with
      | some text =>
          have empty : pieces.run = [] := by
            refine clear.resolve_right fun none => ?_
            have absent := none part rfl
            rw [kind] at absent
            cases absent
          have others : ∀ other ∈ parts.head?, text? other = none := fun other head =>
            (next other head).resolve_left (by rw [kind]; nofun)
          have shape := literal part List.mem_cons_self text kind
          have tail := later (pieces.push pos text.chars) (pos.along text.chars) (.inr others)
          rw [Pieces.finish_push empty text.filled, List.append_assoc] at tail
          rw [shape]
          exact runs_literal id pushes text.filled text.solid tail
      | none =>
          obtain ⟨filled, round⟩ := adds [] part parts rfl kind
          have tail := later (pieces.add ((form part).tree pos)) (pos.along (form part).text)
            (.inl (Pieces.run_add _))
          rw [Pieces.finish_add, List.append_assoc] at tail
          exact .again filled (round pieces pos) tail

theorem not_mem_of_isSolid {c : Char} (solid : isSolid c = true) {others : List Char}
    (none : ∀ d ∈ others, isSolid d = false) : c ∉ others := fun member => by
  simp [none c member] at solid

theorem wordRound_pushes (pieces : Pieces) (pos : Position) (c : Char) (behind : List Char)
    (solid : isSolid c = true) :
    Reads rounds (wordRound inner wordDelimiters pieces) pos [c]
      behind (.again (pieces.push pos [c])) := by
  have plain : isPlain c = true := by
    rw [isPlain, Bool.not_eq_true', ← Bool.not_eq_true, List.contains_iff_mem]
    exact not_mem_of_isSolid solid (by decide)
  intro state _ _ here shape _
  rw [← here]
  exact wordRound_plain pieces state c behind shape plain

theorem quotedRound_pushes (pieces : Pieces) (pos : Position) (c : Char) (behind : List Char)
    (solid : isSolid c = true) :
    Reads rounds (quotedRound inner (some '"') pieces) pos [c] behind
      (.again (pieces.push pos [c])) := by
  have plain : c ∉ ['\\', '\x60', '$', '"'] := not_mem_of_isSolid solid (by decide)
  simp only [List.mem_cons, List.not_mem_nil, or_false, not_or] at plain
  intro state _ _ here shape _
  rw [← here]
  refine quotedRound_plain (some '"') pieces state c behind shape ⟨by simp [plain], ?_⟩
  rintro ⟨⟩
  exact plain.2.2.2 rfl

/-! ## Parameters -/

/-- No character that could belong to a name is in front of a text. -/
def EndsName (text : List Char) : Prop :=
  ∀ c ∈ text.head?, isNameChar c = false

theorem Name.exists_head (name : Name) : ∃ c rest, name.chars = c :: rest ∧
    isNameStart c = true := by
  have named := name.named
  cases shape : name.chars with
  | nil =>
      rw [shape] at named
      cases named
  | cons c rest =>
      rw [shape, isName, Bool.and_eq_true] at named
      exact ⟨c, rest, rfl, named.1⟩

/-- The level inside reads parameters. -/
def Expands (rounds : Nat) (inner : Inner) : Prop :=
  ∀ quoted (name : Name) pos behind, EndsName behind →
    Reads rounds (inner.expansion quoted) pos ('$' :: name.chars) behind
      (some (.simple pos (String.ofList name.chars)))

theorem expands_around (inner : Inner) : Expands rounds inner.around := by
  intro quoted name pos behind stop
  obtain ⟨c, rest, shape, start⟩ := name.exists_head
  have named := name.named
  rw [isName, Bool.and_eq_true, List.all_eq_true, shape] at named
  have all := named.2
  have other {d : Char} (apart : isNameStart d = false) : c ≠ d := by
    rintro rfl
    rw [start] at apart
    cases apart
  have run : (name.chars ++ behind).takeWhile isNameChar = name.chars :=
    takeWhile_append_of_stop (by rw [shape]; exact all) stop
  refine .here (.rest ?_)
  rw [List.cons_append, List.drop_one, List.tail_cons]
  rw [shape, List.cons_append] at run ⊢
  simp only [other (d := '\'') (by decide), other (d := '"') (by decide),
    other (d := '(') (by decide),
    other (d := '[') (by decide), other (d := '\x7b') (by decide), start,
    decide_false, Bool.false_and,
    Bool.false_eq_true, if_false, if_true, run]
  exact .bindLast (.skipped ('$' :: c :: rest)) (.pure _)

/-- An expansion is added to the parts of a word in one round. -/
theorem wordRound_expansion (pieces : Pieces) {text : List Char} {part : Part}
    (reads : Reads rounds (inner.expansion false) pos ('$' :: text) back (some part)) :
    Reads rounds (wordRound inner wordDelimiters pieces) pos ('$' :: text) back
      (.again (pieces.add part)) := by
  refine .here (.rest ?_)
  simp only [List.cons_append]
  rw [if_neg (by decide), if_neg (by simp), if_neg (by decide), if_neg (by simp),
    if_neg (by decide), if_neg (by decide), if_neg (by decide), if_pos trivial]
  exact .bindLast reads (.pure _)

theorem quotedRound_parameter (expands : Expands rounds inner) (pieces : Pieces) (pos : Position)
    {name : Name} {behind : List Char} (stop : EndsName behind) :
    Reads rounds (quotedRound inner (some '"') pieces) pos ('$' :: name.chars) behind
      (.again (pieces.add (.simple pos (String.ofList name.chars)))) := by
  refine .here (.rest ?_)
  simp only [List.cons_append]
  rw [if_neg (by decide), if_neg (by decide), if_neg (by decide), if_pos trivial]
  exact .bindLast (expands true name pos behind stop) (.pure _)

/-! ## Quotes and words -/

/-- The text of a part that is a literal. -/
def Bare.text? : Bare → Option Text
  | .literal text => some text
  | .parameter _ => none

/-- The text of a part that is a literal. -/
def Piece.text? : Piece → Option Text
  | .bare part => part.text?
  | _ => none

theorem Bare.form_of_text? {part : Bare} {text : Text} (found : text ∈ part.text?) :
    part.form = (literal text).form := by
  cases part with
  | literal other =>
      cases found
      rfl
  | parameter name => cases found

theorem Bare.text?_of_precedes {first second : Bare} (apart : first.Precedes second) :
    first.text? = none ∨ second.text? = none := by
  cases first with
  | parameter name => exact .inl rfl
  | literal text =>
      cases second with
      | parameter name => exact .inr rfl
      | literal other => exact apart.elim

theorem Piece.text?_of_precedes {first second : Piece} (apart : first.Precedes second) :
    first.text? = none ∨ second.text? = none := by
  cases first with
  | bare first =>
      cases second with
      | bare second => exact Bare.text?_of_precedes apart
      | single text unquoted | double parts inside => exact .inr rfl
  | single text unquoted | double parts inside => exact .inl rfl

theorem Text.head_mem (text : Text) : ∃ c rest, text.chars = c :: rest :=
  List.exists_cons_of_ne_nil text.filled

/-- No character that could belong to a name follows a parameter. -/
theorem Bare.stop_of_precedes {name : Name} {second : Bare}
    (apart : (parameter name).Precedes second) (behind : List Char) :
    EndsName (second.form.text ++ behind) := by
  cases second with
  | parameter other =>
      rintro c ⟨⟩
      decide
  | literal text =>
      obtain ⟨d, rest, shape⟩ := text.head_mem
      intro c head
      refine apart c ?_
      simpa [form, shape] using head

theorem Piece.stop_of_precedes {name : Name} {second : Piece}
    (apart : (bare (.parameter name)).Precedes second) (behind : List Char) :
    EndsName (second.form.text ++ behind) := by
  cases second with
  | bare second => exact Bare.stop_of_precedes apart behind
  | single text unquoted | double parts inside =>
      rintro c ⟨⟩
      decide

/-- What follows an element of a chain of forms, if each one that may follow satisfies a
condition. -/
theorem follow_sequence {γ : Type} {form : γ → Form α} {precedes : γ → γ → Prop}
    {parts front later : List γ} {part : γ} (apart : parts.IsChain precedes)
    (split : parts = front ++ part :: later) {follow : List Char → Prop} (ends : follow back)
    (starts : ∀ next, precedes part next → ∀ behind, follow ((form next).text ++ behind)) :
    follow ((Form.sequence (later.map form)).text ++ back) := by
  cases later with
  | nil => exact ends
  | cons next later =>
      rw [split] at apart
      have pair : precedes part next := by
        have tail := (List.isChain_append.mp apart).2.1
        exact (List.isChain_cons_cons.mp tail).1
      rw [List.map_cons, Form.sequence, List.append_assoc]
      exact starts next pair _

theorem le_foldr_max {values : List Nat} {value : Nat} (member : value ∈ values) :
    value ≤ values.foldr max 0 := by
  induction values with
  | nil => cases member
  | cons first values ih =>
      rw [List.foldr_cons]
      rcases List.mem_cons.mp member with rfl | later
      · exact Nat.le_max_left ..
      · exact Nat.le_trans (ih later) (Nat.le_max_right ..)

theorem doubleQuoted_reads {parts : List Bare} (apart : parts.IsChain Bare.Precedes)
    (expands : ∀ part ∈ parts, 0 < part.levels → Expands rounds inner)
    (bounded : inner.rounds = rounds) :
    Reads rounds (doubleQuoted inner pos false) pos
      (['"'] ++ ((Form.sequence (parts.map Bare.form)).text ++ ['"'])) back
      (.double pos ((Form.sequence (parts.map Bare.form)).tree (pos.along ['"'])) false) := by
  have quoted : Reads rounds (quotedParts inner (some '"')) (pos.along ['"'])
      (Form.sequence (parts.map Bare.form)).text (['"'] ++ back)
      ((Form.sequence (parts.map Bare.form)).tree (pos.along ['"'])) := by
    refine .here ?_
    rw [bounded]
    refine Runs.iterate ?_
    have ends (pieces : Pieces) (pos : Position) :
        Reads rounds (quotedRound inner (some '"') pieces) pos [] (['"'] ++ back)
          (.done pieces.finish) :=
      .here (.rest (.pure _))
    refine runs_parts ends quotedRound_pushes (fun part _ text found => Bare.form_of_text? found)
      (fun front part later split none => ?_) (apart.imp fun _ _ => Bare.text?_of_precedes)
      (.inl rfl)
    cases part with
    | literal text => cases none
    | parameter name =>
        have member : Bare.parameter name ∈ parts := by simp [split]
        have closes : EndsName (['"'] ++ back) := by
          rintro c ⟨⟩
          decide
        have stop : EndsName ((Form.sequence (later.map Bare.form)).text ++ (['"'] ++ back)) :=
          follow_sequence apart split closes fun next => Bare.stop_of_precedes
        exact ⟨by simp [Bare.form], fun pieces pos =>
          quotedRound_parameter (expands _ member Nat.one_pos) pieces pos stop⟩
  refine .here (.skip ['"'] (.bind quoted (.current ?_)))
  rw [List.cons_append, List.head?_cons, if_pos rfl]
  exact .bindLast (.skipped ['"']) (.pure _)

theorem wordRound_double {parts : List Bare} (apart : parts.IsChain Bare.Precedes)
    (expands : ∀ part ∈ parts, 0 < part.levels → Expands rounds inner)
    (bounded : inner.rounds = rounds) (pieces : Pieces) (pos : Position) :
    Reads rounds (wordRound inner wordDelimiters pieces)
      pos (Piece.double parts apart).form.text back
      (.again (pieces.add ((Piece.double parts apart).form.tree pos))) := by
  refine .here (.rest ?_)
  simp only [Piece.form, List.cons_append, List.nil_append]
  rw [if_neg (by decide), if_neg (by simp), if_neg (by decide), if_neg (by simp),
    if_neg (by decide), if_pos trivial]
  exact .bindLast (doubleQuoted_reads apart expands bounded) (.pure _)

theorem wordRound_single_reads {text : List Char} (unquoted : '\'' ∉ text) (pieces : Pieces)
    (pos : Position) :
    Reads rounds (wordRound inner wordDelimiters pieces)
      pos (Piece.single text unquoted).form.text back
      (.again (pieces.add ((Piece.single text unquoted).form.tree pos))) := by
  intro state _ _ here shape _
  rw [← here]
  exact wordRound_single unquoted shape

theorem endsName_of_endsWord (ends : endsWord back = true) : EndsName back := by
  intro c head
  have none : ∀ c ∈ [' ', '\t', '\r', '\n', ';', '&', '|', '(', ')'], isNameChar c =
      false := by decide
  exact none c (mem_of_endsWord ends c head)

/-- A canonical word is read as it stands. -/
theorem word_reads {word : Word} (expands : 0 < word.levels → Expands rounds inner)
    (bounded : inner.rounds = rounds) (ends : endsWord back = true) :
    Reads rounds (Reading.word inner) pos word.form.text back (word.form.tree pos) := by
  have able {piece : Piece} (member : piece ∈ word.pieces) (positive : 0 < piece.levels) :
      Expands rounds inner :=
    expands (Nat.lt_of_lt_of_le positive (le_foldr_max (List.mem_map_of_mem member)))
  have ended (pieces : Pieces) (pos : Position) :
      Reads rounds (wordRound inner wordDelimiters pieces) pos [] back (.done pieces.finish) :=
    fun state _ _ _ shape _ => wordRound_ends (by rw [shape]; exact ends)
  have runs : Runs rounds (wordRound inner wordDelimiters) (.empty pos) pos
      (Form.sequence (word.pieces.map Piece.form)).text back
      ((Form.sequence (word.pieces.map Piece.form)).tree pos) := by
    refine runs_parts ended wordRound_pushes (fun piece _ text found => ?_)
      (fun front piece later split none => ?_) (word.apart.imp fun _ _ apart =>
        Piece.text?_of_precedes apart) (.inl rfl)
    · cases piece with
      | bare part => exact Bare.form_of_text? found
      | single text unquoted | double parts apart => cases found
    · have member : piece ∈ word.pieces := by simp [split]
      cases piece with
      | bare part =>
          cases part with
          | literal text => cases none
          | parameter name =>
              have stop : EndsName ((Form.sequence (later.map Piece.form)).text ++ back) :=
                follow_sequence word.apart split (endsName_of_endsWord ends) fun next =>
                  Piece.stop_of_precedes
              exact ⟨by simp [Piece.form, Bare.form], fun pieces pos =>
                wordRound_expansion pieces (able member Nat.one_pos false name pos _ stop)⟩
      | single text unquoted => exact ⟨by simp [Piece.form], wordRound_single_reads unquoted⟩
      | double parts apart =>
          refine ⟨by simp [Piece.form],
            wordRound_double apart (fun part inside positive => ?_) bounded⟩
          exact able member
            (Nat.lt_of_lt_of_le positive (le_foldr_max (List.mem_map_of_mem inside)))
  have filled : (Form.sequence (word.pieces.map Piece.form)).tree pos ≠ [] := by
    obtain ⟨piece, rest, shape⟩ := List.exists_cons_of_ne_nil word.filled
    rw [shape]
    exact List.cons_ne_nil _ _
  refine .here ?_
  rw [bounded]
  refine .bindLast runs.iterate ?_
  rw [if_neg (by simp [filled])]
  exact .pure _

end Canonical
end RecipeLint
