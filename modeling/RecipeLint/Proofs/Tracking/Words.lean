import RecipeLint.Proofs.Tracking

/-!
# Words that track each other

Quoted parts, expansions, words and what separates them, read twice with levels inside whose
productions track each other.
-/

namespace RecipeLint
namespace Bounds

open Reading

variable {bounds : Bounds} {kind : List Char → Prop} {size : Nat} {inner inner' : Inner}

/-! ## Quoted parts -/

theorem skipIf_tracks (accepted : Char → Bool) :
    bounds.Tracks kind size (skipIf accepted) (skipIf accepted) :=
  .current fun _ => .ite (fun _ => .skipped 1) fun _ => .pure ()

theorem singleQuoted_tracks (pos : Position) (dollar : Bool) :
    bounds.Tracks kind size (singleQuoted pos dollar) (singleQuoted pos dollar) := by
  refine .here fun opening => .skip 1 (.rest fun text _ _ => ?_)
  cases singleEnd? dollar 0 text with
  | none => exact .failAt opening rfl
  | some length => exact .skip (length + 1) (.pure _)

section

variable (twins : bounds.Twins size inner inner')

include twins

theorem backquoted_tracks :
    bounds.Tracks (· ≠ []) size (backquoted inner) (backquoted inner') := by
  refine .here fun pos => .skipInside Nat.one_pos (fun _ filled => filled) fun less lt => ?_
  refine .here fun start => .rest fun text _ short => ?_
  cases found : backquoteText? [] 0 text with
  | none => exact .failAt pos rfl
  | some ended =>
      obtain ⟨inside, length⟩ := ended
      have fits : inside.length ≤ less := Nat.le_trans (backquoteText?_length found) short
      refine .skip (length + 1) (.bind (.within fits (.bind (twins.statements less lt _)
        fun items => .current fun c => ?_)) fun _ => .pure _)
      cases c with
      | none => exact .pure items
      | some c => exact .fail rfl

/-- A dollar sign is read as an expansion or taken literally. -/
theorem expansion_or_literal_tracks {α β : Type} {quoted : Bool} {taken : Part → α} {literal : α} :
    bounds.Tracks kind size
      (do
        match ← inner.expansion quoted with
        | some part => return .again (taken part)
        | none =>
            skip 1
            return .again literal : Reading (Round α β))
      (do
        match ← inner'.expansion quoted with
        | some part => return .again (taken part)
        | none =>
            skip 1
            return .again literal) := by
  refine .bind (twins.expansion quoted).all fun part => ?_
  cases part with
  | none => exact .skip 1 (.pure _)
  | some part => exact .pure _

theorem quotedRound_tracks (stop : Option Char) (pieces : Pieces) :
    bounds.TracksAll size (quotedRound inner stop pieces) (quotedRound inner' stop pieces) := by
  refine .here fun _ => .rest fun text _ _ => ?_
  cases text with
  | nil => exact .pure _
  | cons c text =>
      refine .ite (fun _ => .pure _) fun _ => .ite (fun _ => ?escape) fun _ =>
        .ite (fun _ => ?backquote) fun _ => .ite (fun _ => ?dollar) fun _ => .skip 1 (.pure _)
      case escape =>
        exact .ite (fun _ => .skip 2 (.pure _)) fun _ =>
          .ite (fun _ => .skip 2 (.pure _)) fun _ => .skip 1 (.pure _)
      case backquote =>
        exact .bind ((backquoted_tracks twins).imp fun _ same => by simp [same]) fun _ => .pure _
      case dollar => exact expansion_or_literal_tracks twins

theorem quotedParts_tracks (stop : Option Char) :
    bounds.Tracks kind size (quotedParts inner stop) (quotedParts inner' stop) :=
  .here fun _ => .iterate (quotedRound_tracks twins stop)
    (fun pieces state => quotedRound_moves twins.moving state stop pieces) twins.rounds _

theorem doubleQuoted_tracks (pos : Position) (dollar : Bool) :
    bounds.Tracks kind size (doubleQuoted inner pos dollar) (doubleQuoted inner' pos dollar) :=
  .here fun opening => .skip 1 (.bind (quotedParts_tracks twins _) fun _ => .current fun _ =>
    .ite (fun _ => .skip 1 (.pure _)) fun _ => .failAt opening rfl)

theorem inlineWord_tracks {text : List Char} (fits : text.length ≤ size)
    (pos : Position) (any : Nat) :
    bounds.Tracks kind any (inlineWord inner text pos) (inlineWord inner' text pos) :=
  .bind (.within fits (quotedParts_tracks twins none)) fun _ => .pure _

/-- Behind an opening of two characters less is left than one level further out. -/
theorem substituted_tracks (opening : String) :
    bounds.Tracks (1 < ·.length) (size + 1) (substituted inner opening)
      (substituted inner' opening) := by
  refine .here fun pos => ?_
  intro spare state long short
  have drops (text : List Char) (_ : 1 < text.length) (few : text.length ≤ size + 1) :
      text.length - 2 ≤ size - 1 := by omega
  refine Tracks.skipInto 2 drops ?_ spare state long short
  refine .bind (twins.statements (size - 1) (by omega) _) fun items => .current fun _ => ?_
  exact .ite (fun _ => .skip 1 (.pure items)) fun _ => .failAt pos rfl

/-! ## Expansions -/

theorem arithmeticRound_tracks (opening : Position) (closing : String) (nested : Nested Int) :
    bounds.TracksAll size (arithmeticRound inner opening closing nested)
      (arithmeticRound inner' opening closing nested) := by
  refine .here fun pos => .rest fun text _ _ => ?_
  cases text with
  | nil => exact .failAt opening rfl
  | cons c text =>
      refine .cursor fun cursor same _ => ?_
      refine .ite (fun _ => .pure _) fun _ => .ite (fun _ => .skip 2 (.pure _)) fun _ =>
        .ite (fun _ => ?dollar) fun _ => .ite (fun _ => ?backquote) fun _ =>
        .ite (fun _ => ?quote) fun _ => .ite (fun _ => .skip 1 (.pure _)) fun _ =>
        .ite (fun _ => .skip 1 (.pure _)) fun _ => .skip 1 (.pure _)
      case dollar => exact expansion_or_literal_tracks twins
      case backquote =>
        exact .bind ((backquoted_tracks twins).imp fun _ eq => by simp [eq, same]) fun _ => .pure _
      case quote => exact .bind (doubleQuoted_tracks twins pos false) fun _ => .pure _

theorem arithmeticParts_tracks (closing : String) :
    bounds.Tracks kind size (arithmeticParts inner closing) (arithmeticParts inner' closing) :=
  .here fun opening => .bind (.iterate (arithmeticRound_tracks twins opening closing)
    (fun nested state => arithmeticRound_moves twins.moving state opening closing nested)
    twins.rounds _) fun _ => .skip _ (.pure _)

theorem operandRound_tracks (stops : List Char) (nested : Nested Nat) :
    bounds.TracksAll size (operandRound inner stops nested) (operandRound inner' stops nested) := by
  refine .here fun pos => .rest fun text _ _ => ?_
  cases text with
  | nil => exact .fail rfl
  | cons c text =>
      refine .ite (fun _ => .pure _) fun _ => .ite (fun _ => .skip 2 ?escape) fun _ =>
        .ite (fun _ => .bind (singleQuoted_tracks pos false) fun _ => .pure _) fun _ =>
        .ite (fun _ => .bind (doubleQuoted_tracks twins pos false) fun _ => .pure _) fun _ =>
        .ite (fun _ => ?backquote) fun _ => .ite (fun _ => ?dollar) fun _ =>
        .ite (fun _ => .skip 1 (.pure _)) fun _ => .ite (fun _ => .skip 1 (.pure _)) fun _ =>
        .skip 1 (.pure _)
      case escape => exact .ite (fun _ => .pure _) fun _ => .pure _
      case backquote =>
        exact .bind ((backquoted_tracks twins).imp fun _ same => by simp [same]) fun _ => .pure _
      case dollar => exact expansion_or_literal_tracks twins

theorem operand_tracks (stops : List Char) :
    bounds.Tracks kind size (operand inner stops) (operand inner' stops) :=
  .here fun _ => .bind (.iterate (operandRound_tracks twins stops)
    (fun nested state => operandRound_moves twins.moving state stops nested) twins.rounds _)
    fun _ => .pure _

theorem index_tracks : bounds.Tracks kind size (index inner) (index inner') := by
  refine .skip 1 (.here fun pos => .rest fun text _ short => ?_)
  cases bracketEnd? '[' ']' 0 1 text with
  | none => exact .skip _ (.fail rfl)
  | some length =>
      have fits : (text.take length).length ≤ size := Nat.le_trans (List.length_take_le' ..) short
      exact .skip (length + 1) (inlineWord_tracks twins fits pos size)

omit twins in
theorem question_tracks : bounds.Tracks kind size question question := by
  refine .rest fun text _ _ => ?_
  cases Question.of? text with
  | none => exact .pure _
  | some question => exact .skip 1 (.pure _)

omit twins in
theorem parameterName_tracks : bounds.Tracks kind size parameterName parameterName :=
  .rest fun _ _ _ => .ite (fun _ => .fail rfl) fun _ => .skip _ (.pure _)

theorem expand_tracks (pos : Position) (op : List Char) :
    bounds.Tracks kind size (expand inner pos op) (expand inner' pos op) :=
  .skip _ (.bind (operand_tracks twins _) fun _ => .pure _)

theorem furtherOperand_tracks (separator : Char) :
    bounds.Tracks kind size (furtherOperand inner separator) (furtherOperand inner' separator) :=
  .current fun _ => .ite (fun _ => .skip 1 (operand_tracks twins _)) fun _ => .pure _

theorem slice_tracks (pos : Position) :
    bounds.Tracks kind size (slice inner pos) (slice inner' pos) :=
  .skip 1 (.bind (operand_tracks twins _) fun _ =>
    .bind (furtherOperand_tracks twins _) fun _ => .pure _)

theorem replace_tracks (pos : Position) :
    bounds.Tracks kind size (replace inner pos) (replace inner' pos) :=
  .skip 1 (.current fun _ => .bind (skipIf_tracks _) fun _ =>
    .bind (operand_tracks twins _) fun _ => .bind (furtherOperand_tracks twins _) fun _ => .pure _)

theorem operation_tracks : bounds.Tracks kind size (operation inner) (operation inner') := by
  refine .here fun pos => .rest fun text _ _ => ?_
  cases operandOperator? text with
  | some op => exact expand_tracks twins pos op
  | none =>
      refine .rest fun text _ _ => ?_
      cases text with
      | nil => exact .pure _
      | cons c text =>
          exact .ite (fun _ => .pure _) fun _ => .ite (fun _ => slice_tracks twins pos) fun _ =>
            .ite (fun _ => replace_tracks twins pos) fun _ =>
            .ite (fun _ => .skip 2 (.pure _)) fun _ => .fail rfl

omit twins in
theorem namesMark_tracks (question : Question) :
    bounds.Tracks kind size (namesMark question) (namesMark question) :=
  .rest fun _ _ _ => .ite (fun _ => .skipped 1) fun _ => .pure ()

theorem optionalIndex_tracks :
    bounds.Tracks kind size (optionalIndex inner) (optionalIndex inner') :=
  .current fun _ => .ite (fun _ => .map some (index_tracks twins)) fun _ => .pure _

/-- The inside of a braced expansion. -/
theorem braced_tracks :
    bounds.Tracks (· ≠ []) (size + 1) (braced inner) (braced inner') := by
  refine .here fun pos => .skipInside (by decide) (fun _ filled => filled) fun less lt => ?_
  have twins := twins.smaller (Nat.le_of_lt_succ lt)
  refine .bind question_tracks fun _ => .bind parameterName_tracks fun _ =>
    .bind (optionalIndex_tracks twins) fun _ => .bind (namesMark_tracks _) fun _ =>
    .bind (operation_tracks twins) fun _ => .current fun _ => ?_
  exact .ite (fun _ => .skip 1 (.pure _)) fun _ => .failAt pos rfl

/-- An expansion comes to the level inside it behind its dollar sign. -/
theorem expansion_tracks (quoted : Bool) :
    bounds.TracksAll (size + 1) (expansion inner quoted) (expansion inner' quoted) := by
  refine .here fun pos => .rest fun text _ _ => ?_
  cases shape : text.drop 1 with
  | nil => exact .pure _
  | cons c rest =>
      have long : 1 < text.length := by
        have := congrArg List.length shape
        simp only [List.length_drop, List.length_cons] at this
        omega
      have filled : ∀ other, other = text → other ≠ [] := by
        rintro other rfl rfl
        simp at long
      have inside {α : Type} {count : Nat} (positive : 0 < count) {next next' : Reading α}
          (later : bounds.TracksAll size next next') :
          bounds.Tracks (· = text) (size + 1) (skip count >>= fun _ => next)
            (skip count >>= fun _ => next') :=
        .skipInside positive filled fun less lt => later.smaller (Nat.le_of_lt_succ lt)
      refine .ite (fun _ => .skip 1 (.map some (singleQuoted_tracks pos true))) fun _ =>
        .ite (fun _ => inside Nat.one_pos (.map some (doubleQuoted_tracks twins pos true))) fun _ =>
        .ite (fun _ => .ite (fun _ => inside (by decide) ?arithmetic) fun _ => ?substitution)
        fun _ =>
        .ite (fun _ => inside (by decide) ?brackets) fun _ =>
        .ite (fun _ => .map some ((braced_tracks twins).imp filled)) fun _ =>
        .ite (fun _ => .skip _ (.pure _)) fun _ =>
          .ite (fun _ => .skip 2 (.pure _)) fun _ => .pure _
      case arithmetic => exact .bind (arithmeticParts_tracks twins _) fun _ => .pure _
      case substitution =>
        exact .bind ((substituted_tracks twins _).imp fun _ same => same ▸ long) fun _ => .pure _
      case brackets => exact .bind (arithmeticParts_tracks twins _) fun _ => .pure _

/-! ## Words -/

omit twins in
theorem glob_tracks (mark : Char) : bounds.Tracks kind size (glob mark) (glob mark) := by
  refine .here fun pos => .skip 2 (.rest fun text _ _ => ?_)
  cases bracketEnd? '(' ')' 0 1 text with
  | none => exact .failAt pos rfl
  | some length => exact .skip (length + 1) (.pure _)

theorem wordRound_tracks (delimiters : List Char) (pieces : Pieces) :
    bounds.TracksAll size (wordRound inner delimiters pieces)
      (wordRound inner' delimiters pieces) := by
  refine .here fun pos => .rest fun text _ _ => ?_
  cases text with
  | nil => exact .pure _
  | cons c text =>
      refine .ite (fun _ => .skip 2 ?escape) fun _ => .ite (fun process => ?process) fun _ =>
        .ite (fun _ => .pure _) fun _ =>
        .ite (fun _ => .bind (glob_tracks c) fun _ => .pure _) fun _ =>
        .ite (fun _ => .bind (singleQuoted_tracks pos false) fun _ => .pure _) fun _ =>
        .ite (fun _ => .bind (doubleQuoted_tracks twins pos false) fun _ => .pure _) fun _ =>
        .ite (fun _ => ?backquote) fun _ => .ite (fun _ => ?dollar) fun _ => .skip 1 (.pure _)
      case escape => exact .ite (fun _ => .pure _) fun _ => .pure _
      case process =>
        have long : 1 < (c :: text).length := by
          cases text with
          | nil => simp at process
          | cons d text => simp
        have tracks := (substituted_tracks twins (String.ofList [c, '('])).smaller
          (Nat.le_succ size)
        exact .bind (tracks.imp fun _ same => same ▸ long) fun _ => .pure _
      case backquote =>
        exact .bind ((backquoted_tracks twins).imp fun _ same => by simp [same]) fun _ => .pure _
      case dollar => exact expansion_or_literal_tracks twins

theorem wordUpTo_tracks {delimiters : List Char} (lines : delimiters.contains '\n' = true) :
    bounds.Tracks kind size (wordUpTo inner delimiters) (wordUpTo inner' delimiters) := by
  refine .here fun pos => .bind (.iterate (wordRound_tracks twins delimiters)
    (fun pieces state => (wordRound_moves twins.moving state lines pieces).filled)
    twins.rounds _) fun parts => ?_
  refine .ite (fun _ => .current fun c => ?_) fun _ => .pure _
  cases c with
  | none | some c => exact .fail rfl

theorem word_tracks : bounds.Tracks kind size (word inner) (word inner') :=
  wordUpTo_tracks twins (by decide)

/-! ## Between words -/

theorem hereDocBody_tracks (awaited : Awaited) {text : List Char} (fits : text.length ≤ size)
    (pos : Position) (any : Nat) :
    bounds.Tracks kind any (hereDocBody inner awaited text pos)
      (hereDocBody inner' awaited text pos) :=
  .ite (fun _ => .pure _) fun _ => inlineWord_tracks twins fits pos any

omit twins in
theorem hereDocRound_tracks (awaited : Awaited) (value : Unit) :
    bounds.TracksAll size (hereDocRound awaited value) (hereDocRound awaited value) := by
  refine .cursor fun start _ _ => ?_
  cases read : start.readLine? with
  | none => exact .pure _
  | some result =>
      obtain ⟨line, next⟩ := result
      have fewer : next.rest.length ≤ start.rest.length := by
        simp only [Cursor.readLine?] at read
        split at read
        · cases read
        · cases read
          simp
      refine .bind (.moveTo fun _ same => same ▸ fewer) fun _ => ?_
      exact .ite (fun _ => .pure _) fun _ => .pure _

theorem hereDoc_tracks (awaited : Awaited) :
    bounds.TracksAll size (hereDoc inner awaited) (hereDoc inner' awaited) := by
  refine .cursor fun start _ short => .bind (.iterate (hereDocRound_tracks awaited)
    (fun value state => hereDocRound_moves state awaited value) twins.rounds ()) fun stop => ?_
  have fits : (start.rest.take (stop - start.offset)).length ≤ size :=
    Nat.le_trans (List.length_take_le' ..) short
  exact .bind (hereDocBody_tracks twins awaited fits _ _) fun body =>
    .modify (fun _ => rfl) fun _ _ => rfl

theorem newline_tracks : bounds.Tracks kind size (newline inner) (newline inner') :=
  .skip 1 (.get (fun _ _ => rfl) fun state => .bind (.modify (fun _ => rfl) fun _ _ => rfl) fun _ =>
    .forM (hereDoc_tracks twins) state.awaited)

omit twins in
theorem comment_tracks : bounds.Tracks kind size comment comment :=
  .here fun _ => .rest fun _ _ _ =>
    .skip _ (.bind (.modify (fun _ => rfl) fun _ _ => rfl) fun _ => .pure _)

theorem linebreakRound_tracks (value : Unit) :
    bounds.TracksAll size (linebreakRound inner value) (linebreakRound inner' value) := by
  refine .skipBlanks (.current fun c => ?_)
  split
  · exact .bind (newline_tracks twins) fun _ => .pure _
  · exact .bind comment_tracks fun _ =>
      .bind (.modify (fun _ => rfl) fun _ _ => rfl) fun _ => .pure _
  · exact .pure _

theorem linebreaks_tracks : bounds.Tracks kind size (linebreaks inner) (linebreaks inner') :=
  .iterate (linebreakRound_tracks twins) (fun value state => linebreakRound_moves state value)
    twins.rounds ()

end

end Bounds
end RecipeLint
