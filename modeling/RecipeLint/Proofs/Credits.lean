import Mathlib.Data.Finset.Card
import Mathlib.Data.Finset.Dedup
import RecipeLint.Proofs.Selection

/-!
# Who is credited, and how

Comments with a label name the maintainer and the contributors of a recipe.  Each of them is put
down either as the credit of a mailbox or as a violation, in the order of the comments.
`maintainerViolations_exact` says that a recipe has no violation exactly if one maintainer and
distinct contributors are named properly and in their order, whatever reader of mailboxes is used.
-/

namespace RecipeLint

variable {ε : Type} {read : MailboxReader ε} {label : String}

theorem ok_of_mapM {α β : Type} {check : α → Except ε β} {values : List α} {results : List β}
    (run : values.mapM check = .ok results) : ∀ value ∈ values, ∃ result,
    check value = .ok result := by
  induction values generalizing results with
  | nil => exact nofun
  | cons value values ih =>
      rw [List.mapM_cons] at run
      obtain ⟨first, checked, run⟩ := exists_of_bind_ok run
      obtain ⟨others, further, -⟩ := exists_of_bind_ok run
      exact List.forall_mem_cons.mpr ⟨⟨first, checked⟩, ih further⟩

namespace Comment

/-- What stands behind the label of a comment. -/
def labelled (label : String) (comment : Comment) : List Char :=
  comment.text.toList.drop label.length

/-- Whether a text stands behind the label of a comment, with a space in front. -/
def Offers (label : String) (comment : Comment) : Prop :=
  (comment.labelled label).head? = some ' ' ∧ withoutSpaces (comment.labelled label) ≠ []

instance (comment : Comment) : Decidable (comment.Offers label) :=
  inferInstanceAs (Decidable (_ ∧ _))

/-- The mailbox that a comment names: the one that the reader accepts in the text that the comment
offers. -/
def mailbox? (read : MailboxReader ε) (label : String) (comment : Comment) : Option Mail.Mailbox :=
  if comment.Offers label then (read (withoutSpaces (comment.labelled label))).toOption.join
  else none

/-- Whether the reader answers, by yes or no, where it is asked about a comment. -/
def Answered (read : MailboxReader ε) (label : String) (comment : Comment) : Prop :=
  comment.Offers label → ∃ answer, read (withoutSpaces (comment.labelled label)) = .ok answer

/-- What is wrong with a comment that names no mailbox. -/
def flaw (label : String) (comment : Comment) : Violation :=
  let kind :=
    if withoutSpaces (comment.labelled label) = [] then .missingAddress
    else if comment.Offers label then .invalidAddress
    else .noAddressSeparator
  .found kind comment.pos []

theorem kind_flaw_ne (label : String) (comment : Comment) :
    (comment.flaw label).kind ≠ .repeatedAddrComment := by
  unfold flaw Violation.found
  dsimp only
  split
  · decide
  · split <;> decide

/-- What a comment is put down as if the reader answers. -/
def entry (read : MailboxReader ε) (label : String) (comment : Comment) : Violation ⊕ Credit :=
  match comment.mailbox? read label with
  | some mailbox => .inr { comment, mailbox }
  | none => .inl (comment.flaw label)

variable {comment : Comment}

theorem credit_of_not_offers (silent : ¬comment.Offers label) :
    comment.credit read label = .ok (comment.entry read label) := by
  by_cases blank : withoutSpaces (comment.labelled label) = []
  · have put : comment.entry read label = .inl (.found .missingAddress comment.pos []) := by
      simp [entry, mailbox?, flaw, silent, blank]
    rw [put]
    exact if_pos (List.isEmpty_iff.mpr blank)
  · have put : comment.entry read label = .inl (.found .noAddressSeparator comment.pos []) := by
      simp [entry, mailbox?, flaw, silent, blank]
    have tight : (comment.labelled label).head? ≠ some ' ' := fun spaced => silent ⟨spaced, blank⟩
    rw [put]
    exact (if_neg (mt List.isEmpty_iff.mp blank)).trans (if_pos tight)

/-- Where a comment offers a text, the reader is asked. -/
theorem credit_of_offers (offered : comment.Offers label) :
    comment.credit read label = (do
      match ← read (withoutSpaces (comment.labelled label)) with
      | some mailbox => return .inr { comment, mailbox }
      | none => return .inl (.found .invalidAddress comment.pos [])) :=
  (if_neg (mt List.isEmpty_iff.mp offered.2)).trans (if_neg (not_not.mpr offered.1))

theorem credit_eq (answered : comment.Answered read label) :
    comment.credit read label = .ok (comment.entry read label) := by
  by_cases offered : comment.Offers label
  · obtain ⟨answer, asked⟩ := answered offered
    have named : comment.mailbox? read label =
        answer := by simp [mailbox?, offered, asked, Except.toOption]
    rw [credit_of_offers offered, asked, entry, named]
    cases answer with
    | some mailbox => rfl
    | none => simp [flaw, offered, offered.2, bind, Except.bind, pure, Except.pure]
  · exact credit_of_not_offers offered

theorem answered_of_mailbox? (named : (comment.mailbox? read label).isSome = true) :
    comment.Answered read label := by
  intro offered
  rw [mailbox?, if_pos offered] at named
  cases asked : read (withoutSpaces (comment.labelled label)) with
  | ok answer => exact ⟨answer, rfl⟩
  | error fault => simp [asked, Except.toOption] at named

theorem answered_of_credit {outcome : Violation ⊕ Credit}
    (credited : comment.credit read label = .ok outcome) :
    comment.Answered read label := by
  intro offered
  rw [credit_of_offers offered] at credited
  obtain ⟨answer, asked, -⟩ := exists_of_bind_ok credited
  exact ⟨answer, asked⟩

end Comment

/-! ## Comments with one label -/

namespace Credits

/-- The comments with a label, each put down as a credit or as a violation. -/
def ofEntries (read : MailboxReader ε) (label : String) (comments : List Comment) : Credits :=
  let labelled := comments.filter (·.hasLabel label)
  { count := labelled.length
    credits := labelled.filterMap fun comment =>
      (comment.mailbox? read label).map fun mailbox => { comment, mailbox }
    violations := (labelled.filter fun comment => comment.mailbox? read label = none).map
      (Comment.flaw label) }

theorem count_ofEntries (read : MailboxReader ε) (label : String) (comments : List Comment) :
    (ofEntries read label comments).count =
      (ofEntries read label comments).credits.length +
      (ofEntries read label comments).violations.length := by
  have total (labelled : List Comment) : labelled.length =
      labelled.countP (fun comment => (comment.mailbox? read label).isSome) +
        (labelled.filter fun comment => comment.mailbox? read label = none).length := by
    rw [← List.countP_eq_length_filter,
      List.length_eq_countP_add_countP fun comment => (comment.mailbox? read label).isSome]
    simp
  simp only [ofEntries, List.length_filterMap_eq_countP, List.length_map, Option.isSome_map]
  exact total _

theorem filterMap_getRight?_entry (labelled : List Comment) :
    (labelled.map (·.entry read label)).filterMap Sum.getRight? = labelled.filterMap fun comment =>
      (comment.mailbox? read label).map fun mailbox => { comment, mailbox } := by
  rw [List.filterMap_map]
  refine List.filterMap_congr fun comment _ => ?_
  simp only [Function.comp_apply, Comment.entry]
  split <;> simp [*]

theorem filterMap_getLeft?_entry (labelled : List Comment) :
    (labelled.map (·.entry read label)).filterMap Sum.getLeft? =
      (labelled.filter fun comment => comment.mailbox? read label = none).map
      (Comment.flaw label) := by
  rw [List.filterMap_map, ← List.filterMap_eq_map, List.filterMap_filter]
  refine List.filterMap_congr fun comment _ => ?_
  simp only [Function.comp_apply, Comment.entry]
  split <;> simp [*]

/-- If the reader answers, all comments with the label are put down. -/
theorem ofComments_eq {comments : List Comment}
    (answered : ∀ comment ∈ comments, comment.hasLabel label → comment.Answered read label) :
    ofComments read label comments = .ok (ofEntries read label comments) := by
  have credited : ∀ comment ∈ comments.filter (·.hasLabel label),
      comment.credit read label = .ok (comment.entry read label) := by
    intro comment member
    obtain ⟨inside, labelled⟩ := List.mem_filter.mp member
    exact comment.credit_eq (answered comment inside labelled)
  rw [ofComments, mapM_ok credited]
  exact congrArg Except.ok
    (by rw [ofEntries, ← filterMap_getRight?_entry, ← filterMap_getLeft?_entry])

theorem answered_of_ofComments {comments : List Comment} {credits : Credits}
    (examined : ofComments read label comments = .ok credits) :
    ∀ comment ∈ comments, comment.hasLabel label → comment.Answered read label := by
  intro comment inside labelled
  obtain ⟨outcomes, run, -⟩ := exists_of_bind_ok examined
  obtain ⟨outcome, credited⟩ := ok_of_mapM run comment (List.mem_filter.mpr ⟨inside, labelled⟩)
  exact comment.answered_of_credit credited

end Credits

/-! ## Contributors who are named again -/

theorem kind_repeatedCredits (seen : List String) (credits : List Credit) :
    ∀ violation ∈ repeatedCredits seen credits, violation.kind = .repeatedAddrComment := by
  induction credits generalizing seen with
  | nil => exact nofun
  | cons credit credits ih =>
      unfold repeatedCredits
      dsimp only
      split
      · exact List.forall_mem_cons.mpr ⟨rfl, ih _⟩
      · exact ih _

/-- Every credit is a repetition or the first one of a mailbox that has not been seen. -/
theorem length_repeatedCredits_add (seen : List String) (credits : List Credit) :
    (repeatedCredits seen credits).length +
      ((credits.map (·.mailbox.text)).toFinset \ seen.toFinset).card = credits.length := by
  induction credits generalizing seen with
  | nil => simp [repeatedCredits]
  | cons credit credits ih =>
      have later := ih (credit.mailbox.text :: seen)
      rw [List.toFinset_cons] at later
      rw [repeatedCredits, List.map_cons, List.toFinset_cons, List.length_cons, ← later]
      split
      · next known =>
          have member : credit.mailbox.text ∈ seen.toFinset := by simpa using known
          rw [Finset.insert_eq_of_mem member, Finset.insert_sdiff_of_mem _ member, List.length_cons]
          omega
      · next fresh =>
          have outside : credit.mailbox.text ∉ seen.toFinset := by simpa using fresh
          have first : insert credit.mailbox.text (credits.map (·.mailbox.text)).toFinset \
            seen.toFinset =
              insert credit.mailbox.text
                ((credits.map (·.mailbox.text)).toFinset \ insert credit.mailbox.text
                  seen.toFinset) := by
            ext text
            by_cases same : text = credit.mailbox.text <;> simp [same, outside]
          rw [first, Finset.card_insert_of_notMem (by simp)]
          omega

theorem repeatedCredits_eq_nil_iff (credits : List Credit) :
    repeatedCredits [] credits = [] ↔ (credits.map (·.mailbox.text)).Nodup := by
  have total := length_repeatedCredits_add [] credits
  rw [List.toFinset_nil, Finset.sdiff_empty, List.card_toFinset] at total
  rw [← List.dedup_eq_self, ← List.length_eq_zero_iff]
  constructor
  · intro none
    refine (List.dedup_sublist _).eq_of_length ?_
    rw [List.length_map]
    omega
  · intro same
    rw [same, List.length_map] at total
    omega

/-! ## The maintainer -/

theorem maintainerCount_eq_nil_iff (maintainers : List Comment) :
    maintainerCount maintainers = [] ↔ ∃ maintainer, maintainers = [maintainer] := by
  match maintainers with
  | [] | [maintainer] | _ :: _ :: _ => simp [maintainerCount]

theorem maintainerPlace_eq_nil_iff (assigns : List Assign) (contributors : List Credit)
    (maintainer : Comment) :
    maintainerPlace assigns contributors maintainer = [] ↔
      (∀ assign ∈ assigns.head?, assign.pos.lt maintainer.pos = false) ∧
        ∀ credit ∈ contributors, maintainer.pos.lt credit.comment.pos = false := by
  cases assigns with
  | nil => simp [maintainerPlace]
  | cons assign assigns =>
      cases early : assign.pos.lt maintainer.pos <;> simp [maintainerPlace, early]

/-- What the maintainer and the contributors have to be: there is one maintainer, all of them are
named by mailboxes, the first assignment does not stand in front of the maintainer and no
contributor behind, and no mailbox of a contributor is named twice. -/
structure WellCredited (read : MailboxReader ε) (comments : List Comment) (assigns : List Assign)
    (maintainer : Comment) : Prop where
  sole : comments.filter (·.hasLabel maintainerLabel) = [maintainer]
  named : ∀ label ∈ [maintainerLabel, contributorLabel], ∀ comment ∈ comments,
    comment.hasLabel label →
    (comment.mailbox? read label).isSome
  ahead : ∀ assign ∈ assigns.head?, assign.pos.lt maintainer.pos = false
  behind : ∀ comment ∈ comments, comment.hasLabel contributorLabel →
    maintainer.pos.lt comment.pos = false
  distinct : (((comments.filter (·.hasLabel contributorLabel)).filterMap
    (·.mailbox? read contributorLabel)).map Mail.Mailbox.text).Nodup

/-- Whether the reader answers about all comments that name the maintainer or a contributor. -/
def AllAnswered (read : MailboxReader ε) (comments : List Comment) : Prop :=
  ∀ label ∈ [maintainerLabel, contributorLabel], ∀ comment ∈ comments, comment.hasLabel label →
    comment.Answered read label

theorem allAnswered_of_isOk {comments : List Comment}
    (asked : ∀ label ∈ [maintainerLabel, contributorLabel],
    ∀ comment ∈ comments, (read (withoutSpaces (comment.labelled label))).isOk = true) :
    AllAnswered read comments := by
  intro label known comment inside _ _
  have answered := asked label known comment inside
  cases result : read (withoutSpaces (comment.labelled label)) with
  | ok answer => exact ⟨answer, rfl⟩
  | error fault => simp [result, Except.isOk, Except.toBool] at answered

section Maintainer

variable {comments : List Comment} {assigns : List Assign} {maintainer : Comment}

theorem WellCredited.allAnswered (credited : WellCredited read comments assigns maintainer) :
    AllAnswered read comments :=
  fun label known comment inside labelled =>
    comment.answered_of_mailbox? (credited.named label known comment inside labelled)

theorem maintainerViolations_eq (answered : AllAnswered read comments) :
    maintainerViolations read comments assigns = .ok (
      (Credits.ofEntries read maintainerLabel comments).violations ++
        (Credits.ofEntries read contributorLabel comments).violations ++
        maintainerCount (comments.filter (·.hasLabel maintainerLabel)) ++
        ((comments.filter (·.hasLabel maintainerLabel)).head?.map
          (maintainerPlace assigns (Credits.ofEntries read contributorLabel comments).credits)).getD
            [] ++
        repeatedCredits [] (Credits.ofEntries read contributorLabel comments).credits) := by
  rw [maintainerViolations, Credits.ofComments_eq (answered maintainerLabel (by simp)),
    Credits.ofComments_eq (answered contributorLabel (by simp))]
  rfl

theorem allAnswered_of_ok {violations : List Violation}
    (found : maintainerViolations read comments assigns = .ok violations) :
    AllAnswered read comments := by
  obtain ⟨maintainers, first, found⟩ := exists_of_bind_ok found
  obtain ⟨contributors, second, -⟩ := exists_of_bind_ok found
  intro label known
  rcases List.mem_pair.mp known with rfl | rfl
  · exact Credits.answered_of_ofComments first
  · exact Credits.answered_of_ofComments second

end Maintainer

namespace Credits

variable {comments : List Comment}

theorem violations_ofEntries_eq_nil_iff :
    (ofEntries read label comments).violations = [] ↔
      ∀ comment ∈ comments, comment.hasLabel label → (comment.mailbox? read label).isSome := by
  simp only [ofEntries, List.map_eq_nil_iff, List.filter_eq_nil_iff, List.mem_filter,
    decide_eq_true_eq, and_imp, ← ne_eq, Option.isSome_iff_ne_none]

theorem mem_credits_ofEntries {credit : Credit} : credit ∈ (ofEntries read label comments).credits ↔
    (credit.comment ∈ comments ∧ credit.comment.hasLabel label) ∧
      credit.comment.mailbox? read label = some credit.mailbox := by
  obtain ⟨comment, mailbox⟩ := credit
  simp [ofEntries, and_assoc]

theorem mailboxes_ofEntries (read : MailboxReader ε) (label : String) (comments : List Comment) :
    (ofEntries read label comments).credits.map (·.mailbox.text) =
      ((comments.filter (·.hasLabel label)).filterMap (·.mailbox? read label)).map
      Mail.Mailbox.text := by
  simp only [ofEntries, List.map_filterMap, Option.map_map, Function.comp_def]

/-- If all comments with the label name mailboxes, a condition on their credits is one on all of
them. -/
theorem forall_mem_credits {holds : Comment → Prop}
    (named : ∀ comment ∈ comments, comment.hasLabel label → (comment.mailbox? read label).isSome) :
    (∀ credit ∈ (ofEntries read label comments).credits, holds credit.comment) ↔
      ∀ comment ∈ comments, comment.hasLabel label → holds comment := by
  constructor
  · intro all comment inside labelled
    obtain ⟨mailbox, found⟩ := Option.isSome_iff_exists.mp (named comment inside labelled)
    exact all { comment, mailbox } (mem_credits_ofEntries.mpr ⟨⟨inside, labelled⟩, found⟩)
  · intro all credit member
    obtain ⟨⟨inside, labelled⟩, -⟩ := mem_credits_ofEntries.mp member
    exact all credit.comment inside labelled

end Credits

theorem maintainerViolations_eq_nil_iff (comments : List Comment) (assigns : List Assign) :
    maintainerViolations read comments assigns = .ok [] ↔
      ∃ maintainer, WellCredited read comments assigns maintainer := by
  constructor
  · intro clean
    rw [maintainerViolations_eq (allAnswered_of_ok clean)] at clean
    have clean := Except.ok.inj clean
    simp only [List.append_eq_nil_iff] at clean
    obtain ⟨⟨⟨⟨maintainers, contributors⟩, count⟩, place⟩, repeated⟩ := clean
    obtain ⟨maintainer, sole⟩ := (maintainerCount_eq_nil_iff _).mp count
    have named := Credits.violations_ofEntries_eq_nil_iff.mp contributors
    rw [sole] at place
    obtain ⟨ahead, behind⟩ := (maintainerPlace_eq_nil_iff _ _ maintainer).mp place
    refine ⟨maintainer, sole, ?_, ahead, (Credits.forall_mem_credits named).mp behind, ?_⟩
    · intro label known
      rcases List.mem_pair.mp known with rfl | rfl
      · exact Credits.violations_ofEntries_eq_nil_iff.mp maintainers
      · exact named
    · rw [← Credits.mailboxes_ofEntries]
      exact (repeatedCredits_eq_nil_iff _).mp repeated
  · rintro ⟨maintainer, credited⟩
    have named := credited.named contributorLabel (by simp)
    have place := (maintainerPlace_eq_nil_iff assigns _ maintainer).mpr
      ⟨credited.ahead, (Credits.forall_mem_credits named).mpr credited.behind⟩
    have repeated :=
      (repeatedCredits_eq_nil_iff (Credits.ofEntries read contributorLabel comments).credits).mpr
      (Credits.mailboxes_ofEntries read contributorLabel comments ▸ credited.distinct)
    rw [maintainerViolations_eq credited.allAnswered, credited.sole, repeated,
      Credits.violations_ofEntries_eq_nil_iff.mpr (credited.named maintainerLabel (by simp)),
      Credits.violations_ofEntries_eq_nil_iff.mpr named]
    exact congrArg Except.ok (by simpa [maintainerCount] using place)

/-- Only contributors who are named again are reported as such. -/
theorem countP_repeated {comments : List Comment} {assigns : List Assign}
    {violations : List Violation}
    (found : maintainerViolations read comments assigns = .ok violations) :
    violations.countP (·.kind = .repeatedAddrComment) =
      (repeatedCredits [] (Credits.ofEntries read contributorLabel comments).credits).length := by
  rw [maintainerViolations_eq (allAnswered_of_ok found)] at found
  obtain rfl := Except.ok.inj found
  have flawed (label : String) :
      (Credits.ofEntries read label comments).violations.countP
      (·.kind = .repeatedAddrComment) = 0 := by
    simp [Credits.ofEntries, List.countP_eq_zero, Comment.kind_flaw_ne]
  have counted (maintainers : List Comment) :
      (maintainerCount maintainers).countP (·.kind = .repeatedAddrComment) = 0 := by
    match maintainers with
    | [] | [_] | _ :: _ :: _ => rfl
  have placed (maintainer : Option Comment) : ((maintainer.map (maintainerPlace assigns
      (Credits.ofEntries read contributorLabel comments).credits)).getD []).countP
        (·.kind = .repeatedAddrComment) = 0 := by
    cases maintainer with
    | none => rfl
    | some maintainer =>
        simp only [Option.map_some, Option.getD_some, maintainerPlace, List.countP_append,
          List.countP_map]
        split <;> simp [Violation.found]
  have last := List.countP_eq_length.mpr fun violation member =>
    decide_eq_true
      (kind_repeatedCredits [] (Credits.ofEntries read contributorLabel comments).credits
        violation member)
  simp only [List.countP_append, flawed, counted, placed, last, Nat.zero_add]

/-- A recipe has no violation of this rule if and only if its maintainer and contributors are
credited well. Comments with a label are put down, in their order, either as a credit or as a
violation, unless the reader fails at one of them.  The repetitions that are reported and the
distinct mailboxes of contributors together are as many as the contributors with a mailbox. -/
theorem maintainerViolations_exact (read : MailboxReader ε) (comments : List Comment)
    (assigns : List Assign) :
    (maintainerViolations read comments assigns = .ok [] ↔
      ∃ maintainer, WellCredited read comments assigns maintainer) ∧
    (∀ label, (∀ comment ∈ comments, comment.hasLabel label → comment.Answered read label) →
      ∃ credits, Credits.ofComments read label comments = .ok credits ∧
        credits.credits = ((comments.filter (·.hasLabel label)).filterMap fun comment =>
          (comment.mailbox? read label).map fun mailbox => { comment, mailbox }) ∧
        credits.violations = ((comments.filter (·.hasLabel label)).filter fun comment =>
          comment.mailbox? read label = none).map (Comment.flaw label) ∧
        credits.count = (comments.filter (·.hasLabel label)).length ∧
        credits.count = credits.credits.length + credits.violations.length) ∧
    (AllAnswered read comments → ∃ violations contributors,
      maintainerViolations read comments assigns = .ok violations ∧
        Credits.ofComments read contributorLabel comments = .ok contributors ∧
        violations.countP (·.kind = .repeatedAddrComment) =
          contributors.credits.length -
            (contributors.credits.map (·.mailbox.text)).toFinset.card) := by
  refine ⟨maintainerViolations_eq_nil_iff comments assigns, fun label answered => ?_,
    fun answered => ?_⟩
  · exact ⟨_, Credits.ofComments_eq answered, rfl, rfl, rfl,
      Credits.count_ofEntries read label comments⟩
  · have found : maintainerViolations read comments assigns = .ok _ :=
      maintainerViolations_eq answered
    refine ⟨_, _, found, Credits.ofComments_eq (answered contributorLabel (by simp)), ?_⟩
    have total :=
      length_repeatedCredits_add [] (Credits.ofEntries read contributorLabel comments).credits
    rw [List.toFinset_nil, Finset.sdiff_empty] at total
    rw [countP_repeated found]
    omega

/-- A contributor who is named twice, once with more spaces, and one without a space in front of the
address. -/
theorem maintainerViolations_exact_repeated : ∃ comments : List Comment,
    comments = [⟨⟨1, 1⟩, " Contributor: A <a@b>"⟩, ⟨⟨2, 1⟩, " Contributor:c@d"⟩,
      ⟨⟨3, 1⟩, " Contributor:   A <a@b> "⟩, ⟨⟨4, 1⟩, " Maintainer: e@f"⟩] ∧
    AllAnswered Mail.parse comments ∧ ∃ violations contributors,
      maintainerViolations Mail.parse comments [] = .ok violations ∧
        Credits.ofComments Mail.parse contributorLabel comments = .ok contributors ∧
        violations.countP (·.kind = .repeatedAddrComment) =
          contributors.credits.length -
            (contributors.credits.map (·.mailbox.text)).toFinset.card := by
  have both {comments : List Comment} (answered : AllAnswered Mail.parse comments) :=
    And.intro answered ((maintainerViolations_exact Mail.parse comments []).2.2 answered)
  exact ⟨_, rfl, both (allAnswered_of_isOk (by decide +kernel))⟩

end RecipeLint
