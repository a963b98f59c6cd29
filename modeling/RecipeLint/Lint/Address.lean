import RecipeLint.Lint.Violation
import RecipeLint.Mail.Mailbox
import RecipeLint.Recipe.Basic

/-!
# Comments with addresses

The maintainer and the contributors of a recipe are named in comments, each with a mailbox behind a
label.  A recipe has exactly one maintainer, in front of the first assignment and behind all
contributors, and no contributor is named twice.  How a text is read as a mailbox is left open here.
-/

namespace RecipeLint

/-- A reader of mailboxes: it accepts a text, refuses it, or fails. -/
abbrev MailboxReader (ε : Type) := List Char → Except ε (Option Mail.Mailbox)

def maintainerLabel : String := " Maintainer:"

def contributorLabel : String := " Contributor:"

def Comment.hasLabel (comment : Comment) (label : String) : Bool :=
  label.toList.isPrefixOf comment.text.toList

def withoutSpaces (text : List Char) : List Char :=
  ((text.dropWhile (· = ' ')).reverse.dropWhile (· = ' ')).reverse

structure Credit where
  comment : Comment
  mailbox : Mail.Mailbox
deriving DecidableEq, Repr

/-- The mailbox that a labelled comment names, or the violation that it is. -/
def Comment.credit (read : MailboxReader ε) (label : String) (comment : Comment) :
    Except ε (Violation ⊕ Credit) := do
  let rest := comment.text.toList.drop label.length
  let address := withoutSpaces rest
  if address.isEmpty then
    return .inl (.found .missingAddress comment.pos [])
  else if rest.head? ≠ some ' ' then
    return .inl (.found .noAddressSeparator comment.pos [])
  else
    match ← read address with
    | some mailbox => return .inr { comment, mailbox }
    | none => return .inl (.found .invalidAddress comment.pos [])

/-- The comments with one label. -/
structure Credits where
  count : Nat
  /-- Those that name a mailbox. -/
  credits : List Credit
  violations : List Violation
deriving DecidableEq, Repr

def Credits.ofComments (read : MailboxReader ε) (label : String) (comments : List Comment) :
    Except ε Credits := do
  let labelled := comments.filter (·.hasLabel label)
  let outcomes ← labelled.mapM (·.credit read label)
  return { count := labelled.length
           credits := outcomes.filterMap Sum.getRight?
           violations := outcomes.filterMap Sum.getLeft? }

def maintainerCount (maintainers : List Comment) : List Violation :=
  match maintainers with
  | [] => [{ kind := .missingMaintainer, pos := none, names := [] }]
  | [_] => []
  | _ :: comment :: comments =>
      [.found .tooManyMaintainers ((comment :: comments).getLast (by simp)).pos []]

/-- Whether the maintainer stands in front of the first assignment and behind the contributors. -/
def maintainerPlace (assigns : List Assign) (contributors : List Credit) (maintainer : Comment) :
    List Violation :=
  let early := assigns.head?.any fun assign => assign.pos.lt maintainer.pos
  let late := contributors.filter fun credit => maintainer.pos.lt credit.comment.pos
  (if early then [.found .maintainerAfterAssign maintainer.pos []] else []) ++
    late.map fun credit => .found .wrongAddrCommentOrder credit.comment.pos []

/-- The contributors who are named again, `seen` being the mailboxes named before. -/
def repeatedCredits (seen : List String) : List Credit → List Violation
  | [] => []
  | credit :: credits =>
      let mailbox := credit.mailbox.text
      let rest := repeatedCredits (mailbox :: seen) credits
      if seen.contains mailbox then
        .found .repeatedAddrComment credit.comment.pos [mailbox] :: rest
      else
        rest

def maintainerViolations (read : MailboxReader ε) (comments : List Comment)
    (assigns : List Assign) : Except ε (List Violation) := do
  let maintainers ← Credits.ofComments read maintainerLabel comments
  let contributors ← Credits.ofComments read contributorLabel comments
  let named := comments.filter (·.hasLabel maintainerLabel)
  return maintainers.violations ++ contributors.violations ++ maintainerCount named ++
    (named.head?.map (maintainerPlace assigns contributors.credits)).getD [] ++
    repeatedCredits [] contributors.credits

end RecipeLint
