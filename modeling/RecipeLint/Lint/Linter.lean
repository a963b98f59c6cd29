import RecipeLint.Lint.Address
import RecipeLint.Lint.Dialect
import RecipeLint.Lint.Layout
import RecipeLint.Lint.Variables
import RecipeLint.Mail.Parse

/-!
# The linter

Every rule is a check of its own.  A linter applies some rules to a recipe, one after the other, and
gives their violations in that order.
-/

namespace RecipeLint

inductive Rule where
  | comments
  | maintainer
  | globalVariables
  | unusedVariables
  | globalSubstitutions
  | localVariables
  | paramExpansions
  | metadataPlacement
  | requiredMetadata
  | functionOrder
  | duplicateFunctions
  | bashisms
deriving DecidableEq, Repr

namespace Rule

def all : List Rule :=
  [.comments, .maintainer, .globalVariables, .unusedVariables, .globalSubstitutions,
    .localVariables, .paramExpansions, .metadataPlacement, .requiredMetadata, .functionOrder,
    .duplicateFunctions, .bashisms]

def name : Rule → String
  | .comments => "comments"
  | .maintainer => "maintainer"
  | .globalVariables => "global-variables"
  | .unusedVariables => "unused-variables"
  | .globalSubstitutions => "global-cmd-substs"
  | .localVariables => "local-variables"
  | .paramExpansions => "param-expansions"
  | .metadataPlacement => "metadata-placement"
  | .requiredMetadata => "required-metadata"
  | .functionOrder => "function-order"
  | .duplicateFunctions => "duplicate-functions"
  | .bashisms => "bashisms"

def names : List String :=
  all.map name

def of? (name : String) : Option Rule :=
  all.find? (·.name = name)

/-- The violations of a rule, mailboxes being read by the given reader. -/
def checkWith (read : MailboxReader ε) (recipe : Recipe) : Rule → Except ε (List Violation)
  | .comments => return recipe.commentViolations
  | .maintainer => maintainerViolations read recipe.comments recipe.assigns
  | .globalVariables => return recipe.globalViolations
  | .unusedVariables => return recipe.unusedViolations
  | .globalSubstitutions => return recipe.substitutionViolations
  | .localVariables => return recipe.localViolations
  | .paramExpansions => return recipe.braceViolations
  | .metadataPlacement => return recipe.placementViolations
  | .requiredMetadata => return recipe.metadataViolations
  | .functionOrder => return recipe.orderViolations
  | .duplicateFunctions => return recipe.duplicateViolations
  | .bashisms => return recipe.dialectViolations

def check (rule : Rule) (recipe : Recipe) : Except Mail.Fault (List Violation) :=
  rule.checkWith Mail.parse recipe

end Rule

structure Linter where
  rules : List Rule
deriving DecidableEq, Repr

namespace Linter

/-- A linter with the given rules, or all if none are given, but without the disabled ones. -/
def make (rules : List Rule) (disabled : List String) : Linter where
  rules := (if rules.isEmpty then Rule.all else rules).filter fun rule =>
    !disabled.contains rule.name

/-- What the rules find, mailboxes being read by the given reader. -/
def findings (read : MailboxReader ε) (linter : Linter) (recipe : Recipe) :
    Except ε (List (Rule × List Violation)) :=
  linter.rules.mapM fun rule => do return (rule, ← rule.checkWith read recipe)

def lintWith (read : MailboxReader ε) (linter : Linter) (recipe : Recipe) :
    Except ε (List Violation) := do
  return (← linter.findings read recipe).flatMap (·.2)

def lint (linter : Linter) (recipe : Recipe) : Except Mail.Fault (List Violation) :=
  linter.lintWith Mail.parse recipe

end Linter
end RecipeLint
