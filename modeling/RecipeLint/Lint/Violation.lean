import RecipeLint.Source.Position
import RecipeLint.Text.Quoted

/-!
# Violations

What a check finds is a violation of some kind, at a position or of the recipe as a whole.  The
message of a kind is a sentence with gaps for the names that it speaks of.
-/

namespace RecipeLint

inductive ViolationKind where
  | badCommentPrefix
  | missingMaintainer
  | tooManyMaintainers
  | maintainerAfterAssign
  | missingAddress
  | noAddressSeparator
  | invalidAddress
  | wrongAddrCommentOrder
  | repeatedAddrComment
  | invalidGlobalVar
  | variableUnused
  | cmdSubstInGlobalVar
  | nonLocalVariable
  | trivialLongParamExp
  | metadataBeforeFunc
  | metadataAfterFunc
  | missingMetadata
  | wrongFuncOrder
  | duplicateFuncDecl
  | forbiddenBashism
deriving DecidableEq, Repr

namespace ViolationKind

def all : List ViolationKind :=
  [.badCommentPrefix, .missingMaintainer, .tooManyMaintainers, .maintainerAfterAssign,
    .missingAddress, .noAddressSeparator, .invalidAddress, .wrongAddrCommentOrder,
    .repeatedAddrComment, .invalidGlobalVar, .variableUnused, .cmdSubstInGlobalVar,
    .nonLocalVariable, .trivialLongParamExp, .metadataBeforeFunc, .metadataAfterFunc,
    .missingMetadata, .wrongFuncOrder, .duplicateFuncDecl, .forbiddenBashism]

def text : ViolationKind → String
  | .badCommentPrefix => "BadCommentPrefix"
  | .missingMaintainer => "MissingMaintainer"
  | .tooManyMaintainers => "TooManyMaintainers"
  | .maintainerAfterAssign => "MaintainerAfterAssign"
  | .missingAddress => "MissingAddress"
  | .noAddressSeparator => "NoAddressSeparator"
  | .invalidAddress => "InvalidAddress"
  | .wrongAddrCommentOrder => "WrongAddrCommentOrder"
  | .repeatedAddrComment => "RepeatedAddrComment"
  | .invalidGlobalVar => "InvalidGlobalVar"
  | .variableUnused => "VariableUnused"
  | .cmdSubstInGlobalVar => "CmdSubstInGlobalVar"
  | .nonLocalVariable => "NonLocalVariable"
  | .trivialLongParamExp => "TrivialLongParamExp"
  | .metadataBeforeFunc => "MetadataBeforeFunc"
  | .metadataAfterFunc => "MetadataAfterFunc"
  | .missingMetadata => "MissingMetadata"
  | .wrongFuncOrder => "WrongFuncOrder"
  | .duplicateFuncDecl => "DuplicateFuncDecl"
  | .forbiddenBashism => "ForbiddenBashism"

def of? (name : String) : Option ViolationKind :=
  all.find? (·.text = name)

/-- The sentence that reports a kind: its first text, and the texts behind each of its gaps. -/
def sentence : ViolationKind → String × List String
  | .badCommentPrefix => ("Comment doesn't start with a space", [])
  | .missingMaintainer => ("Maintainer is missing", [])
  | .tooManyMaintainers => ("Only one maintainer can be specified", [])
  | .maintainerAfterAssign =>
      ("Maintainer comment must be placed before the first variable assignment", [])
  | .missingAddress => ("Comment is missing an RFC 5322 address", [])
  | .noAddressSeparator => ("Mail address should be separated from prefix with a space", [])
  | .invalidAddress => ("Mail address doesn't conform to RFC 5322", [])
  | .wrongAddrCommentOrder =>
      ("Contributor comments must be placed before the maintainer comment", [])
  | .repeatedAddrComment => ("Contributor ", [" is listed more than once"])
  | .invalidGlobalVar => ("Custom global variables should start with an '_': ", [""])
  | .variableUnused => ("Variable ", [" is set but never used"])
  | .cmdSubstInGlobalVar => ("Command substitution is not allowed in the global scope", [])
  | .nonLocalVariable => ("Variable ", [" should be declared local inside the function"])
  | .trivialLongParamExp => ("Braces are not needed for $\x7b", ["\x7d, use $", " instead"])
  | .metadataBeforeFunc => ("Metadata variable ", [" must be declared before the first function"])
  | .metadataAfterFunc => ("Metadata variable ", [" must be declared after the last function"])
  | .missingMetadata => ("Required metadata variable ", [" is missing"])
  | .wrongFuncOrder => ("Function ", [" must be declared after function ", ""])
  | .duplicateFuncDecl => ("Function ", [" is declared more than once"])
  | .forbiddenBashism => ("Found forbidden bashism: ", [""])

def arity (kind : ViolationKind) : Nat :=
  kind.sentence.2.length

end ViolationKind

/-- The texts with the names in front of them, as far as there are texts. -/
def fillGaps : List String → List String → String
  | [], _ => ""
  | text :: texts, [] => text ++ fillGaps texts []
  | text :: texts, name :: names => name ++ text ++ fillGaps texts names

structure Violation where
  kind : ViolationKind
  /-- Where it is; nothing if it concerns the whole recipe. -/
  pos : Option Position
  names : List String
deriving DecidableEq, Repr

inductive ViolationFault where
  | unknownKind (name : String)
  /-- The message speaks of more names than are given. -/
  | missingName (given : Nat)
deriving DecidableEq, Repr

def ViolationFault.message : ViolationFault → String
  | .unknownKind name => Text.quoted name ++ " is not a valid ViolationKind"
  | .missingName given =>
      "Replacement index " ++ Text.natText given ++ " out of range for positional args tuple"

namespace Violation

/-- A violation of the kind of the given name, if there are names for all gaps of its message. -/
def make (kind : String) (pos : Option Position) (names : List String) :
    Except ViolationFault Violation :=
  match ViolationKind.of? kind with
  | none => .error (.unknownKind kind)
  | some kind =>
      if names.length < kind.arity then .error (.missingName names.length)
      else .ok { kind, pos, names }

def found (kind : ViolationKind) (pos : Position) (names : List String) : Violation where
  kind
  pos := some pos
  names

def message (violation : Violation) : String :=
  violation.kind.sentence.1 ++ fillGaps violation.kind.sentence.2 violation.names

def text (violation : Violation) : String :=
  match violation.pos with
  | some pos => pos.text ++ ": " ++ violation.message
  | none => violation.message

end Violation
end RecipeLint
