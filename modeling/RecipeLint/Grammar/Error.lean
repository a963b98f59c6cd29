import RecipeLint.Source.Position
import RecipeLint.Text.Quoted

/-!
# Why a script cannot be read

Each way in which a text fails to be a script is a `Cause`.  A `ParseError` adds the position, which
is the cursor's, or for a construct that is never closed the position where it was opened.
-/

namespace RecipeLint

/-- Why a text is not a script. -/
inductive Cause where
  /-- A character that nothing can start or go on with. -/
  | unexpected (c : Char)
  /-- A reserved word where no list of statements ends. -/
  | unexpectedWord (word : String)
  | unexpectedEnd
  | expectedWord (word : String)
  | expectedCommand
  | expectedTarget (op : String)
  | expectedName (keyword : String)
  /-- The parenthesis after the name of a function is not closed. -/
  | expectedParenthesis
  /-- The patterns of a case item are not followed by a parenthesis. -/
  | expectedPatternEnd
  | expectedFi
  | invalidFunctionName
  | invalidParameter
  | invalidOperator (c : Char)
  | unclosed (opening closing : String)
  | unclosedQuote (mark : String)
  | unclosedArithmetic (closing : String)
  | unclosedCase
  | tooDeep
  /-- More rounds of a loop were needed than were allowed for. -/
  | exhausted
deriving DecidableEq, Repr

def Cause.detail : Cause → String
  | .unexpected c => "unexpected " ++ Text.quotedChar c
  | .unexpectedWord word => "unexpected \"" ++ word ++ "\""
  | .unexpectedEnd => "unexpected end of file"
  | .expectedWord word => "expected \"" ++ word ++ "\""
  | .expectedCommand => "expected a command"
  | .expectedTarget op => op ++ " must be followed by a word"
  | .expectedName keyword => keyword ++ " must be followed by a name"
  | .expectedParenthesis => "expected ')' after '('"
  | .expectedPatternEnd => "case patterns must be followed by ')'"
  | .expectedFi => "if statement must end with a \"fi\""
  | .invalidFunctionName => "invalid function name"
  | .invalidParameter => "invalid parameter name"
  | .invalidOperator c => "invalid parameter expansion operator " ++ Text.quotedChar c
  | .unclosed opening closing =>
      "reached EOF without matching '" ++ opening ++ "' with '" ++ closing ++ "'"
  | .unclosedQuote mark => "reached EOF without closing quote " ++ mark
  | .unclosedArithmetic closing => "reached EOF without closing '" ++ closing ++ "'"
  | .unclosedCase => "reached EOF without matching \"case\" with \"esac\""
  | .tooDeep => "nesting too deep"
  | .exhausted => "reading did not come to an end"

structure ParseError where
  cause : Cause
  pos : Position
deriving DecidableEq, Repr

/-- The full message about the script of the given name. -/
def ParseError.message (error : ParseError) (name : String) : String :=
  "Parse error in " ++ name ++ " at line " ++ Text.intText error.pos.line ++ ", column " ++
    Text.intText error.pos.column ++ ": " ++ error.cause.detail

end RecipeLint
