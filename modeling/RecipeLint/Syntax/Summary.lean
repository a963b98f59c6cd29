import RecipeLint.Syntax.Walk
import RecipeLint.Text.Quoted

/-!
# Summaries

Scripts, literals, parameters, comments, assignments and functions have a summary on one line.
-/

namespace RecipeLint

/-- A summary of the given sort and content. -/
def summary (sort content : String) : String :=
  sort ++ "(" ++ content ++ ")"

/-- The summary of a part of a word, if it has one. -/
def Part.summary? : Part → Option String
  | .literal _ text => some (summary "Lit" (Text.quoted text))
  | .simple _ name => some (summary "ParamExp" ("$" ++ name))
  | .braced _ _ name _ _ => some (summary "ParamExp" ("$\x7b" ++ name ++ "\x7d"))
  | _ => none

/-- The summary of a node, if it has one. -/
def Node.summary? : Node → Option String
  | .script it =>
      some (summary "File" (it.name ++ ", " ++ Text.natText it.items.length ++ " statements"))
  | .comment it => some (summary "Comment" (Text.quoted it.text))
  | .assign it => some (summary "Assign" it.name)
  | .command (.function _ name _ _) => some (summary "FuncDecl" name)
  | .part it => it.summary?
  | _ => none

end RecipeLint
