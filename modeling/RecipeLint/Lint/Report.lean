import RecipeLint.Lint.Violation

/-!
# Reports

A report has one line for each violation: the name of the recipe, the position if there is one, and
the message.  Whether there was any violation at all decides the exit status in the end.
-/

namespace RecipeLint

def Violation.line (violation : Violation) (name : String) : String :=
  match violation.pos with
  | some pos => name ++ ":" ++ pos.text ++ ": " ++ violation.message
  | none => name ++ ": " ++ violation.message

/-- What has been written about recipes so far. -/
structure Report where
  written : String := ""
  found : Bool := false
deriving DecidableEq, Repr

namespace Report

def textOf (name : String) (violations : List Violation) : String :=
  String.join (violations.map fun violation => violation.line name ++ "\n")

/-- Adds the violations of one recipe and gives their number. -/
def add (report : Report) (name : String) (violations : List Violation) : Nat × Report :=
  (violations.length,
    { written := report.written ++ textOf name violations
      found := report.found || !violations.isEmpty })

end Report
end RecipeLint
