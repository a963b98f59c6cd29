import RecipeLint.Lint.Violation
import RecipeLint.Recipe.Basic
import RecipeLint.Recipe.Metadata

/-!
# Checks of the layout

Metadata stands on its side of the functions and none that is required is missing.  The functions of
a build are declared in the order in which they are called, and no function is declared twice.
-/

namespace RecipeLint

/-- What is wrong with the place of an assignment, given the first and the last function. -/
def Assign.misplaced? (assign : Assign) (first last : Function) : Option Violation :=
  match (Metadata.of? assign.name).map Metadata.placement with
  | some .before =>
      if first.pos.lt assign.pos then some (.found .metadataBeforeFunc assign.pos [assign.name])
      else none
  | some .after =>
      if assign.pos.le last.pos then some (.found .metadataAfterFunc assign.pos [assign.name])
      else none
  | none => none

namespace Recipe

def placementViolations (recipe : Recipe) : List Violation :=
  match recipe.firstFunction?, recipe.lastFunction? with
  | some first, some last => recipe.assigns.filterMap (·.misplaced? first last)
  | _, _ => []

def metadataViolations (recipe : Recipe) : List Violation :=
  let missing := Metadata.requiredNames.filter fun name => !recipe.isGlobal name
  missing.map fun name => { kind := .missingMetadata, pos := none, names := [name] }

end Recipe

/-- The pairs of elements of a list, the first of which stands in front of the second. -/
def orderedPairs : List α → List (α × α)
  | [] => []
  | first :: rest => rest.map (first, ·) ++ orderedPairs rest

namespace Recipe

/-- What is wrong with the order of two functions, the first of which is called earlier. -/
def inversion? (recipe : Recipe) : String × String → Option (Position × Violation)
  | (earlier, later) => do
      let first ← recipe.function? earlier
      let second ← recipe.function? later
      if second.pos.le first.pos then
        some (second.pos, .found .wrongFuncOrder second.pos [later, earlier])
      else
        none

/-- The functions of a build that are declared in front of one called earlier, by position. -/
def orderViolations (recipe : Recipe) : List Violation :=
  let inversions := (orderedPairs lifecycle).filterMap recipe.inversion?
  (inversions.mergeSort fun left right => left.1.le right.1).map (·.2)

end Recipe

/-- The declarations of functions that are declared again, `seen` being the names declared
before. -/
def repeatedFunctions (seen : List String) : List Function → List Violation
  | [] => []
  | function :: functions =>
      let rest := repeatedFunctions (function.name :: seen) functions
      if seen.contains function.name then
        .found .duplicateFuncDecl function.pos [function.name] :: rest
      else
        rest

def Recipe.duplicateViolations (recipe : Recipe) : List Violation :=
  repeatedFunctions [] recipe.functions

end RecipeLint
