import RecipeLint.Grammar.Script
import RecipeLint.Syntax.Walk
import RecipeLint.Text.Quoted

/-!
# Recipes

A recipe is a script seen as the description of a package: the comments, assignments and functions
at its top level.  One traversal finds them.  It does not go below functions, so an assignment
inside one is never taken for a global one, nor below exports, whose names belong to the
environment.
-/

namespace RecipeLint

structure Function where
  pos : Position
  name : String
  body : Stmt
  /-- Whether the word `function` introduces it. -/
  keyword : Bool

/-- Functions with one more: in the place of the one of the same name, or else at the end. -/
def Function.insert (function : Function) : List Function → List Function
  | [] => [function]
  | other :: others =>
      if other.name = function.name then function :: others else other :: function.insert others

/-- The functions that names stand for after some declarations.  A later one takes the place of an
earlier one of the same name. -/
def Function.tabulate (functions : List Function) : List Function :=
  functions.foldl (fun table function => function.insert table) []

/-- What a recipe has at its top level. -/
structure TopLevel where
  comments : List Comment
  assigns : List Assign
  functions : List Function
  /-- The functions that names stand for. -/
  table : List Function
  table_eq : table = Function.tabulate functions

namespace TopLevel

def empty : TopLevel where
  comments := []
  assigns := []
  functions := []
  table := []
  table_eq := rfl

/-- Visits a node at the top level. -/
def classify (node : Node) (top : TopLevel) : Bool × TopLevel :=
  match node with
  | .command (.declaration _ declarator _ _) => (declarator ≠ .exported, top)
  | .command (.function pos name body keyword) =>
      let function : Function := { pos, name, body, keyword }
      (false, { top with functions := top.functions ++ [function]
                         table := function.insert top.table
                         table_eq := by
                           rw [top.table_eq, Function.tabulate, Function.tabulate,
                             List.foldl_append]
                           rfl })
  | .assign it => (true, { top with assigns := top.assigns ++ [it] })
  | .comment it => (true, { top with comments := top.comments ++ [it] })
  | _ => (true, top)

end TopLevel

structure Recipe extends TopLevel where
  script : Script

namespace Recipe

def ofScript (script : Script) : Recipe where
  script
  toTopLevel := (Node.script script).walk TopLevel.classify .empty

def parse (name : String) (text : List Char) (limit : NestingLimit := .usual) :
    Except ParseError Recipe :=
  (Script.parse name text limit).map ofScript

def name (recipe : Recipe) : String :=
  recipe.script.name

def isGlobal (recipe : Recipe) (name : String) : Bool :=
  recipe.assigns.any (·.name = name)

/-- The function that a name stands for. -/
def function? (recipe : Recipe) (name : String) : Option Function :=
  recipe.table.find? (·.name = name)

def firstFunction? (recipe : Recipe) : Option Function :=
  recipe.functions.head?

def lastFunction? (recipe : Recipe) : Option Function :=
  recipe.functions.getLast?

def summary (recipe : Recipe) : String :=
  "APKBUILD(" ++ Text.quoted recipe.name ++ ")"

end Recipe

/-- Whether a node refers to a variable: it exports the variable, expands it, or is a single-quoted
text that has its name behind a dollar sign, be that inside the quotes or in front of them. -/
def Node.refersTo (name : String) : Node → Bool
  | .command (.declaration _ .exported _ assigns) => assigns.any (·.name = name)
  | .part (.single _ text dollar) => dollar && text = name || text = "$" ++ name
  | .part (.simple _ parameter) | .part (.braced _ _ parameter _ _) => parameter = name
  | _ => false

/-- Whether nothing in a recipe refers to a variable.  The search ends with the first reference. -/
def Recipe.isUnused (recipe : Recipe) (name : String) : Bool :=
  let visit (node : Node) (found : Bool) : Bool × Bool :=
    if found then (false, found)
    else
      let found := node.refersTo name
      (!found, found)
  !(Node.script recipe.script).walk visit false

end RecipeLint
