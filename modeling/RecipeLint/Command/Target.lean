import RecipeLint.Files.World

/-!
# Targets

The paths on the command line stand for recipes: a directory for the one in it, and no paths at all
for the one in the working directory.  All of them are looked up before any is checked.
-/

namespace RecipeLint

/-- A path leads nowhere. -/
structure TargetMissing where
  path : Path
deriving DecidableEq, Repr

def TargetMissing.message (fault : TargetMissing) : String :=
  fault.path.text ++ ": no such file or directory"

namespace World

/-- The recipe that a path stands for. -/
def target (world : World) (buildScript path : String) : Except TargetMissing Path :=
  let path := Path.ofText path
  let path := if world.isDirectory path then path.join (.ofText buildScript) else path
  if world.leadsSomewhere path then .ok path else .error ⟨path⟩

def targets (world : World) (buildScript : String) (paths : List String) :
    Except TargetMissing (List Path) :=
  (if paths.isEmpty then [buildScript] else paths).mapM (world.target buildScript)

end World
end RecipeLint
