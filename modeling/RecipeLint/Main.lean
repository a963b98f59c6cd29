import RecipeLint.Command.Run

/-!
# The program

The command line itself.  It looks at the files that the command may ask for, hands what it saw to
`World.run`, and writes the outcome.
-/

namespace RecipeLint

def look (path : String) : IO Entry := do
  let place := (← IO.currentDir) / path
  if ← place.isDir then
    return .directory
  else if ← place.pathExists then
    return .file (← IO.FS.readBinFile place)
  else
    return .missing

/-- What is seen of the surroundings by looking at some paths. -/
def survey (seen : World) (paths : List String) : IO World := do
  let entries ← paths.mapM fun path => return (path, ← look path)
  let names := ["APKBUILD_LINT_CONFIG", "APKBUILD_LINT_BUILD_SCRIPT", "APKBUILD_LINT_LOG_LEVEL",
    "APKBUILD_LINT_DISABLE", "HOME"]
  let values ← names.mapM fun name => return (name, ← IO.getEnv name)
  let environment (name : String) : Option String := (values.lookup name).join
  return { entry := fun path => (entries.lookup path).getD (seen.entry path)
           environment
           home := .ofText ((environment "HOME").getD "") }

/-- The paths that a check of the given paths may lead to. -/
def World.asked (world : World) (paths : List String) : List String :=
  let script := ((Settings.load world none).toOption.map Settings.buildScript).getD ""
  let starts := (if paths.isEmpty then [script] else paths).map Path.ofText
  (starts ++ starts.map (·.join (.ofText script))).map Path.text

/-- What is seen of the surroundings that matters for the arguments. -/
def surroundings (arguments : List String) : IO World := do
  let nothing : World :=
    { entry := fun _ => .missing, environment := fun _ => none, home := .ofText "" }
  match Request.ofArguments arguments with
  | .ok (.check paths) =>
      let world ← survey nothing []
      let world ← survey world ((ConfigFile.candidates world none).map Path.text)
      survey world (world.asked paths)
  | _ => return nothing

end RecipeLint

def main (arguments : List String) : IO UInt32 := do
  let world ← RecipeLint.surroundings arguments
  match world.run arguments with
  | .ok outcome =>
      (← IO.getStdout).putStr outcome.output
      (← IO.getStderr).putStr outcome.errors
      return UInt32.ofNat outcome.status
  | .error _ =>
      (← IO.getStderr).putStr (RecipeLint.complaint "the check was broken off")
      return 1
