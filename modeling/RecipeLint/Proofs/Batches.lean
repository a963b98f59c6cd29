import Mathlib.Data.List.TakeDrop
import Mathlib.Data.List.TakeWhile
import RecipeLint.Command.Run
import RecipeLint.Proofs.Reports
import RecipeLint.Proofs.Selection

/-!
# Several targets at once

The targets of one call are checked each on its own.  What is written is what would be written about
each of them alone, one after the other, and the status is the worst one.  A target that leads
nowhere is noticed before any of them is checked. -/

namespace RecipeLint

/-! ## Paths as arguments -/

namespace Request

end Request

/-! ## The outcome of several calls -/

/-- What several calls leave behind together: their texts one after the other, and the worst
status. -/
def Outcome.total (outcomes : List Outcome) : Outcome where
  status := (outcomes.map Outcome.status).foldl max 0
  errors := String.join (outcomes.map Outcome.errors)

namespace Session

/-- What is known after two pieces of work, the second of which started from nothing. -/
def behind (before after : Session) : Session where
  report :=
    { written := before.report.written ++ after.report.written
      found := before.report.found || after.report.found }
  failed := before.failed || after.failed

/-- What a call leaves behind that ends here. -/
def outcome (session : Session) : Outcome where
  status := session.status
  errors := session.report.written

end Session

namespace World

end World

namespace World

variable {world : World} {settings : Settings} {path : String} {paths : List String}

/-- The place where the recipe that a path stands for has to be. -/
def place (world : World) (settings : Settings) (path : String) : Path :=
  if world.isDirectory (.ofText path) then (Path.ofText path).join (.ofText settings.buildScript)
  else .ofText path

end World
end RecipeLint
