import RecipeLint.Command.Arguments
import RecipeLint.Command.Target
import RecipeLint.Lint.Report
import RecipeLint.Settings.Basic

/-!
# The command

What the program writes and with which status it ends, as a function of its arguments and of what it
sees of its surroundings.  The recipes are checked one after the other; one that cannot be read is
complained about and passed by.
-/

namespace RecipeLint

structure LogEntry where
  level : Level
  source : String
  message : String
deriving DecidableEq, Repr

namespace LogEntry

def line (entry : LogEntry) : String :=
  entry.level.name ++ " " ++ entry.source ++ ": " ++ entry.message ++ "\n"

/-- The line of a message, or nothing if it is less important than the threshold. -/
def above (threshold : Level) (entry : LogEntry) : String :=
  if threshold.rank ≤ entry.level.rank then entry.line else ""

end LogEntry

/-- The message about keys of a configuration file that settings do not have. -/
def ConfigFile.warnings (file : ConfigFile) : List LogEntry :=
  if file.unknown.isEmpty then []
  else
    [{ level := .warning, source := "apkbuild_lint.config",
       message := "Ignoring unknown config keys in " ++ file.path.text ++ ": " ++
         ", ".intercalate file.unknown }]

def Script.logEntry (script : Script) : LogEntry where
  level := .debug
  source := "apkbuild_lint.parser.parser"
  message := "Parsed " ++ script.name ++ ": " ++ Text.natText script.items.length ++
    " top-level items"

def Recipe.logEntry (recipe : Recipe) : LogEntry where
  level := .debug
  source := "apkbuild_lint.apkbuild"
  message := recipe.name ++ ": " ++ Text.natText recipe.comments.length ++ " comments, " ++
    Text.natText recipe.assigns.length ++ " global assignments, " ++
    Text.natText recipe.functions.length ++ " functions"

def Rule.logEntry (rule : Rule) (recipe : Recipe) (violations : List Violation) : LogEntry where
  level := .debug
  source := "apkbuild_lint.rules"
  message := recipe.name ++ ": " ++ rule.name ++ " found " ++ Text.natText violations.length ++
    " violations"

def checkedEntry (path : String) (count : Nat) : LogEntry where
  level := .info
  source := "apkbuild_lint.cli"
  message := path ++ ": " ++ Text.natText count ++ " violations"

def failedEntry (path : String) : LogEntry where
  level := .debug
  source := "apkbuild_lint.cli"
  message := "Failed to lint " ++ path

structure Outcome where
  status : Nat
  output : String := ""
  errors : String := ""
deriving DecidableEq, Repr

/-- Why the program breaks off without an exit status of its own. -/
inductive RunFault where
  | settings (fault : SettingsFault)
  | mail (fault : Mail.Fault)
deriving DecidableEq, Repr

def programName : String := "apkbuild-lint"

def complaint (message : String) : String :=
  programName ++ ": " ++ message ++ "\n"

def usage : String :=
  "usage: apkbuild-lint [-h] [--version] [PATH ...]\n"

def helpText : String :=
  usage ++ "\nCheck APKBUILD files for style violations\n\npositional arguments:\n" ++
    "  PATH        APKBUILD file or directory containing one\n\noptions:\n" ++
    "  -h, --help  show this help message and exit\n" ++
    "  --version   show program's version number and exit\n\n" ++
    "CLI entry point for apkbuild-lint.\n\nUsage:\n" ++
    "    apkbuild-lint                      Lint ./APKBUILD\n" ++
    "    apkbuild-lint <path> [<path>...]   Lint files, or the APKBUILD inside directories\n\n" ++
    "Exit status is 0 when no violations were found, 1 when at least one script\n" ++
    "has violations, and 2 when a target is missing or cannot be parsed.\n"

def Flag.output : Flag → String
  | .help => helpText
  | .version => "apkbuild-lint 0.1.0\n"

/-- What is known while targets are being checked.  Reports and messages are written to one text. -/
structure Session where
  report : Report := {}
  /-- Whether some target could not be read. -/
  failed : Bool := false
deriving DecidableEq, Repr

namespace Session

def write (session : Session) (text : String) : Session :=
  { session with report.written := session.report.written ++ text }

def log (threshold : Level) (session : Session) (entry : LogEntry) : Session :=
  session.write (entry.above threshold)

def status (session : Session) : Nat :=
  if session.failed then 2 else if session.report.found then 1 else 0

end Session

/-- The messages about a script and what the rules find in it. -/
def Script.logEntries (script : Script) (findings : List (Rule × List Violation)) : List LogEntry :=
  let recipe := Recipe.ofScript script
  script.logEntry :: recipe.logEntry ::
    findings.map fun (rule, found) => rule.logEntry recipe found

/-- Writes what the rules find in a script. -/
def Session.note (threshold : Level) (session : Session) (script : Script)
    (findings : List (Rule × List Violation)) : Session :=
  let session := (script.logEntries findings).foldl (log threshold) session
  let (count, report) := session.report.add script.name (findings.flatMap (·.2))
  ({ session with report } : Session).log threshold (checkedEntry script.name count)

/-- Applies a linter to a script that has been read. -/
def Script.check (read : MailboxReader ε) (linter : Linter) (threshold : Level) (script : Script)
    (session : Session) : Except ε Session :=
  (linter.findings read (.ofScript script)).map (session.note threshold script)

/-- Checks one target. -/
def World.checkTarget (world : World) (linter : Linter) (threshold : Level) (session : Session)
    (path : Path) : Except Mail.Fault Session :=
  match world.script path.text with
  | .ok script => script.check world.mailbox linter threshold session
  | .error error =>
      let session := session.write (complaint (error.message path.text))
      .ok { session.log threshold (failedEntry path.text) with failed := true }

def World.check (world : World) (settings : Settings) (paths : List String) :
    Except Mail.Fault Outcome := do
  match world.targets settings.buildScript paths with
  | .error missing => return { status := 2, errors := complaint missing.message }
  | .ok targets =>
      let linter := Linter.make [] settings.disabledChecks
      let session ← targets.foldlM (world.checkTarget linter settings.logLevel) {}
      return { status := session.status, errors := session.report.written }

def World.lint (world : World) (paths : List String) : Except RunFault Outcome := do
  match ConfigFile.find world none with
  | .error (.fault fault) => .error (.settings fault)
  | .error (.invalid path cause) =>
      return { status := 2, errors := complaint (cause.message path) }
  | .ok file =>
      let warnings := ((file.map ConfigFile.warnings).getD []).map (·.above .warning)
      let warned := String.join warnings
      match Settings.combine world file with
      | .error (.fault fault) => .error (.settings fault)
      | .error (.invalid path cause) =>
          return { status := 2, errors := warned ++ complaint (cause.message path) }
      | .ok settings =>
          match world.check settings paths with
          | .error fault => .error (.mail fault)
          | .ok outcome => return { outcome with errors := warned ++ outcome.errors }

def World.run (world : World) (arguments : List String) : Except RunFault Outcome :=
  match Request.ofArguments arguments with
  | .error error =>
      .ok { status := 2, errors := usage ++ complaint ("error: " ++ error.detail) }
  | .ok (.flag flag) => .ok { status := 0, output := flag.output }
  | .ok (.check paths) => world.lint paths

end RecipeLint
