import RecipeLint.Files.Path
import RecipeLint.Files.Tree
import RecipeLint.Lint.Address
import RecipeLint.Mail.Parse
import RecipeLint.Text.Decoding
import RecipeLint.Yaml.Load

/-!
# Surroundings

What the linter sees of its surroundings: the files that paths lead to, the environment, the home
directory, and the readers of languages that are not its own.  A recipe is read from a file under
the name of its path. -/

namespace RecipeLint

structure World where
  entry : String → Entry
  environment : String → Option String
  home : Path
  /-- How deep a recipe may be nested. -/
  limit : NestingLimit := .usual
  /-- The reader of configuration files. -/
  load : List Char → Except Yaml.LoadError Yaml.Value := Yaml.load
  /-- The reader of mailboxes. -/
  mailbox : MailboxReader Mail.Fault := Mail.parse

namespace World

def leadsSomewhere (world : World) (path : Path) : Bool :=
  match world.entry path.text with
  | .directory | .file _ => true
  | .missing | .blocked => false

def isDirectory (world : World) (path : Path) : Bool :=
  match world.entry path.text with
  | .directory => true
  | _ => false

end World

inductive ReadError where
  /-- The path holds a null character, which no name of a file does. -/
  | nameless
  | missing
  | directory
  | blocked
  | grammar (error : ParseError)
deriving DecidableEq, Repr

def ReadError.message (path : String) : ReadError → String
  | .nameless => "embedded null byte"
  | .missing => "[Errno 2] No such file or directory: " ++ Text.quoted path
  | .directory => "[Errno 21] Is a directory: " ++ Text.quoted path
  | .blocked => "[Errno 20] Not a directory: " ++ Text.quoted path
  | .grammar error => error.message path

namespace World

def script (world : World) (path : String) : Except ReadError Script :=
  if path.toList.contains '\x00' then
    .error .nameless
  else
    match world.entry path with
    | .missing => .error .missing
    | .blocked => .error .blocked
    | .directory => .error .directory
    | .file octets =>
        match Script.parse path (Text.decode octets) world.limit with
        | .ok script => .ok script
        | .error error => .error (.grammar error)

end World
end RecipeLint
