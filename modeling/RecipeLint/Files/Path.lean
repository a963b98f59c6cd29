/-!
# Paths

A path in its shortest form: repeated slashes, single dots and a slash at the end make no difference
to where it leads and are left out.  Double dots stay, because they depend on where links lead.
-/

namespace RecipeLint

structure Path where
  /-- What an absolute path starts with; empty for a relative one. -/
  anchor : String
  /-- The names between the slashes. -/
  parts : List String
deriving DecidableEq, Repr

namespace Path

/-- The names in a text between slashes, without those that lead nowhere else. -/
def partsOf (text : List Char) : List String :=
  let names := (text.splitOn '/').map String.ofList
  names.filter fun name => name ≠ "" && name ≠ "."

/-- The path that a text is.  Exactly two slashes in front are kept apart from one. -/
def ofText (text : String) : Path :=
  let anchor := match text.toList with
    | '/' :: '/' :: '/' :: _ => "/"
    | '/' :: '/' :: _ => "//"
    | '/' :: _ => "/"
    | _ => ""
  { anchor, parts := partsOf text.toList }

def text (path : Path) : String :=
  if path.anchor.isEmpty && path.parts.isEmpty then "."
  else path.anchor ++ "/".intercalate path.parts

/-- The path that leads on from the first one by the second one, unless that is absolute. -/
def join (path further : Path) : Path :=
  if further.anchor.isEmpty then { path with parts := path.parts ++ further.parts } else further

end Path
end RecipeLint
