/-!
# Directory trees

A snapshot of a directory: the files below it with their contents, and the directories.  A path is
followed name by name from the directory itself.  Nothing is known of what lies outside except that
there are directories above.
-/

namespace RecipeLint

inductive Entry where
  | missing
  /-- Nothing, since it leads on from something that is no directory. -/
  | blocked
  | directory
  | file (octets : ByteArray)

/-- A snapshot of a directory. -/
structure FileTree where
  root : String
  /-- The files below it, each with the names on the way to it. -/
  files : List (List String × ByteArray)
  /-- The directories below it, those on the way to files and other directories not counted. -/
  directories : List (List String)

namespace FileTree

/-- What a sequence of names leads to, none of them being a double dot. -/
def get (tree : FileTree) (names : List String) : Entry :=
  match tree.files.lookup names with
  | some octets => .file octets
  | none =>
      let above (others : List String) : Bool := names.isPrefixOf others
      if names.isEmpty || tree.files.any (above ·.1) || tree.directories.any above then .directory
      else .missing

/-- Follows names from a place in a tree, `height` directories above the tree. -/
def follow (tree : FileTree) (height : Nat) (reached : List String) : List String → Entry
  | [] => if height = 0 then tree.get reached else .directory
  | name :: names =>
      if height ≠ 0 then
        if name = "" || name = "." then tree.follow height [] names
        else if name = ".." then tree.follow (height + 1) [] names
        else .missing
      else
        match tree.get reached with
        | .directory =>
            if name = "" || name = "." then tree.follow 0 reached names
            else if name = ".." then
              if reached.isEmpty then tree.follow 1 [] names
              else tree.follow 0 reached.dropLast names
            else tree.follow 0 (reached ++ [name]) names
        | .file _ | .blocked => .blocked
        | .missing => .missing

/-- What a path leads to.  A path that starts with the name of the tree leads into it. -/
def entry (tree : FileTree) (path : String) : Entry :=
  let names := (path.toList.splitOn '/').map String.ofList
  match names with
  | [""] => .missing
  | name :: rest =>
      if name = tree.root then tree.follow 0 [] rest
      else if name = "" then .missing
      else tree.follow 0 [] names
  | [] => .missing

end FileTree
end RecipeLint
