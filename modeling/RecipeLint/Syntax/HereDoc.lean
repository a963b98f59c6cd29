import RecipeLint.Syntax.Tree

/-!
# Here-documents

The lines of a here-document follow the line of its redirection, so they are read when the
redirection is already part of a tree.  They are kept apart under the redirection's position and put
in place when the text is complete.  A text that was read on its own (an index, the inside of
backquotes, the lines of another here-document) already has its own in place.
-/

namespace RecipeLint

/-- The delimiter that a redirection's word stands for, and whether any of it is quoted. -/
def Part.delimiter : Part → List Char × Bool
  | .literal _ text => (text.toList.filter (· ≠ '\\'), text.toList.contains '\\')
  | .single _ text _ => (text.toList, true)
  | .double _ parts _ => ((parts.filterMap Part.literal?).flatMap String.toList, true)
  | _ => ([], true)

/-- A here-document whose lines have not been reached. -/
structure Awaited where
  pos : Position
  /-- Whether tabs in front of the closing line are ignored. -/
  tabs : Bool
  delimiter : List Char
  /-- Whether its lines are taken literally. -/
  quoted : Bool
deriving Repr

namespace Awaited

def ofRedirect (redirect : Redirect) : Awaited :=
  let pieces := redirect.target.parts.map Part.delimiter
  { pos := redirect.pos
    tabs := redirect.op = .hereDocTabs
    delimiter := pieces.flatMap (·.1)
    quoted := pieces.any (·.2) }

/-- Whether a line closes the here-document.  Carriage returns at its end are ignored. -/
def closedBy (awaited : Awaited) (line : List Char) : Bool :=
  let line := if awaited.tabs then line.dropWhile (· = '\t') else line
  (line.reverse.dropWhile (· = '\r')).reverse = awaited.delimiter

end Awaited

/-- The here-documents that have been read, by the positions of their redirections. -/
abbrev Bodies := List (Position × Word)

mutual

/-- Puts here-documents in place below a word. -/
def Word.place (bodies : Bodies) : Word → Word
  | { pos, parts } => { pos, parts := placeParts bodies parts }

def placeParts (bodies : Bodies) : List Part → List Part
  | [] => []
  | part :: parts => part.place bodies :: placeParts bodies parts

def Part.place (bodies : Bodies) : Part → Part
  | .double pos parts dollar => .double pos (placeParts bodies parts) dollar
  | .braced pos question name index operation =>
      .braced pos question name index (placeOperation bodies operation)
  | .substitution pos body false => .substitution pos (placeItems bodies body) false
  | .arithmetic pos parts bracketed => .arithmetic pos (placeParts bodies parts) bracketed
  | .process pos direction body => .process pos direction (placeItems bodies body)
  | .literal pos text => .literal pos text
  | .single pos text dollar => .single pos text dollar
  | .simple pos name => .simple pos name
  | .substitution pos body true => .substitution pos body true
  | .glob pos mark pattern => .glob pos mark pattern

def placeWord (bodies : Bodies) : Option Word → Option Word
  | none => none
  | some word => some (word.place bodies)

def placeOperation (bodies : Bodies) : Option Operation → Option Operation
  | none => none
  | some operation => some (operation.place bodies)

def Operation.place (bodies : Bodies) : Operation → Operation
  | .slice pos offset length => .slice pos (placeWord bodies offset) (placeWord bodies length)
  | .replace pos everywhere pattern replacement =>
      .replace pos everywhere (placeWord bodies pattern) (placeWord bodies replacement)
  | .expand pos op operand => .expand pos op (placeWord bodies operand)

def placeWords (bodies : Bodies) : List Word → List Word
  | [] => []
  | word :: words => word.place bodies :: placeWords bodies words

def Value.place (bodies : Bodies) : Value → Value
  | .naked => .naked
  | .empty => .empty
  | .scalar word => .scalar (word.place bodies)
  | .array elements => .array (placeWords bodies elements)

def Assign.place (bodies : Bodies) : Assign → Assign
  | { pos, name, index, append, value } =>
      { pos, name, index, append, value := value.place bodies }

def placeAssigns (bodies : Bodies) : List Assign → List Assign
  | [] => []
  | assign :: assigns => assign.place bodies :: placeAssigns bodies assigns

/-- Puts here-documents in place at a redirection and below it. -/
def Redirect.place (bodies : Bodies) : Redirect → Redirect
  | { pos, op, fd, target, body := none } =>
      { pos, op, fd, target := target.place bodies, body := bodies.lookup pos }
  | { pos, op, fd, target, body := some body } =>
      { pos, op, fd, target := target.place bodies, body := some body }

def placeRedirects (bodies : Bodies) : List Redirect → List Redirect
  | [] => []
  | redirect :: redirects => redirect.place bodies :: placeRedirects bodies redirects

def Item.place (bodies : Bodies) : Item → Item
  | .comment remark => .comment remark
  | .stmt statement => .stmt (statement.place bodies)

def placeItems (bodies : Bodies) : List Item → List Item
  | [] => []
  | item :: items => item.place bodies :: placeItems bodies items

def Stmt.place (bodies : Bodies) : Stmt → Stmt
  | { pos, command, redirects, negated, background } =>
      { pos
        command := placeCommand bodies command
        redirects := placeRedirects bodies redirects
        negated
        background }

def placeCommand (bodies : Bodies) : Option Command → Option Command
  | none => none
  | some command => some (command.place bodies)

def Command.place (bodies : Bodies) : Command → Command
  | .call pos assigns args => .call pos (placeAssigns bodies assigns) (placeWords bodies args)
  | .declaration pos declarator opts assigns =>
      .declaration pos declarator (placeWords bodies opts) (placeAssigns bodies assigns)
  | .evaluation pos exprs => .evaluation pos (placeWords bodies exprs)
  | .function pos name body keyword => .function pos name (body.place bodies) keyword
  | .block pos body => .block pos (placeItems bodies body)
  | .subshell pos body => .subshell pos (placeItems bodies body)
  | .conditional pos condition consequence alternative =>
      .conditional pos (placeItems bodies condition) (placeItems bodies consequence)
        (placeItems bodies alternative)
  | .loop pos condition body untilTrue =>
      .loop pos (placeItems bodies condition) (placeItems bodies body) untilTrue
  | .iteration pos range body select =>
      .iteration pos (range.place bodies) (placeItems bodies body) select
  | .case pos subject items => .case pos (subject.place bodies) (placeCaseItems bodies items)
  | .binary pos connective left right =>
      .binary pos connective (left.place bodies) (right.place bodies)
  | .test pos words => .test pos (placeWords bodies words)
  | .arithmetic pos expr => .arithmetic pos (expr.place bodies)

def Range.place (bodies : Bodies) : Range → Range
  | .words pos name items listed => .words pos name (placeWords bodies items) listed
  | .arithmetic pos expr => .arithmetic pos (expr.place bodies)

def CaseItem.place (bodies : Bodies) : CaseItem → CaseItem
  | { pos, patterns, body, ending } =>
      { pos, patterns := placeWords bodies patterns, body := placeItems bodies body, ending }

def placeCaseItems (bodies : Bodies) : List CaseItem → List CaseItem
  | [] => []
  | item :: items => item.place bodies :: placeCaseItems bodies items

end

end RecipeLint
