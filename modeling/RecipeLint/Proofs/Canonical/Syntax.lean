import Mathlib.Data.List.Chain
import RecipeLint.Proofs.Running

/-!
# The core language and its canonical spelling

The constructs that recipes are mostly made of: simple commands with assignments and arguments,
pipelines and their combinations, and the compound commands of the POSIX shell.  Every construct has
a `Form`: the text that it is written as, and the tree that this text stands for wherever it starts.
Each element of a list is written on a line of its own.
-/

namespace RecipeLint

namespace Canonical

/-- A text and the tree that it stands for, by the position where the text starts. -/
structure Form (α : Type) where
  text : List Char
  tree : Position → α

namespace Form

variable {α β : Type}

/-- A form behind some text. -/
def behind (front : List Char) (form : Form α) : Form α where
  text := front ++ form.text
  tree pos := form.tree (pos.along front)

/-- Forms one after the other. -/
def sequence : List (Form α) → Form (List α)
  | [] => { text := [], tree := fun _ => [] }
  | form :: forms =>
      { text := form.text ++ (sequence forms).text
        tree := fun pos => form.tree pos :: (sequence forms).tree (pos.along form.text) }

end Form

/-! ## Words -/

/-- Whether a character may stand in a literal. -/
def isSolid (c : Char) : Bool :=
  isNameChar c || ['.', '/', '-', ':', ',', '%'].contains c

/-- A literal. -/
structure Text where
  chars : List Char
  filled : chars ≠ []
  solid : ∀ c ∈ chars, isSolid c = true

/-- The name of a variable. -/
structure Name where
  chars : List Char
  named : isName chars = true

/-- A part of a word that means the same in double quotes and without quotes. -/
inductive Bare where
  /-- A literal. -/
  | literal (text : Text)
  /-- A parameter: `$name`. -/
  | parameter (name : Name)

namespace Bare

def form : Bare → Form Part
  | literal text =>
      { text := text.chars, tree := fun pos => .literal pos (String.ofList text.chars) }
  | parameter name =>
      { text := '$' :: name.chars, tree := fun pos => .simple pos (String.ofList name.chars) }

/-- Two parts that can be told apart when they follow each other. -/
def Precedes : Bare → Bare → Prop
  | literal _, literal _ => False
  | parameter _, literal text => ∀ c ∈ text.chars.head?, isNameChar c = false
  | _, parameter _ => True

/-- The number of levels that reading the part takes. -/
def levels : Bare → Nat
  | literal _ => 0
  | parameter _ => 1

end Bare

/-- A part of a word. -/
inductive Piece where
  | bare (part : Bare)
  /-- A text in single quotes. -/
  | single (text : List Char) (unquoted : '\'' ∉ text)
  /-- Parts in double quotes. -/
  | double (parts : List Bare) (apart : parts.IsChain Bare.Precedes)

namespace Piece

def form : Piece → Form Part
  | bare part => part.form
  | single text _ =>
      { text := '\'' :: text ++ ['\''], tree := fun pos => .single pos (String.ofList text) false }
  | double parts _ =>
      { text := ['"'] ++ ((Form.sequence (parts.map Bare.form)).text ++ ['"'])
        tree := fun pos =>
          .double pos ((Form.sequence (parts.map Bare.form)).tree (pos.along ['"'])) false }

/-- Two parts that can be told apart when they follow each other. -/
def Precedes : Piece → Piece → Prop
  | bare first, bare second => first.Precedes second
  | _, _ => True

def levels : Piece → Nat
  | bare part => part.levels
  | single _ _ => 0
  | double parts _ => (parts.map Bare.levels).foldr max 0

end Piece

/-- A word. -/
structure Word where
  pieces : List Piece
  filled : pieces ≠ []
  apart : pieces.IsChain Piece.Precedes

/-- The words with a meaning of their own in the place of a command. -/
def reserved : List String :=
  listTerminators ++ compoundWords ++ Declarator.all.map Declarator.text ++ ["let"]

namespace Word

def form (word : Word) : Form RecipeLint.Word where
  text := (Form.sequence (word.pieces.map Piece.form)).text
  tree pos := { pos, parts := (Form.sequence (word.pieces.map Piece.form)).tree pos }

def levels (word : Word) : Nat :=
  (word.pieces.map Piece.levels).foldr max 0

/-- The characters of a word that is a literal. -/
def literal? (word : Word) : Option (List Char) :=
  match word.pieces with
  | [.bare (.literal text)] => some text.chars
  | _ => none

/-- The word is not a reserved one. -/
def Ordinary (word : Word) : Prop :=
  ∀ text ∈ word.literal?, String.ofList text ∉ reserved

end Word

/-! ## Simple commands -/

/-- An assignment of a word, or of nothing. -/
structure Assign where
  name : Name
  append : Bool
  value : Option Word

namespace Assign

/-- The variable and the operator. -/
def head (assign : Assign) : List Char :=
  assign.name.chars ++ (if assign.append then ['+', '='] else ['='])

/-- The assigned value with its text. -/
def valueForm : Option Word → Form Value
  | none => { text := [], tree := fun _ => .empty }
  | some word => { text := word.form.text, tree := fun pos => .scalar (word.form.tree pos) }

def form (assign : Assign) : Form RecipeLint.Assign where
  text := assign.head ++ (valueForm assign.value).text
  tree pos :=
    { pos
      name := String.ofList assign.name.chars
      index := none
      append := assign.append
      value := (valueForm assign.value).tree (pos.along assign.head) }

def levels (assign : Assign) : Nat :=
  assign.value.elim 0 Word.levels

end Assign

/-- A simple command. -/
structure Call where
  assigns : List Assign
  args : List Word
  filled : assigns ≠ [] ∨ args ≠ []
  ordinary : ∀ word ∈ args.head?, word.Ordinary

namespace Call

/-- Words with a blank in front of each. -/
def spaced (words : List Word) : Form (List RecipeLint.Word) :=
  .sequence (words.map fun word => word.form.behind [' '])

def form (call : Call) : Form Stmt :=
  match call.assigns, call.args with
  | [], [] => { text := [], tree := fun pos => .ofDraft pos none [] }
  | [], word :: words =>
      { text := word.form.text ++ (spaced words).text
        tree := fun pos => .ofDraft pos (some (.call pos []
          (word.form.tree pos :: (spaced words).tree (pos.along word.form.text)))) [] }
  | assign :: assigns, words =>
      let further : Form (List RecipeLint.Assign) :=
        .sequence (assigns.map fun assign => assign.form.behind [' '])
      { text := assign.form.text ++ (further.text ++ (spaced words).text)
        tree := fun pos => .ofDraft pos (some (.call pos
          (assign.form.tree pos :: further.tree (pos.along assign.form.text))
          ((spaced words).tree ((pos.along assign.form.text).along further.text)))) [] }

def levels (call : Call) : Nat :=
  (call.assigns.map Assign.levels ++ call.args.map Word.levels).foldr max 0

end Call

/-! ## Commands -/

mutual

/-- A command. -/
inductive Command where
  /-- A simple command. -/
  | call (call : Call)
  | block (body : List Item)
  | subshell (body : List Item)
  /-- A conditional without an alternative. -/
  | conditional (condition consequence : List Item)
  /-- A conditional with an alternative. -/
  | choice (condition consequence alternative : List Item)
  /-- A loop while a condition holds, or until it does. -/
  | loop (untilTrue : Bool) (condition body : List Item)
  /-- A loop over words. -/
  | iteration (name : Name) (words : List Word) (body : List Item)
  /-- A choice by patterns. -/
  | case (subject : Word) (branches : List Branch)
  /-- A declaration of a function. -/
  | function (name : Text) (ordinary : String.ofList name.chars ∉ reserved) (body : List Item)

/-- An item of a choice by patterns. -/
inductive Branch where
  | mk (pattern : Word) (further : List Word)
      (ordinary : ∀ word ∈ pattern :: further, word.Ordinary) (body : List Item)

/-- Commands joined by pipes, negated as a whole or not. -/
inductive Pipeline where
  | mk (negated : Bool) (first : Command) (further : List Command)

/-- A pipeline behind a logical operator. -/
inductive Further where
  | mk (both : Bool) (pipeline : Pipeline)

/-- An element of a list: pipelines joined by logical operators, run in the background or not. -/
inductive Item where
  | mk (first : Pipeline) (further : List Further) (background : Bool)

end

namespace Form

/-- Elements of a list, each on a line of its own. -/
def lines (forms : List (Form Stmt)) : Form (List RecipeLint.Item) :=
  .sequence (forms.map fun form =>
    { text := form.text ++ ['\n'], tree := fun pos => .stmt (form.tree pos) })

/-- A list behind what separates it from the text that opens it. -/
def list (gap : List Char) (forms : List (Form Stmt)) : Form (List RecipeLint.Item) :=
  (lines forms).behind gap

/-- A list between two brackets. -/
def enclosed (opening closing : Char) (command : Position → List RecipeLint.Item →
    RecipeLint.Command)
    (body : Form (List RecipeLint.Item)) : Form Stmt where
  text := [opening] ++ (body.text ++ [closing])
  tree pos := .ofDraft pos (some (command pos (body.tree (pos.along [opening])))) []

/-- The alternative of a conditional up to its end. -/
def alternative (body : Form (List RecipeLint.Item)) : Form (List RecipeLint.Item) where
  text := "else".toList ++ (body.text ++ "fi".toList)
  tree pos := body.tree (pos.along "else".toList)

/-- The end of a conditional without an alternative. -/
def noAlternative : Form (List RecipeLint.Item) where
  text := "fi".toList
  tree _ := []

/-- A conditional. -/
def conditional (condition consequence alternative : Form (List RecipeLint.Item)) : Form Stmt where
  text :=
    "if".toList ++ (condition.text ++ ("then".toList ++ (consequence.text ++ alternative.text)))
  tree pos :=
    let first := pos.along "if".toList
    let second := (first.along condition.text).along "then".toList
    .ofDraft pos (some (.conditional pos (condition.tree first) (consequence.tree second)
      (alternative.tree (second.along consequence.text)))) []

/-- A loop's body with the words around it. -/
def loopBody (body : Form (List RecipeLint.Item)) : Form (List RecipeLint.Item) where
  text := "do".toList ++ (body.text ++ "done".toList)
  tree pos := body.tree (pos.along "do".toList)

/-- A loop on a condition. -/
def loop (untilTrue : Bool) (condition body : Form (List RecipeLint.Item)) : Form Stmt where
  text := (if untilTrue then "until" else "while").toList ++
    (condition.text ++ (loopBody body).text)
  tree pos :=
    let first := pos.along (if untilTrue then "until" else "while").toList
    .ofDraft pos (some (.loop pos (condition.tree first)
      ((loopBody body).tree (first.along condition.text)) untilTrue)) []

/-- A loop over words. -/
def iteration (name : Name) (words : Form (List RecipeLint.Word)) (divider : List Char)
    (body : Form (List RecipeLint.Item)) : Form Stmt where
  text :=
    "for ".toList ++
      (name.chars ++ (" in".toList ++ (words.text ++ (divider ++ (loopBody body).text))))
  tree pos :=
    let first := pos.along "for ".toList
    let second := (first.along name.chars).along " in".toList
    .ofDraft pos (some (.iteration pos
      (.words first (String.ofList name.chars) (words.tree second) true)
      ((loopBody body).tree ((second.along words.text).along divider)) false)) []

/-- The patterns of a choice. -/
def patterns (margin : List Char) (pattern : Word) (further : List Word) :
    Form (List RecipeLint.Word) where
  text := pattern.form.text ++
    (sequence (further.map fun word => word.form.behind (margin ++ ['|'] ++ margin))).text
  tree pos := pattern.form.tree pos ::
    (sequence (further.map fun word => word.form.behind (margin ++ ['|'] ++ margin))).tree
      (pos.along pattern.form.text)

/-- An item of a choice by patterns. -/
def branch (patterns : Form (List RecipeLint.Word)) (body : Form (List RecipeLint.Item)) :
    Form CaseItem where
  text := patterns.text ++ ([')'] ++ (body.text ++ ";;".toList))
  tree pos :=
    { pos
      patterns := patterns.tree pos
      body := body.tree ((pos.along patterns.text).along [')'])
      ending := .leave }

/-- A choice by patterns, whose items start on lines of their own. -/
def case (subject : Word) (branches : List (Form CaseItem)) : Form Stmt where
  text := "case ".toList ++ (subject.form.text ++
    (" in".toList ++ ((sequence (branches.map (behind ['\n']))).text ++ "\nesac".toList)))
  tree pos :=
    let first := pos.along "case ".toList
    .ofDraft pos (some (.case pos (subject.form.tree first)
      ((sequence (branches.map (behind ['\n']))).tree
        ((first.along subject.form.text).along " in".toList)))) []

/-- A declaration of a function, whose body is in braces. -/
def function (name : Text) (body : Form Stmt) : Form Stmt where
  text := name.chars ++ ("() ".toList ++ body.text)
  tree pos := .ofDraft pos (some (.function pos (String.ofList name.chars)
    (body.tree ((pos.along name.chars).along "() ".toList)) false)) []

/-- Statements joined to a first one by connectives. -/
def joined (first : Form Stmt) : List (Connective × Form Stmt) → Form Stmt
  | [] => first
  | (connective, second) :: further =>
      joined
        { text := first.text ++ ([' '] ++ (connective.text.toList ++ ([' '] ++ second.text)))
          tree := fun pos => Reading.joined connective (first.tree pos)
            (second.tree ((((pos.along first.text).along [' ']).along connective.text.toList).along
              [' '])) }
        further

/-- A statement that may be negated. -/
def negated (yes : Bool) (form : Form Stmt) : Form Stmt :=
  if yes then
    { text := "! ".toList ++ form.text
      tree := fun pos => { form.tree (pos.along "! ".toList) with negated := true, pos } }
  else
    form

/-- A statement that may run in the background. -/
def background (yes : Bool) (form : Form Stmt) : Form Stmt where
  text := form.text ++ (if yes then " &".toList else [])
  tree pos := { form.tree pos with background := yes }

end Form

/-- The places that can be laid out in two ways. -/
inductive Place where
  | block
  | subshell
  /-- In front of the condition of a conditional or of a loop. -/
  | condition
  /-- In front of the consequence of a conditional. -/
  | consequence
  | alternative
  /-- Behind the words that an iteration runs over. -/
  | range
  | body
  | pattern
  | branch

/-- Which places are laid out widely. -/
def Layout : Type :=
  Place → Bool

namespace Layout

/-- What stands in front of a list: its own line, or a blank. -/
def gap (layout : Layout) (place : Place) : List Char :=
  if layout place then ['\n'] else [' ']

/-- What stands in front of the body of an iteration: its own line, or a semicolon. -/
def divider (layout : Layout) : List Char :=
  if layout .range then ['\n'] else [';', ' ']

/-- What stands around the bar between two patterns. -/
def margin (layout : Layout) : List Char :=
  if layout .pattern then [' '] else []

end Layout

section Forms

variable (layout : Layout)

mutual

/-- The command with its text. -/
def Command.form : Command → Form Stmt
  | .call call => call.form
  | .block body => .enclosed '{' '}' .block (.list (layout.gap .block) (itemForms body))
  | .subshell body => .enclosed '(' ')' .subshell (.list (layout.gap .subshell) (itemForms body))
  | .conditional condition consequence =>
      .conditional (.list (layout.gap .condition) (itemForms condition))
        (.list (layout.gap .consequence) (itemForms consequence)) .noAlternative
  | .choice condition consequence alternative =>
      .conditional (.list (layout.gap .condition) (itemForms condition))
        (.list (layout.gap .consequence) (itemForms consequence))
        (.alternative (.list (layout.gap .alternative) (itemForms alternative)))
  | .loop untilTrue condition body =>
      .loop untilTrue (.list (layout.gap .condition) (itemForms condition))
        (.list (layout.gap .body) (itemForms body))
  | .iteration name words body =>
      .iteration name (Call.spaced words) layout.divider (.list (layout.gap .body) (itemForms body))
  | .case subject branches => .case subject (branchForms branches)
  | .function name _ body =>
      .function name (.enclosed '{' '}' .block (.list (layout.gap .block) (itemForms body)))

def Branch.form : Branch → Form CaseItem
  | .mk pattern further _ body =>
      .branch (.patterns layout.margin pattern further)
      (.list (layout.gap .branch) (itemForms body))

def Pipeline.form : Pipeline → Form Stmt
  | .mk negated first further => .negated negated (.joined first.form (commandForms further))

def Further.form : Further → Connective × Form Stmt
  | .mk both pipeline => (if both then .both else .either, pipeline.form)

def Item.form : Item → Form Stmt
  | .mk first further background =>
      .background background (.joined first.form (furtherForms further))

def itemForms : List Item → List (Form Stmt)
  | [] => []
  | item :: items => item.form :: itemForms items

def branchForms : List Branch → List (Form CaseItem)
  | [] => []
  | branch :: branches => branch.form :: branchForms branches

/-- The commands behind pipes with their texts. -/
def commandForms : List Command → List (Connective × Form Stmt)
  | [] => []
  | command :: commands => (.pipe, command.form) :: commandForms commands

/-- The pipelines behind operators with their texts. -/
def furtherForms : List Further → List (Connective × Form Stmt)
  | [] => []
  | further :: rest => further.form :: furtherForms rest

end

/-- The list with its text. -/
def form (items : List Item) : Form (List RecipeLint.Item) :=
  .lines (itemForms layout items)

end Forms

mutual

/-- The number of levels that reading the command takes. -/
def Command.levels : Command → Nat
  | .call call => call.levels
  | .block body | .subshell body => itemsLevels body + 1
  | .conditional condition consequence => max (itemsLevels condition) (itemsLevels consequence) + 1
  | .choice condition consequence alternative =>
      max (itemsLevels condition) (max (itemsLevels consequence) (itemsLevels alternative)) + 1
  | .loop _ condition body => max (itemsLevels condition) (itemsLevels body) + 1
  | .iteration _ words body => max ((words.map Word.levels).foldr max 0) (itemsLevels body + 1)
  | .case subject branches => max subject.levels (branchesLevels branches)
  | .function _ _ body => itemsLevels body + 2

def Branch.levels : Branch → Nat
  | .mk pattern further _ body =>
      max (((pattern :: further).map Word.levels).foldr max 0) (itemsLevels body + 1)

def Pipeline.levels : Pipeline → Nat
  | .mk _ first further => max first.levels (commandsLevels further)

def Further.levels : Further → Nat
  | .mk _ pipeline => pipeline.levels

def Item.levels : Item → Nat
  | .mk first further _ => max first.levels (furtherLevels further)

def itemsLevels : List Item → Nat
  | [] => 0
  | item :: items => max item.levels (itemsLevels items)

def branchesLevels : List Branch → Nat
  | [] => 0
  | branch :: branches => max branch.levels (branchesLevels branches)

def commandsLevels : List Command → Nat
  | [] => 0
  | command :: commands => max command.levels (commandsLevels commands)

def furtherLevels : List Further → Nat
  | [] => 0
  | further :: rest => max further.levels (furtherLevels rest)

end

end Canonical
end RecipeLint
