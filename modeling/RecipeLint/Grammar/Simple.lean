import RecipeLint.Grammar.Word

/-!
# Simple commands

Assignments, redirections, and the commands made of words: calls, declarations, evaluations by
`let`, and functions declared by a name and parentheses.
-/

namespace RecipeLint

def commandEnds : List Char :=
  ['\n', ';', '&', '|', ')', '#']

/-- A simple command that is being read; every list has its last element first. -/
structure CallDraft where
  assigns : List Assign
  args : List Word
  redirects : List Redirect

/-- A declaration that is being read; every list has its last element first. -/
structure DeclarationDraft where
  opts : List Word
  assigns : List Assign
  redirects : List Redirect

/-- Adds a word, which is a name without a value or an option. -/
def DeclarationDraft.add (draft : DeclarationDraft) (word : Word) : DeclarationDraft :=
  match word.literal? with
  | some name =>
      if isName name.toList then
        let named : Assign :=
          { pos := word.pos, name, index := none, append := false, value := .naked }
        { draft with assigns := named :: draft.assigns }
      else
        { draft with opts := word :: draft.opts }
  | none => { draft with opts := word :: draft.opts }

/-- An evaluation by `let` that is being read; every list has its last element first. -/
structure EvaluationDraft where
  exprs : List Word
  redirects : List Redirect

/-- A statement of a command and redirections, the last of which comes first. -/
def Stmt.ofDraft (pos : Position) (command : Option Command) (redirects : List Redirect) : Stmt :=
  { pos, command, redirects := redirects.reverse, negated := false, background := false }

namespace Reading

def redirectAt? : Reading (Option RedirectHead) :=
  return RedirectHead.starting? (← rest)

/-- Waits for the lines that a redirection takes as its input, if it takes any. -/
def await (redirect : Redirect) : Reading Unit :=
  if redirect.op.takesBody then
    modify fun state => { state with awaited := state.awaited ++ [.ofRedirect redirect] }
  else
    pure ()

/-- A redirection, whose operator has been recognised at the cursor. -/
def redirect (inner : Inner) (head : RedirectHead) : Reading Redirect := do
  let pos ← here
  skip head.text.length
  skipBlanks
  if (← current).all ['\n', ';', '&', '|', ')'].contains then
    fail (.expectedTarget head.op.text)
  else
    let target ← word inner
    let redirect : Redirect := { pos, op := head.op, fd := head.fd, target, body := none }
    await redirect
    return redirect

def elementRound (inner : Inner) (elements : List Word) :
    Reading (Round (List Word) (List Word)) := do
  linebreaks inner
  match ← current with
  | none => fail (.unclosed "(" ")")
  | some ')' =>
      skip 1
      return .done elements.reverse
  | some _ => return .again ((← word inner) :: elements)

/-- The index of the element that is assigned to; its brackets, if any, are at the cursor. -/
def assignIndex (inner : Inner) (head : AssignHead) : Reading (Option Word) := do
  match head.index with
  | none => return none
  | some index => some <$> inlineWord inner index ((← here).right 1)

def value (inner : Inner) : Reading Value := do
  if (← current) = some '(' then
    skip 1
    return .array (← iterate (elementRound inner) inner.rounds [])
  else if (← cursor).wordEndsAt 0 then
    return .empty
  else
    return .scalar (← word inner)

/-- The head of an assignment, which has been recognised at the cursor: gives the index. -/
def assignHead (inner : Inner) (head : AssignHead) : Reading (Option Word) := do
  skip head.name.length
  let index ← assignIndex inner head
  skip ((head.indexText.getD []).length + head.operator.length)
  return index

def assign (inner : Inner) (head : AssignHead) : Reading Assign := do
  let pos ← here
  let index ← assignHead inner head
  let value ← value inner
  return { pos, name := String.ofList head.name, index, append := head.append, value }

def declarationRound (inner : Inner) (draft : DeclarationDraft) :
    Reading (Round DeclarationDraft DeclarationDraft) := do
  skipBlanks
  match ← redirectAt? with
  | some head =>
      return .again { draft with redirects := (← redirect inner head) :: draft.redirects }
  | none =>
      if (← current).all commandEnds.contains then
        return .done draft
      else
        match AssignHead.of? (← rest) with
        | some head =>
            return .again { draft with assigns := (← assign inner head) :: draft.assigns }
        | none => return .again (draft.add (← word inner))

def declaration (inner : Inner) (pos : Position) (redirects : List Redirect) (keyword : Word)
    (declarator : Declarator) : Reading Stmt := do
  let draft ← iterate (declarationRound inner) inner.rounds { opts := [], assigns := [], redirects }
  let command := Command.declaration keyword.pos declarator draft.opts.reverse draft.assigns.reverse
  return .ofDraft pos (some command) draft.redirects

def evaluationRound (inner : Inner) (draft : EvaluationDraft) :
    Reading (Round EvaluationDraft EvaluationDraft) := do
  skipBlanks
  match ← redirectAt? with
  | some head =>
      return .again { draft with redirects := (← redirect inner head) :: draft.redirects }
  | none =>
      if (← current).all commandEnds.contains then
        return .done draft
      else
        return .again { draft with exprs := (← word inner) :: draft.exprs }

def evaluation (inner : Inner) (pos : Position) (redirects : List Redirect) (keyword : Word) :
    Reading Stmt := do
  let draft ← iterate (evaluationRound inner) inner.rounds { exprs := [], redirects }
  return .ofDraft pos (some (.evaluation keyword.pos draft.exprs.reverse)) draft.redirects

/-- The closing parenthesis after the name of a function; the opening one is at the cursor. -/
def emptyParentheses : Reading Unit := do
  skip 1
  skipBlanks
  if (← current) = some ')' then
    skip 1
  else
    fail .expectedParenthesis

/-- A function whose name has been read; its parentheses are at the cursor. -/
def functionAfterName (inner : Inner) (pos : Position) (name : String) : Reading Command := do
  emptyParentheses
  linebreaks inner
  return .function pos name (← inner.command) false

/-- The statement that a complete simple command makes. -/
def finishCall (pos : Position) (draft : CallDraft) : Reading Stmt := do
  if draft.args.isEmpty && draft.assigns.isEmpty then
    if draft.redirects.isEmpty then
      fail .expectedCommand
    else
      return .ofDraft pos none draft.redirects
  else
    let call := Command.call pos draft.assigns.reverse draft.args.reverse
    return .ofDraft pos (some call) draft.redirects

/-- The function that a simple command turns out to declare; a parenthesis is at the cursor. -/
def callFunction (inner : Inner) (pos : Position) (draft : CallDraft) : Reading Stmt :=
  match draft with
  | { assigns := [], args := [name], redirects } =>
      match name.literal? with
      | some text => do
          let function ← functionAfterName inner name.pos text
          return .ofDraft pos (some function) redirects
      | none => fail (.unexpected '(')
  | _ => fail (.unexpected '(')

/-- A word of a simple command.  The first word may be the keyword of a declaration or of an
evaluation. -/
def callWord (inner : Inner) (pos : Position) (draft : CallDraft) :
    Reading (Round CallDraft Stmt) := do
  let word ← word inner
  let keyword :=
    if draft.args.isEmpty && draft.assigns.isEmpty then word.literal? else none
  match keyword.bind Declarator.of? with
  | some declarator => return .done (← declaration inner pos draft.redirects word declarator)
  | none =>
      if keyword = some "let" then
        return .done (← evaluation inner pos draft.redirects word)
      else
        return .again { draft with args := word :: draft.args }

/-- One round of reading a simple command that starts at `pos`. -/
def callRound (inner : Inner) (pos : Position) (draft : CallDraft) :
    Reading (Round CallDraft Stmt) := do
  skipBlanks
  match ← redirectAt? with
  | some head =>
      return .again { draft with redirects := (← redirect inner head) :: draft.redirects }
  | none =>
      match ← current with
      | none => return .done (← finishCall pos draft)
      | some c =>
          if commandEnds.contains c then
            return .done (← finishCall pos draft)
          else if c = '(' then
            return .done (← callFunction inner pos draft)
          else if draft.args.isEmpty then
            match AssignHead.of? (← rest) with
            | some head =>
                return .again { draft with assigns := (← assign inner head) :: draft.assigns }
            | none => callWord inner pos draft
          else
            callWord inner pos draft

def call (inner : Inner) (pos : Position) : Reading Stmt :=
  iterate (callRound inner pos) inner.rounds { assigns := [], args := [], redirects := [] }

end Reading
end RecipeLint
