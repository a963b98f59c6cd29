import RecipeLint.Syntax.Tree

/-!
# Nodes of a script

A node is any construct of a script's tree, whatever its type.  Every node has a position, one of a
closed set of kinds, and fields that hold further nodes.  `Node.children` lists the nodes below in
the order in which a traversal meets them.
-/

namespace RecipeLint

inductive NodeKind where
  | file
  | comment
  | stmt
  | callExpr
  | assign
  | declClause
  | letClause
  | funcDecl
  | block
  | subshell
  | ifClause
  | whileClause
  | forClause
  | wordIter
  | cstyleLoop
  | caseClause
  | caseItem
  | binaryCmd
  | testClause
  | arithmCmd
  | redirect
  | word
  | lit
  | sglQuoted
  | dblQuoted
  | paramExp
  | slice
  | replace
  | expansion
  | cmdSubst
  | arithmExp
  | procSubst
  | extGlob
deriving DecidableEq, Repr

def NodeKind.text : NodeKind → String
  | .file => "FILE"
  | .comment => "COMMENT"
  | .stmt => "STMT"
  | .callExpr => "CALL_EXPR"
  | .assign => "ASSIGN"
  | .declClause => "DECL_CLAUSE"
  | .letClause => "LET_CLAUSE"
  | .funcDecl => "FUNC_DECL"
  | .block => "BLOCK"
  | .subshell => "SUBSHELL"
  | .ifClause => "IF_CLAUSE"
  | .whileClause => "WHILE_CLAUSE"
  | .forClause => "FOR_CLAUSE"
  | .wordIter => "WORD_ITER"
  | .cstyleLoop => "CSTYLE_LOOP"
  | .caseClause => "CASE_CLAUSE"
  | .caseItem => "CASE_ITEM"
  | .binaryCmd => "BINARY_CMD"
  | .testClause => "TEST_CLAUSE"
  | .arithmCmd => "ARITHM_CMD"
  | .redirect => "REDIRECT"
  | .word => "WORD"
  | .lit => "LIT"
  | .sglQuoted => "SGL_QUOTED"
  | .dblQuoted => "DBL_QUOTED"
  | .paramExp => "PARAM_EXP"
  | .slice => "SLICE"
  | .replace => "REPLACE"
  | .expansion => "EXPANSION"
  | .cmdSubst => "CMD_SUBST"
  | .arithmExp => "ARITHM_EXP"
  | .procSubst => "PROC_SUBST"
  | .extGlob => "EXT_GLOB"

/-- The fields of nodes that hold further nodes. -/
inductive Slot where
  | stmts
  | parts
  | offset
  | length
  | pattern
  | replacement
  | word
  | index
  | slice
  | replace
  | expansion
  | heredoc
  | command
  | redirects
  | value
  | array
  | assigns
  | args
  | opts
  | exprs
  | body
  | condition
  | consequence
  | alternative
  | range
  | items
  | expr
  | patterns
  | left
  | right
  | words
deriving DecidableEq, Repr

def Slot.text : Slot → String
  | .stmts => "stmts"
  | .parts => "parts"
  | .offset => "offset"
  | .length => "length"
  | .pattern => "orig"
  | .replacement => "with_"
  | .word => "word"
  | .index => "index"
  | .slice => "slice"
  | .replace => "repl"
  | .expansion => "exp"
  | .heredoc => "heredoc"
  | .command => "cmd"
  | .redirects => "redirs"
  | .value => "value"
  | .array => "array"
  | .assigns => "assigns"
  | .args => "args"
  | .opts => "opts"
  | .exprs => "exprs"
  | .body => "body"
  | .condition => "cond"
  | .consequence => "then"
  | .alternative => "else_"
  | .range => "loop"
  | .items => "items"
  | .expr => "expr"
  | .patterns => "patterns"
  | .left => "x"
  | .right => "y"
  | .words => "words"

inductive Node where
  | script (script : Script)
  | comment (comment : Comment)
  | stmt (stmt : Stmt)
  | command (command : Command)
  | range (range : Range)
  | caseItem (item : CaseItem)
  | assign (assign : Assign)
  | redirect (redirect : Redirect)
  | word (word : Word)
  | part (part : Part)
  | operation (operation : Operation)

def Item.node : Item → Node
  | .comment remark => .comment remark
  | .stmt statement => .stmt statement

def Command.kind : Command → NodeKind
  | .call .. => .callExpr
  | .declaration .. => .declClause
  | .evaluation .. => .letClause
  | .function .. => .funcDecl
  | .block .. => .block
  | .subshell .. => .subshell
  | .conditional .. => .ifClause
  | .loop .. => .whileClause
  | .iteration .. => .forClause
  | .case .. => .caseClause
  | .binary .. => .binaryCmd
  | .test .. => .testClause
  | .arithmetic .. => .arithmCmd

def Part.kind : Part → NodeKind
  | .literal .. => .lit
  | .single .. => .sglQuoted
  | .double .. => .dblQuoted
  | .simple .. | .braced .. => .paramExp
  | .substitution .. => .cmdSubst
  | .arithmetic .. => .arithmExp
  | .process .. => .procSubst
  | .glob .. => .extGlob

def Range.kind : Range → NodeKind
  | .words .. => .wordIter
  | .arithmetic .. => .cstyleLoop

def Operation.kind : Operation → NodeKind
  | .slice .. => .slice
  | .replace .. => .replace
  | .expand .. => .expansion

/-- The field of a braced expansion that holds its operation. -/
def Operation.slot : Operation → Slot
  | .slice .. => .slice
  | .replace .. => .replace
  | .expand .. => .expansion

/-- A node together with the field of its parent that holds it. -/
abbrev Field := Slot × Node

namespace Field

/-- The nodes in a field that holds a list. -/
def many (slot : Slot) (toNode : α → Node) (values : List α) : List Field :=
  values.map fun value => (slot, toNode value)

/-- The node in a field that may be empty. -/
def optional (slot : Slot) (toNode : α → Node) : Option α → List Field
  | none => []
  | some value => [(slot, toNode value)]

def one (slot : Slot) (node : Node) : List Field :=
  [(slot, node)]

end Field

def Command.fields : Command → List Field
  | .call _ assigns args => Field.many .assigns .assign assigns ++ Field.many .args .word args
  | .declaration _ _ opts assigns =>
      Field.many .opts .word opts ++ Field.many .assigns .assign assigns
  | .evaluation _ exprs => Field.many .exprs .word exprs
  | .function _ _ body _ => Field.one .body (.stmt body)
  | .block _ body | .subshell _ body => Field.many .stmts Item.node body
  | .conditional _ condition consequence alternative =>
      Field.many .condition Item.node condition ++ Field.many .consequence Item.node consequence ++
        Field.many .alternative Item.node alternative
  | .loop _ condition body _ =>
      Field.many .condition Item.node condition ++ Field.many .body Item.node body
  | .iteration _ range body _ => Field.one .range (.range range) ++ Field.many .body Item.node body
  | .case _ subject items => Field.one .word (.word subject) ++ Field.many .items .caseItem items
  | .binary _ _ left right => Field.one .left (.stmt left) ++ Field.one .right (.stmt right)
  | .test _ words => Field.many .words .word words
  | .arithmetic _ expr => Field.one .expr (.word expr)

def Part.fields : Part → List Field
  | .literal .. | .single .. | .simple .. | .glob .. => []
  | .double _ parts _ | .arithmetic _ parts _ => Field.many .parts .part parts
  | .braced _ _ _ index none => Field.optional .index .word index
  | .braced _ _ _ index (some operation) =>
      Field.optional .index .word index ++ Field.one operation.slot (.operation operation)
  | .substitution _ body _ | .process _ _ body => Field.many .stmts Item.node body

def Operation.fields : Operation → List Field
  | .slice _ offset length =>
      Field.optional .offset .word offset ++ Field.optional .length .word length
  | .replace _ _ pattern replacement =>
      Field.optional .pattern .word pattern ++ Field.optional .replacement .word replacement
  | .expand _ _ operand => Field.optional .word .word operand

def Value.fields : Value → List Field
  | .naked | .empty => []
  | .scalar word => Field.one .value (.word word)
  | .array elements => Field.many .array .word elements

def Range.fields : Range → List Field
  | .words _ _ items _ => Field.many .items .word items
  | .arithmetic _ expr => Field.one .expr (.word expr)

namespace Node

def pos : Node → Position
  | .script _ => .start
  | .comment it => it.pos
  | .stmt it => it.pos
  | .command it => it.pos
  | .range it => it.pos
  | .caseItem it => it.pos
  | .assign it => it.pos
  | .redirect it => it.pos
  | .word it => it.pos
  | .part it => it.pos
  | .operation it => it.pos

def kind : Node → NodeKind
  | .script _ => .file
  | .comment _ => .comment
  | .stmt _ => .stmt
  | .command it => it.kind
  | .range it => it.kind
  | .caseItem _ => .caseItem
  | .assign _ => .assign
  | .redirect _ => .redirect
  | .word _ => .word
  | .part it => it.kind
  | .operation it => it.kind

/-- The nodes directly below a node, each with the field that holds it. -/
def fields : Node → List Field
  | .script it => Field.many .stmts Item.node it.items
  | .comment _ => []
  | .stmt it =>
      Field.optional .command .command it.command ++ Field.many .redirects .redirect it.redirects
  | .command it => it.fields
  | .range it => it.fields
  | .caseItem it => Field.many .patterns .word it.patterns ++ Field.many .stmts Item.node it.body
  | .assign it => Field.optional .index .word it.index ++ it.value.fields
  | .redirect it => Field.one .word (.word it.target) ++ Field.optional .heredoc .word it.body
  | .word it => Field.many .parts .part it.parts
  | .part it => it.fields
  | .operation it => it.fields

def children (node : Node) : List Node :=
  node.fields.map (·.2)

end Node
end RecipeLint
