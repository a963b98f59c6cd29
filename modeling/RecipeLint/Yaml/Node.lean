import RecipeLint.Yaml.Token

/-!
# Nodes of configuration files

The tokens of a configuration file make up a tree of scalars, lists and mappings.  A place where a
node is left out holds an empty scalar.  A file is one document at most.
-/

namespace RecipeLint.Yaml

inductive Node where
  | scalar (text : List Char) (quoted : Bool)
  | list (nodes : List Node)
  | mapping (pairs : List (Node × Node))
deriving Repr

namespace Node

def empty : Node :=
  .scalar [] false

/-- A reader of a node: it gives the node and the tokens behind it, or fails. -/
abbrev Reader := List Token → Option (Node × List Token)

/-- Reads a node, or an empty one if a token stands here that no node starts with. -/
def orEmpty (ends : List Token) (read : Reader) : Reader
  | [] => some (empty, [])
  | token :: tokens =>
      if ends.contains token then some (empty, token :: tokens) else read (token :: tokens)

/-- Reads a value behind its mark; without the mark it is empty. -/
def valueOf (ends : List Token) (read : Reader) : Reader
  | .value :: tokens => orEmpty ends read tokens
  | tokens => some (empty, tokens)

/-- Reads the entries of a block, each behind a hyphen, in front of those already `found` in
reverse. They end at the end of the block, or if `indentless` at any token that is no hyphen. -/
def entries (read : Reader) (indentless : Bool) : Nat → List Node → Reader
  | 0, _, _ => none
  | fuel + 1, found, .entry :: tokens =>
      let ends : List Token :=
        if indentless then [.entry, .key, .value, .blockEnd] else [.entry, .blockEnd]
      match orEmpty ends read tokens with
      | some (node, tokens) => entries read indentless fuel (node :: found) tokens
      | none => none
  | _, found, tokens =>
      if indentless then some (.list found.reverse, tokens)
      else
        match tokens with
        | .blockEnd :: tokens => some (.list found.reverse, tokens)
        | _ => none

/-- Reads the keys and values of a block. -/
def pairs (read : Reader) : Nat → List (Node × Node) → Reader
  | 0, _, _ => none
  | fuel + 1, found, .key :: tokens =>
      match orEmpty [.key, .value, .blockEnd] read tokens with
      | none => none
      | some (key, tokens) =>
          match valueOf [.key, .value, .blockEnd] read tokens with
          | some (value, tokens) => pairs read fuel ((key, value) :: found) tokens
          | none => none
  | _, found, .blockEnd :: tokens => some (.mapping found.reverse, tokens)
  | _, _, _ => none

/-- Reads an element of a list in brackets, which may be a single key with its value. -/
def element (read : Reader) : Reader
  | .key :: tokens =>
      match orEmpty [.value, .comma, .listClose] read tokens with
      | none => none
      | some (key, tokens) =>
          match valueOf [.comma, .listClose] read tokens with
          | some (value, tokens) => some (.mapping [(key, value)], tokens)
          | none => none
  | tokens => read tokens

/-- Reads the elements of a list in brackets, `first` if none was read yet. -/
def elements (read : Reader) : Nat → Bool → List Node → Reader
  | 0, _, _, _ => none
  | _, _, found, .listClose :: tokens => some (.list found.reverse, tokens)
  | fuel + 1, first, found, tokens =>
      let next := match first, tokens with
        | true, tokens => some tokens
        | false, .comma :: tokens => some tokens
        | false, _ => none
      match next with
      | none => none
      | some (.listClose :: tokens) => some (.list found.reverse, tokens)
      | some tokens =>
          match element read tokens with
          | some (node, tokens) => elements read fuel false (node :: found) tokens
          | none => none

/-- Reads a key in braces with its value; a node without the mark of a key has no value. -/
def member (read : Reader) : List Token → Option ((Node × Node) × List Token)
  | .key :: tokens =>
      match orEmpty [.value, .comma, .mapClose] read tokens with
      | none => none
      | some (key, tokens) =>
          match valueOf [.comma, .mapClose] read tokens with
          | some (value, tokens) => some ((key, value), tokens)
          | none => none
  | tokens =>
      match read tokens with
      | some (key, tokens) => some ((key, empty), tokens)
      | none => none

/-- Reads the keys and values in braces, `first` if none was read yet. -/
def members (read : Reader) : Nat → Bool → List (Node × Node) → Reader
  | 0, _, _, _ => none
  | _, _, found, .mapClose :: tokens => some (.mapping found.reverse, tokens)
  | fuel + 1, first, found, tokens =>
      let next := match first, tokens with
        | true, tokens => some tokens
        | false, .comma :: tokens => some tokens
        | false, _ => none
      match next with
      | none => none
      | some (.mapClose :: tokens) => some (.mapping found.reverse, tokens)
      | some tokens =>
          match member read tokens with
          | some (pair, tokens) => members read fuel false (pair :: found) tokens
          | none => none

/-- Reads a node with at most `depth` levels of nodes in each other.  Entries behind hyphens in the
column of their key are one of its values, which `indentless` admits. -/
def read (rounds : Nat) : Nat → Bool → Reader
  | 0, _, _ => none
  | depth + 1, indentless, tokens =>
      let block := read rounds depth false
      let value := read rounds depth true
      match tokens with
      | .scalar text quoted :: tokens => some (.scalar text quoted, tokens)
      | .listOpen :: tokens => elements block rounds true [] tokens
      | .mapOpen :: tokens => members block rounds true [] tokens
      | .sequenceStart :: tokens => entries block false rounds [] tokens
      | .mappingStart :: tokens => pairs value rounds [] tokens
      | .entry :: _ => if indentless then entries block true rounds [] tokens else none
      | _ => none

/-- Whether the rest of a version directive names a version that can be read: the first number is
one, and nothing but a comment follows the second. -/
def isKnownVersion (rest : List Char) : Bool :=
  match (rest.dropWhile (· = ' ')).span Char.isDigit with
  | (major, '.' :: tail) =>
      let (minor, tail) := tail.span Char.isDigit
      major.dropWhile (· = '0') = ['1'] && !minor.isEmpty && tail.head?.all (· = ' ') &&
        (tail.dropWhile (· = ' ')).head?.all (· = '#')
  | _ => false

/-- Passes over the directives in front of a document, of which at most one names a version. -/
def directives (versioned : Bool) : List Token → Option (List Token)
  | .directive name rest :: tokens =>
      if name = "YAML".toList then
        if versioned || !isKnownVersion rest then none else directives true tokens
      else
        directives versioned tokens
  | .documentStart :: tokens => some tokens
  | _ => none

/-- Whether nothing but markers of the end of a document follows. -/
def isFinished (tokens : List Token) : Bool :=
  tokens.all (· = .documentEnd)

/-- The node that tokens make up; nothing is there if there are none. -/
def ofTokens? (tokens : List Token) : Option (Option Node) :=
  let rounds := tokens.length + 1
  let whole (tokens : List Token) : Option (Option Node) :=
    match orEmpty [.documentStart, .documentEnd] (read rounds rounds false) tokens with
    | some (node, rest) => if isFinished rest then some (some node) else none
    | none => none
  match tokens with
  | [] => some none
  | .directive .. :: _ | .documentStart :: _ => (directives false tokens).bind whole
  | .documentEnd :: _ => none
  | _ => whole tokens

end Node
end RecipeLint.Yaml
