import RecipeLint.Yaml.Node
import RecipeLint.Yaml.Plain

/-!
# Loading configuration files

The value that a text holds.  A text that is not well formed is malformed as a whole; a scalar of
the form of a value that does not exist is a fault of its own.
-/

namespace RecipeLint.Yaml

def scalarValue (text : List Char) (quoted : Bool) : Except LoadError Value :=
  if quoted then
    .ok (.text (String.ofList text))
  else
    match Plain.of text with
    | .value it => .ok it
    | .fault it => .error (.scalar it)
    | .merge | .default => .error .malformed

def Node.isMerge : Node → Bool
  | .scalar ['<', '<'] false => true
  | _ => false

def keyValue : Node → Except LoadError Value
  | .scalar ['='] false => .ok (.text "=")
  | .scalar text quoted => scalarValue text quoted
  | _ => .error .malformed

mutual

def Node.value : Node → Except LoadError Value
  | .scalar text quoted => scalarValue text quoted
  | .list nodes => do return .list (← listValues nodes)
  | .mapping pairs => do
      let merged ← mergedPairs pairs
      let own ← ownPairs pairs
      let put (pairs : List (Value × Value)) (pair : Value × Value) : List (Value × Value) :=
        Value.set pairs pair.1 pair.2
      return .mapping ((merged ++ own).foldl put [])

def listValues : List Node → Except LoadError (List Value)
  | [] => .ok []
  | node :: nodes => do
      let value ← node.value
      return value :: (← listValues nodes)

/-- The pairs that mappings are merged with, in front of their own. -/
def mergedPairs : List (Node × Node) → Except LoadError (List (Value × Value))
  | [] => .ok []
  | (key, value) :: pairs => do
      let here ← if key.isMerge then mergeSource value else .ok []
      return here ++ (← mergedPairs pairs)

/-- The pairs that a mapping takes from the value of its mark that merges: those of a mapping, or of
several in a list, of which the first one counts most. -/
def mergeSource : Node → Except LoadError (List (Value × Value))
  | .mapping pairs => do
      let merged ← mergedPairs pairs
      let own ← ownPairs pairs
      return merged ++ own
  | .list nodes => mergeSources nodes
  | .scalar .. => .error .malformed

/-- The pairs of several mappings, those of the last one first. -/
def mergeSources : List Node → Except LoadError (List (Value × Value))
  | [] => .ok []
  | node :: nodes => do
      let here ← match node with
        | .mapping pairs => do
            let merged ← mergedPairs pairs
            let own ← ownPairs pairs
            .ok (merged ++ own)
        | _ => .error .malformed
      return (← mergeSources nodes) ++ here

def ownPairs : List (Node × Node) → Except LoadError (List (Value × Value))
  | [] => .ok []
  | (key, value) :: pairs => do
      if key.isMerge then
        ownPairs pairs
      else
        let name ← keyValue key
        let content ← value.value
        return (name, content) :: (← ownPairs pairs)

end

def load (text : List Char) : Except LoadError Value :=
  if text.all isAdmitted then do
    match Node.ofTokens? (← Token.scan text) with
    | none => .error .malformed
    | some none => .ok .null
    | some (some node) => node.value
  else
    .error .malformed

end RecipeLint.Yaml
