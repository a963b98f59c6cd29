import Mathlib.Logic.Relation
import RecipeLint.Proofs.Lineages
import RecipeLint.Proofs.Occurrences

/-!
# What a construct is made of

`Stores` says, place by place, which constructs stand directly in another one.  It does not
look at the lists of fields that traversals follow.  These lists miss no place, so the nodes that
a walk, a lineage or a way through the tree leads to are exactly those that are stored at any depth.
-/

namespace RecipeLint

/-- A construct stands directly in another one.  There is one rule for each place in which one
construct keeps others. -/
inductive Stores : Node → Node → Prop
  | script : item ∈ it.items → Stores (.script it) item.node
  | command : command ∈ it.command → Stores (.stmt it) (.command command)
  | redirect : redirect ∈ it.redirects → Stores (.stmt it) (.redirect redirect)
  | assignment : assign ∈ assigns → Stores (.command (.call pos assigns args)) (.assign assign)
  | arg : word ∈ args → Stores (.command (.call pos assigns args)) (.word word)
  | option : word ∈ opts → Stores (.command (.declaration pos keyword opts assigns)) (.word word)
  | declared : assign ∈ assigns →
      Stores (.command (.declaration pos keyword opts assigns)) (.assign assign)
  | evaluated : word ∈ exprs → Stores (.command (.evaluation pos exprs)) (.word word)
  | function : Stores (.command (.function pos name body keyword)) (.stmt body)
  | block : item ∈ body → Stores (.command (.block pos body)) item.node
  | subshell : item ∈ body → Stores (.command (.subshell pos body)) item.node
  | conditional : item ∈ condition ∨ item ∈ consequence ∨ item ∈ alternative →
      Stores (.command (.conditional pos condition consequence alternative)) item.node
  | loop : item ∈ condition ∨ item ∈ body →
      Stores (.command (.loop pos condition body negated)) item.node
  | range : Stores (.command (.iteration pos range body select)) (.range range)
  | iteration : item ∈ body → Stores (.command (.iteration pos range body select)) item.node
  | subject : Stores (.command (.case pos subject items)) (.word subject)
  | caseItem : item ∈ items → Stores (.command (.case pos subject items)) (.caseItem item)
  | left : Stores (.command (.binary pos connective left right)) (.stmt left)
  | right : Stores (.command (.binary pos connective left right)) (.stmt right)
  | test : word ∈ words → Stores (.command (.test pos words)) (.word word)
  | arithmetic : Stores (.command (.arithmetic pos expr)) (.word expr)
  | listed : word ∈ words → Stores (.range (.words pos name words explicit)) (.word word)
  | counted : Stores (.range (.arithmetic pos expr)) (.word expr)
  | pattern : word ∈ it.patterns → Stores (.caseItem it) (.word word)
  | choice : item ∈ it.body → Stores (.caseItem it) item.node
  | place : word ∈ it.index → Stores (.assign it) (.word word)
  | scalar : Stores (.assign ⟨pos, name, index, append, .scalar word⟩) (.word word)
  | array : word ∈ words → Stores (.assign ⟨pos, name, index, append, .array words⟩) (.word word)
  | target : Stores (.redirect it) (.word it.target)
  | hereDoc : word ∈ it.body → Stores (.redirect it) (.word word)
  | part : part ∈ it.parts → Stores (.word it) (.part part)
  | quoted : part ∈ parts → Stores (.part (.double pos parts dollar)) (.part part)
  | index : word ∈ index → Stores (.part (.braced pos question name index op)) (.word word)
  | operation : op ∈ operation →
      Stores (.part (.braced pos question name index operation)) (.operation op)
  | substitution : item ∈ body → Stores (.part (.substitution pos body backquoted)) item.node
  | expression : part ∈ parts → Stores (.part (.arithmetic pos parts bracketed)) (.part part)
  | process : item ∈ body → Stores (.part (.process pos direction body)) item.node
  | slice : word ∈ offset ∨ word ∈ length →
      Stores (.operation (.slice pos offset length)) (.word word)
  | replace : word ∈ pattern ∨ word ∈ replacement →
      Stores (.operation (.replace pos global pattern replacement)) (.word word)
  | expand : word ∈ operand → Stores (.operation (.expand pos op operand)) (.word word)

namespace Node

/-- The fields of a node leave out no construct that stands directly in it, and add none. -/
theorem mem_children_iff {node child : Node} : child ∈ node.children ↔ Stores node child := by
  constructor
  · intro member
    -- The shape of the node settles in which of its places the child can stand.
    rcases node with _ | _ | _ | command | range | _ | ⟨_, _, _, _, value⟩ | _ | _ | part |
      operation
    case command =>
      cases command <;> simp [children, fields, Command.fields] at member <;> grind [Stores]
    case range => cases range <;> simp [children, fields, Range.fields] at member <;> grind [Stores]
    case part =>
      rcases part with _ | _ | _ | _ | ⟨_, _, _, _, _ | _⟩ | _ | _ | _ | _ <;>
        simp [children, fields, Part.fields] at member <;> grind [Stores]
    case operation =>
      cases operation <;> simp [children, fields, Operation.fields] at member <;> grind [Stores]
    case assign =>
      cases value <;> simp [children, fields, Value.fields] at member <;> grind [Stores]
    all_goals simp [children, fields] at member <;> grind [Stores]
  · intro stores
    cases stores
    case index operation present =>
      cases operation <;> simpa [children, fields, Part.fields] using present
    case operation present =>
      cases present
      simp [children, fields, Part.fields]
    all_goals
      simp only [children, fields, Command.fields, Range.fields, Value.fields, Part.fields,
        Operation.fields, List.map_append, List.mem_append, mem_many, mem_optional, mem_one]
        <;> grind

open Relation

/-- A full walk comes to exactly the constructs that stand in its root at some depth. -/
theorem mem_preorder_iff {root node : Node} :
    node ∈ root.preorder ↔ ReflTransGen Stores root node := by
  rw [mem_preorder]
  constructor
  · intro reached
    induction reached with
    | root => exact .refl
    | next _ _ member ih => exact ih.tail (mem_children_iff.mp member)
  · intro stored
    induction stored with
    | refl => exact .root
    | tail _ stores ih => exact .next ih rfl (mem_children_iff.mpr stores)

/-- The lines of descent in a tree end in exactly the constructs that stand in it. -/
theorem exists_lineage_iff {root node : Node} :
    (∃ lineage ∈ root.lineages, lineage.node = node) ↔ ReflTransGen Stores root node := by
  rw [← mem_preorder_iff, ← map_node_lineages, List.mem_map]

/-- The ways through a tree lead to exactly the constructs that stand in it. -/
theorem exists_locus_iff {root node : Node} :
    (∃ locus ∈ root.loci, locus.node = node) ↔ ReflTransGen Stores root node := by
  rw [← mem_preorder_iff, ← map_node_loci, List.mem_map]

end Node
end RecipeLint
