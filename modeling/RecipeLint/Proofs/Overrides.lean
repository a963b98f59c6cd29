import RecipeLint.Lint.Variables
import RecipeLint.Proofs.Traversal

/-!
# Walks past the environment of commands

A wrapped visitor goes over the arguments of a command by walks of their own, in which it is wrapped
again.  All of these come to what a single walk of the plain visitor comes to that goes on from such
a command to its arguments alone. -/

namespace RecipeLint

namespace Node

/-- The arguments of a command, the first of which names the program. -/
def arguments : Node → List Node
  | .command (.call _ _ args) => args.map Node.word
  | _ => []

theorem arguments_sublist (node : Node) : node.arguments.Sublist node.children := by
  cases node with
  | command it =>
      cases it with
      | call => simp [arguments, children, fields, Command.fields, Field.many, Function.comp_def]
      | _ => exact List.nil_sublist _
  | _ => exact List.nil_sublist _

/-- The children of a node without the assignments in front of a command. -/
def childrenWithoutOverrides (node : Node) : List Node :=
  if node.arguments.isEmpty then node.children else node.arguments

theorem childrenWithoutOverrides_sublist (node : Node) :
    node.childrenWithoutOverrides.Sublist node.children := by
  unfold childrenWithoutOverrides
  split
  · exact List.Sublist.refl _
  · exact node.arguments_sublist

end Node

/-- The walk that passes by the assignments in front of a command. -/
def Descent.withoutOverrides : Descent where
  next := Node.childrenWithoutOverrides
  next_sublist := Node.childrenWithoutOverrides_sublist

section Wrapped

variable {σ : Type} (visit : Node → σ → Bool × σ)

/-- The walks over the arguments are walks of the wrapped visitor. -/
theorem passWalk_eq_walk (nodes : List Node) (state : σ) :
    passWalk visit nodes state = Descent.full.walk (passOverrides visit) nodes state := by
  fun_induction Descent.walk Descent.full (passOverrides visit) nodes state with
  | case1 => rw [passWalk]
  | case2 node nodes state next entered ih =>
      rw [passWalk, entered]
      exact ih
  | case3 node nodes state next passed ih =>
      rw [passWalk, passed]
      exact ih

theorem passEach_eq_walk (words : List Word) (state : σ) :
    passEach visit words state = Descent.full.walk (passOverrides visit)
      (words.map .word) state := by
  induction words generalizing state with
  | nil => rw [passEach, List.map_nil, Descent.walk]
  | cons word words ih =>
      rw [passEach, ih, passWalk_eq_walk, ← Descent.walk_append]
      rfl

theorem passOverrides_eq (node : Node) (state : σ) : passOverrides visit node state =
    if node.arguments.isEmpty then visit node state
    else (false, Descent.full.walk (passOverrides visit) node.arguments state) := by
  unfold passOverrides
  split
  · rw [passEach_eq_walk]
    rfl
  · next other =>
      have bare : node.arguments = [] := by
        cases node with
        | command it =>
            cases it with
            | call pos assigns args =>
                cases args with
                | nil => rfl
                | cons arg args => exact absurd rfl (other pos assigns arg args)
            | _ => rfl
        | _ => rfl
      rw [bare]
      rfl

/-- A visitor that commands with arguments mean nothing to is wrapped to the same end as one walk
past the assignments in front of them. -/
theorem walk_passOverrides
    (overlooks : ∀ node state, node.arguments ≠ [] → visit node state = (true, state))
    (nodes : List Node) (state : σ) :
    Descent.full.walk (passOverrides visit) nodes state =
      Descent.withoutOverrides.walk visit nodes state := by
  fun_induction Descent.walk Descent.withoutOverrides visit nodes state with
  | case1 => rw [Descent.walk]
  | case2 node nodes state next entered ih =>
      rw [Descent.walk, passOverrides_eq]
      by_cases bare : node.arguments = []
      · have below : Descent.withoutOverrides.next node = node.children := by
          simp [Descent.withoutOverrides, Node.childrenWithoutOverrides, bare]
        rw [below] at ih ⊢
        simp only [bare, List.isEmpty_nil, if_true, entered]
        exact ih
      · have below : Descent.withoutOverrides.next node = node.arguments := by
          simp [Descent.withoutOverrides, Node.childrenWithoutOverrides, bare]
        obtain ⟨-, rfl⟩ := Prod.mk.inj (entered.symm.trans (overlooks node state bare))
        rw [Descent.walk_append, below] at ih
        simp only [List.isEmpty_iff, bare, if_false, below]
        exact ih
  | case3 node nodes state next passed ih =>
      have bare : node.arguments = [] := by
        refine Decidable.byContradiction fun full => ?_
        cases passed.symm.trans (overlooks node state full)
      rw [Descent.walk, passOverrides_eq]
      simp only [bare, List.isEmpty_nil, if_true, passed]
      exact ih

end Wrapped

end RecipeLint
