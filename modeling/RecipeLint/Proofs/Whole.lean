import RecipeLint.Proofs.Running

/-!
# Whole scripts

A script is read as the statements of its outermost level up to the end of the text, with the
here-documents put in place.
-/

namespace RecipeLint

theorem Inner.level_rounds (rounds depth : Nat) : (level rounds depth).rounds = rounds := by
  induction depth with
  | zero => rfl
  | succ depth ih => exact ih

theorem Inner.level_statements (rounds depth : Nat) (stops : List String) :
    (level rounds (depth + 1)).statements stops =
      Reading.iterate (Reading.statementRound (level rounds depth) stops) rounds [] := by
  change Reading.iterate _ (level rounds depth).rounds _ = _
  rw [level_rounds]

namespace Script

/-- The script, or the error, that reading the statements of a whole text amounts to. -/
def conclude (name : String) : Reading.Outcome (List Item) → Except ParseError Script
  | .error error => .error error
  | .ok (items, state) =>
      match state.cursor.rest.head? with
      | none => .ok { name, items := placeItems state.bodies items }
      | some c => .error ⟨.unexpected c, state.cursor.position⟩

theorem parseWithin_eq_conclude (rounds depth : Nat) (name : String) (text : List Char) :
    parseWithin rounds depth name text =
      conclude name ((Inner.level rounds depth).statements [] (.ofText text .start)) := by
  unfold parseWithin readItems conclude
  cases run : (Inner.level rounds depth).statements [] (.ofText text .start) with
  | error fault =>
      rw [Reading.bind_error run]
      rfl
  | ok outcome =>
      obtain ⟨items, state⟩ := outcome
      rw [Reading.bind_ok run, Reading.current_bind]
      dsimp only
      cases state.cursor.rest.head? with
      | none | some c => rfl

theorem conclude_ok {name : String} {outcome : Reading.Outcome (List Item)} {script : Script}
    (concluded : conclude name outcome = .ok script) :
    ∃ items state, outcome = .ok (items, state) ∧ state.cursor.rest = [] ∧
      script = { name, items := placeItems state.bodies items } := by
  match outcome with
  | .error fault => cases concluded
  | .ok (items, state) =>
      unfold conclude at concluded
      cases rest : state.cursor.rest with
      | nil =>
          simp only [rest, List.head?_nil, Except.ok.injEq] at concluded
          exact ⟨items, state, rfl, rest, concluded.symm⟩
      | cons c text =>
          simp only [rest, List.head?_cons] at concluded
          cases concluded

theorem exists_of_isOk {result : Except ParseError Script} (ok : result.isOk = true) :
    ∃ script, result = .ok script := by
  cases result with
  | ok script => exact ⟨script, rfl⟩
  | error fault => cases ok

theorem exists_of_map {result : Except ParseError β} {view : β → α} {value : α}
    (found : result.toOption.map view = some value) : ∃ whole, result = .ok whole ∧
    view whole = value := by
  cases result with
  | ok whole => exact ⟨whole, rfl, Option.some.inj found⟩
  | error fault => cases found

end Script
end RecipeLint
