import RecipeLint.Proofs.Seam.Commands

/-!
# Statements across a seam

Pipelines and lists of statements in two readings side by side, and with them the productions of
every level: two readings are followed at all levels of constructs, provided that they go on
together where the first one meets the mark. -/

namespace RecipeLint
namespace Seam

open Reading

variable {seam : Seam} {inner inner' : Inner} {p : Phase} {state state' : ReadState}

theorem Paired.commentItems (paired : seam.Paired p state state') :
    seam.Alike p (state.comments.map Item.comment) (state'.comments.map Item.comment) := by
  intro change admitted
  rw [← paired.comments change admitted]
  simp [Change.on, Recastable.recast, Item.recast]

section

variable (level : seam.Level inner inner') (resumes : seam.Resumes inner inner')
  (paired : seam.Paired p state state')

variable {left₁ left₂ : Stmt} {items₁ items₂ : List Item}

include level resumes paired

/-! ## Pipelines -/

theorem join_follows (left : seam.Alike p left₁ left₂) (connective : Connective)
    {right₁ right₂ : Reading Stmt}
    (right : ∀ {q after after'}, seam.Paired q after after' →
      seam.Follows q (right₁ after) (right₂ after')) :
    seam.Follows p (join inner left₁ connective right₁ state)
      (join inner' left₂ connective right₂ state') := by
  unfold join
  refine .skip paired _ fun leads paired => ?_
  refine (linebreaks_follow level resumes paired).bind fun second _ paired => ?_
  refine (right paired).returning fun last statement => .again fun change admitted => ?_
  have before := left.leads (leads.trans second |>.trans last) change admitted
  simp only [joined, Stmt.recast_ofDraft, recast_some, Command.recast_binary, recast_nil,
    statement change admitted, before, ← Stmt.pos_recast]

theorem pipelineRound_follows (left : seam.Alike p left₁ left₂) :
    seam.Follows p (pipelineRound inner left₁ state) (pipelineRound inner' left₂ state') := by
  unfold pipelineRound
  refine .skipBlanks paired fun leads paired => ?_
  simp only [rest_bind]
  rw [paired.sees pipe?_sighted]
  cases Connective.pipe? state.skipBlanks.cursor.rest with
  | none => exact .ok (left.leads leads).done paired
  | some connective =>
      exact join_follows level resumes paired (left.leads leads)
        connective (fun paired => command_follows level resumes paired)

theorem pipes_follow : seam.Follows p (pipes inner state) (pipes inner' state') := by
  unfold pipes
  refine (command_follows level resumes paired).bind fun _ left paired => ?_
  exact level.iterate (fun moving left state => (pipelineRound_moves moving state left).filled)
    (fun _ left paired => pipelineRound_follows level resumes paired left) left paired

theorem pipeline_follows : seam.Follows p (pipeline inner state) (pipeline inner' state') := by
  unfold pipeline
  refine .skipBlanks paired fun _ paired => ?_
  have here := paired.here
  simp only [here_bind, rest_bind]
  rw [paired.sees negates_sighted]
  refine .ite (fun _ => .skip paired 1 fun leads paired => ?_)
    fun _ => pipes_follow level resumes paired
  refine (pipes_follow level resumes paired).returning fun last statement change admitted => ?_
  rw [← statement change admitted, ← here.leads (leads.trans last) change admitted]
  exact Stmt.recast_negated change _ _

theorem logicRound_follows (left : seam.Alike p left₁ left₂) :
    seam.Follows p (logicRound inner left₁ state) (logicRound inner' left₂ state') := by
  unfold logicRound
  refine .skipBlanks paired fun leads paired => ?_
  simp only [rest_bind]
  rw [paired.sees logical?_sighted]
  cases Connective.logical? state.skipBlanks.cursor.rest with
  | none => exact .ok (left.leads leads).done paired
  | some connective =>
      exact join_follows level resumes paired (left.leads leads)
        connective (fun paired => pipeline_follows level resumes paired)

theorem logic_follows : seam.Follows p (logic inner state) (logic inner' state') := by
  unfold logic
  refine (pipeline_follows level resumes paired).bind fun _ left paired => ?_
  exact level.iterate (fun moving left state => (logicRound_moves moving state left).filled)
    (fun _ left paired => logicRound_follows level resumes paired left) left paired

/-! ## Lists of statements -/

omit level resumes in
theorem takeComments_follows (items : seam.Alike p items₁ items₂) :
    seam.Follows p (takeComments items₁ state) (takeComments items₂ state') := by
  unfold takeComments
  simp only [get_bind, modify_bind]
  exact .ok (paired.commentItems.reverse.append items) { paired with comments := .nil }

omit level resumes in
theorem statementEnd_follows : seam.Follows p (statementEnd state) (statementEnd state') := by
  unfold statementEnd
  refine .skipBlanks paired fun _ paired => ?_
  simp only [rest_bind]
  rw [paired.sees closesCaseItem_sighted]
  refine .ite (fun _ => .ok (fun _ _ => rfl) paired) fun _ => ?_
  refine .current paired fun c shape => ?_
  split
  · exact .ok (fun _ _ => rfl) paired
  · exact .ok (fun _ _ => rfl) paired
  · exact .ok (fun _ _ => rfl) paired
  · exact .ok (fun _ _ => rfl) paired
  · exact .ended paired 1 fun _ _ => rfl
  · exact .ended paired 1 fun _ _ => rfl
  · simp only [wordAt_bind]
    rw [paired.wordAt (by decide)]
    exact .ite (fun _ => .fail paired) fun _ => .ok (fun _ _ => rfl) paired

theorem statement_follows (items : seam.Alike p items₁ items₂) :
    seam.Follows p (statement inner items₁ state) (statement inner' items₂ state') := by
  unfold statement
  refine (logic_follows level resumes paired).bind fun leads statement paired => ?_
  refine (takeComments_follows paired .nil).bind fun second comments paired => ?_
  refine (statementEnd_follows paired).returning fun last background => ?_
  obtain rfl := background.same id fun _ _ => rfl
  refine (comments.leads last).append (.cons (fun change admitted => ?_)
    (items.leads (leads.trans second |>.trans last)))
  rw [Item.recast_stmt, ← statement.leads (second.trans last) change admitted]
  exact congrArg Item.stmt (Stmt.recast_background change _ _)

theorem statementRound_follows (stops : List String)
    (items : seam.Alike p items₁ items₂) :
    seam.Follows p (statementRound inner stops items₁ state)
      (statementRound inner' stops items₂ state') := by
  unfold statementRound
  refine .skipBlanks paired fun leads paired => ?_
  refine (takeComments_follows paired (items.leads leads)).bind
    fun {q items₁ items₂ after after'} _ items paired => ?_
  simp only [rest_bind]
  rw [paired.sees closesCaseItem_sighted]
  refine .ite (fun _ => .ok (.done items.reverse) paired) fun _ => ?_
  refine .current paired fun c shape => ?_
  split
  · exact .ok (.done items.reverse) paired
  · exact (newline_follows level resumes paired).returning fun last _ => .again (items.leads last)
  · refine (comment_follows paired shape).returning fun last comment => .again ?_
    exact .cons (fun change admitted => by simp [comment change admitted]) (items.leads last)
  · exact .ite (fun _ => .ok (.done items.reverse) paired) fun _ => .fail paired
  · simp only [wordAt_bind]
    rw [paired.wordAt (by decide)]
    cases listTerminators.find? after.cursor.atWord with
    | none =>
        exact (statement_follows level resumes paired items).returning fun _ items => items.again
    | some word =>
        exact .ite (fun _ => .ok (.done items.reverse) paired) fun _ => .fail paired

theorem statements_follow (stops : List String) :
    seam.Follows p (statements inner stops state) (statements inner' stops state') := by
  unfold statements
  exact level.iterate (fun moving items state => statementRound_moves moving state stops items)
    (fun _ items paired => statementRound_follows level resumes paired stops items) .nil paired

/-! ## Levels -/

end

theorem Level.around (level : seam.Level inner inner') (resumes : seam.Resumes inner inner') :
    seam.Level inner.around inner'.around where
  rounds := level.rounds
  rounds' := level.rounds'
  moving := level.moving.around
  moving' := level.moving'.around
  statements stops paired := statements_follow level resumes paired stops
  command paired := command_follows level resumes paired
  furtherConditional paired := conditional_follows level paired "elif"
  expansion quoted paired dollar := expansion_follows level resumes paired quoted dollar

theorem level_tooDeep (seam : Seam) :
    seam.Level (Inner.tooDeep seam.rounds) (Inner.tooDeep seam.rounds') where
  rounds := rfl
  rounds' := rfl
  moving := Inner.tooDeep_moving _
  moving' := Inner.tooDeep_moving _
  statements _ paired := .fail paired
  command paired := .fail paired
  furtherConditional paired := .fail paired
  expansion _ paired _ := .fail paired

/-- Two readings are followed at every depth. -/
theorem level_depth (seam : Seam)
    (resumes : ∀ {inner inner'}, seam.Level inner inner' → seam.Resumes inner inner')
    (depth : Nat) :
    seam.Level (Inner.level seam.rounds depth) (Inner.level seam.rounds' depth) := by
  induction depth with
  | zero => exact seam.level_tooDeep
  | succ depth ih => exact ih.around (resumes ih)

end Seam
end RecipeLint
