import LiftedPlanning.Proofs.Planning.Backward
import LiftedPlanning.Proofs.Regression.Execution
import LiftedPlanning.Proofs.Search.Exhaustion

/-!
# Paths of subgoals

Along a path of subgoals the bindings grow narrower, and each literal of the first subgoal is
required to the end unless a regression of the path achieves it.
-/

namespace LiftedPlanning

namespace PlanningProblem

variable {p : PlanningProblem} {s t : Subgoal} {r : Regression} {rs : List Regression}
  {m : Assignment} {l : ScopedLiteral}

theorem models_of_path (hpath : p.backward.Path s rs t) (hwell : s.bindings.WellFormed)
    (hm : m.Models t.bindings) : m.Models s.bindings := by
  induction hpath with
  | nil s => exact hm
  | cons hoffered _ _ ih =>
    obtain ⟨_, hsupports⟩ := Subgoal.supports_of_mem_regressions hwell hoffered
    exact hsupports.models m (ih hsupports.wellFormed hm)

theorem wellFormed_of_reachable (hs : p.backward.Reachable s) : s.bindings.WellFormed := by
  induction hs with
  | initial => exact Bindings.wellFormed_empty
  | apply _ hoffered ih =>
    obtain ⟨_, hsupports⟩ := Subgoal.supports_of_mem_regressions ih hoffered
    exact hsupports.wellFormed

theorem subgoal_fresh_of_reachable (hs : p.backward.Reachable s) : s.Fresh := by
  induction hs with
  | initial => exact Subgoal.fresh_ofGoal p.goal
  | apply _ hoffered ih => exact ih.of_mem_regressions hoffered

theorem action_mem_of_subgoalPath (hpath : p.backward.Path s rs t) (hwell : s.bindings.WellFormed)
    (hr : r ∈ rs) : r.inst.action ∈ p.actions := by
  obtain ⟨s', ps, _, hps, hoffered, _⟩ := hpath.exists_of_mem hr
  obtain ⟨⟨action, haction, hinst⟩, _⟩ :=
    Subgoal.supports_of_mem_regressions (wellFormed_of_path hps hwell) hoffered
  rw [hinst]
  exact haction

/-- A required literal is achieved on the way or still required at the end. -/
theorem mem_or_achieves_of_path (hpath : p.backward.Path s rs t) (hwell : s.bindings.WellFormed)
    (hl : l ∈ s.literals) :
    l ∈ t.literals ∨ ∃ r ∈ rs, ∀ m : Assignment, m.Models t.bindings → r.inst.Achieves m l := by
  induction hpath with
  | nil s => exact .inl hl
  | @cons s t r rs hoffered _ hrest ih =>
    obtain ⟨_, hsupports⟩ := Subgoal.supports_of_mem_regressions hwell hoffered
    by_cases hachieved : l ∈ r.achieved
    · refine .inr ⟨r, List.mem_cons_self .., fun m hm => ?_⟩
      exact hsupports.achieves m (models_of_path hrest hsupports.wellFormed hm) l hachieved
    · have hkept : l ∈ (s.regress r).literals :=
        Subgoal.mem_foldl_require_of_mem (SortedSet.mem_diff.2 ⟨hl, hachieved⟩)
      refine (ih hsupports.wellFormed hkept).imp_right ?_
      rintro ⟨r', hr', hachieves⟩
      exact ⟨r', List.mem_cons_of_mem _ hr', hachieves⟩

end PlanningProblem

end LiftedPlanning
