import LiftedPlanning.Proofs.Planning.PartialOrder
import LiftedPlanning.Proofs.Search.Exhaustion
import LiftedPlanning.Proofs.Skeleton.Extension

/-!
# Paths of skeletons

The last skeleton of a path extends the first one, by as many steps as the path costs.
-/

namespace LiftedPlanning

namespace PlanningProblem

variable {p : PlanningProblem} {root s t : Skeleton} {rs : List Refinement} {a : Instance}

theorem extends_of_path (hactions : ∀ a ∈ p.actions, a.WellFormed)
    (hs : s.Invariant p.initial p.goal) (hpath : (p.refinement root).Path s rs t) :
    t.Extends s := by
  induction hpath with
  | nil s => exact .refl s
  | cons hoffered _ _ ih =>
    exact (ih (hs.refine hactions hoffered)).trans (hs.extends_refine hoffered)

theorem mem_steps_of_path (hpath : (p.refinement root).Path s rs t) :
    a ∈ t.steps ↔ a ∈ s.steps ∨ a ∈ rs.flatMap Refinement.added := by
  induction hpath with
  | nil s => simp
  | cons _ _ _ ih =>
    rw [ih, List.flatMap_cons, List.mem_append, ← or_assoc]
    exact or_congr_left Skeleton.mem_steps_refine

theorem action_mem_of_added (hpath : (p.refinement root).Path s rs t) :
    ∀ a ∈ rs.flatMap Refinement.added, a.action ∈ p.actions := by
  intro a ha
  obtain ⟨r, hr, ha⟩ := List.mem_flatMap.1 ha
  obtain ⟨u, _, _, _, hoffered, _⟩ := hpath.exists_of_mem hr
  exact Skeleton.action_mem_of_mem_added hoffered ha

theorem totalCost_refinement (p : PlanningProblem) (root : Skeleton) (rs : List Refinement) :
    (p.refinement root).totalCost rs = (rs.flatMap Refinement.added).length := by
  induction rs with
  | nil => rfl
  | cons r rs ih =>
    rw [SearchSpace.totalCost_cons, List.flatMap_cons, List.length_append, r.length_added, ih]
    rfl

theorem length_properSteps_of_path (hs : s.Assembled p.initial p.goal)
    (hpath : (p.refinement root).Path s rs t) :
    t.properSteps.length = s.properSteps.length + (p.refinement root).totalCost rs := by
  rw [totalCost_refinement]
  induction hpath with
  | nil s => rfl
  | @cons s t r rs hoffered _ _ ih =>
    have hperm : (s.refine r).properSteps.Perm (r.added ++ s.properSteps) :=
      hs.perm_properSteps_refine hoffered
    have hlength : t.properSteps.length = (s.refine r).properSteps.length + _ :=
      ih (hs.refine hoffered)
    rw [hlength, hperm.length_eq, List.flatMap_cons, List.length_append, List.length_append]
    omega

end PlanningProblem

end LiftedPlanning
