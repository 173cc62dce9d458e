import LiftedPlanning.Proofs.Planning.ReachableSkeleton
import LiftedPlanning.Proofs.Skeleton.Threats

/-!
# Repairs lose no solution

A skeleton stands for the total orders of its steps that accord with its precedences
(`Skeleton.LinearExtension`), each under any model of its bindings. The threat that is repaired
first divides them among its repairs: those and only those are left in which the step does not come
between the ends of the link, or does not undo what the link provides
(`PlanningProblem.exists_refinement_iff_of_threat`).
-/

namespace LiftedPlanning

namespace Skeleton

variable {s : Skeleton} {order : List Instance} {a b : Instance} {t : Threat} {r : Refinement}

/-- All steps in a total order in which the precedences lead to later steps. -/
structure LinearExtension (s : Skeleton) (order : List Instance) : Prop where
  perm : order.Perm s.steps.toList
  ascends : s.Ascends order.idxOf

instance (s : Skeleton) (order : List Instance) : Decidable (s.LinearExtension order) :=
  decidable_of_iff (order.Perm s.steps.toList ∧ s.Ascends order.idxOf)
    ⟨fun ⟨hperm, hascends⟩ => ⟨hperm, hascends⟩, fun h => ⟨h.perm, h.ascends⟩⟩

theorem LinearExtension.idxOf_injective (h : s.LinearExtension order) (ha : a ∈ s.steps)
    (hab : order.idxOf a = order.idxOf b) : a = b :=
  (List.idxOf_inj (h.perm.mem_iff.2 (SortedSet.mem_toList.2 ha))).1 hab

theorem LinearExtension.refine_iff (h : s.LinearExtension order) (hr : r ∈ s.repairs t) :
    (s.refine r).LinearExtension order ↔ (s.refine r).Ascends order.idxOf := by
  refine ⟨LinearExtension.ascends, fun hascends => ⟨?_, hascends⟩⟩
  rw [eq_of_mem_repairs hr]
  exact h.perm

end Skeleton

namespace PlanningProblem

variable {p : PlanningProblem} {root s : Skeleton} {t : Threat} {ts : List Threat}
  {order : List Instance} {m : Assignment}

/-- Some repair of the first threat allows for a given order of the steps and a given model of the
bindings, exactly if in this order the step does not come strictly between the ends of the link, or
in this model none of its effects is the negation of what the link provides. -/
theorem exists_refinement_iff_of_threat (hroot : Skeleton.ofGoal p.initial p.goal = .ok root)
    (hs : (p.refinement root).Reachable s) (hthreats : s.threats = t :: ts)
    (horder : s.LinearExtension order) (hm : m.Models s.bindings) :
    (∃ r ∈ (p.refinement root).options s,
        ((p.refinement root).apply r s).LinearExtension order ∧
          m.Models ((p.refinement root).apply r s).bindings) ↔
      ¬ (order.idxOf t.link.producer < order.idxOf t.step ∧
          order.idxOf t.step < order.idxOf t.link.consumer) ∨
        ¬ t.step.Undoes m t.link.proposition := by
  obtain ⟨h, _⟩ := assembled_and_acyclic_of_reachable hroot hs
  have ht : t ∈ s.threats := hthreats ▸ List.mem_cons_self ..
  have hoptions : (p.refinement root).options s = s.repairs t :=
    Skeleton.refinements_of_threats hthreats p.initial p.actions
  rw [hoptions, ← h.exists_repair_iff ht horder.ascends
    (fun _ ha _ _ hab => horder.idxOf_injective ha hab) hm]
  exact exists_congr fun r => and_congr_right fun hr =>
    and_congr_left fun _ => horder.refine_iff hr

def nailingThreat : Threat :=
  ⟨nailingStep, (nailingCondition (.pos ⟨"free", [.const "A"]⟩)).linkFrom nailingRoot.start⟩

/-- The new step has to come between the ends of the link, but it can use nail B. -/
theorem exists_refinement_nailing :
    (nailingThreatened.threats = [nailingThreat] ∧
      nailingThreatened.LinearExtension
        [nailingRoot.start, nailingStep, nailingRoot.finish]) ∧
    ∃ r ∈ (nailing.refinement nailingRoot).options nailingThreatened,
      (nailingThreatened.refine r).LinearExtension
        [nailingRoot.start, nailingStep, nailingRoot.finish] ∧
      Assignment.Models (fun _ => "B") (nailingThreatened.refine r).bindings := by
  have hroot : Skeleton.ofGoal nailing.initial nailing.goal = .ok nailingRoot := by rfl
  have hthreats : nailingThreatened.threats = [nailingThreat] := of_decide_eq_true (by cbv)
  have horder : nailingThreatened.LinearExtension
      [nailingRoot.start, nailingStep, nailingRoot.finish] := by decide
  have hm : Assignment.Models (fun _ => "B") nailingThreatened.bindings :=
    Assignment.models_empty _
  have hunharmed : ¬ nailingStep.Undoes (fun _ => "B") nailingThreat.link.proposition := by
    simp only [Instance.Undoes]
    decide
  exact ⟨⟨hthreats, horder⟩, (exists_refinement_iff_of_threat hroot reachable_nailingThreatened
    hthreats horder hm).2 (.inr hunharmed)⟩

end PlanningProblem

end LiftedPlanning
