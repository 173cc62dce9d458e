import LiftedPlanning.Planning.Problem
import LiftedPlanning.Proofs.Planning.ReachableSkeleton
import LiftedPlanning.Proofs.Planning.SubgoalPath
import LiftedPlanning.Proofs.Skeleton.Fresh

/-!
# Scopes are used once

An instance is built in the next scope of a supply, which advances when the instance is used. The
scopes that a state mentions have all been handed out before (`ScopeSupply.Exceeds`), so that a new
instance has no variable in common with the state, and no two instances of a plan share a scope
(`PlanningProblem.exceeds_and_nodup_scopes`). This holds for subgoals and for skeletons, in all
their parts.
-/

namespace LiftedPlanning

/-- All of the scopes have been handed out. -/
def ScopeSupply.Exceeds (u : ScopeSupply) (ids : List ScopeId) : Prop :=
  ∀ id ∈ ids, id.toNat < u.next.toNat

theorem ScopeSupply.Exceeds.next_not_mem {u : ScopeSupply} {ids : List ScopeId}
    (h : u.Exceeds ids) : u.next ∉ ids :=
  fun hmem => Nat.lt_irrefl _ (h _ hmem)

/-! ## Subgoals -/

namespace Subgoal

variable {s : Subgoal} {r : Regression} {actions : List Action}

def scopeIds (s : Subgoal) : List ScopeId :=
  s.literals.toList.map ScopedLiteral.scopeId ++ s.bindings.vars.map ScopedVar.scope

theorem Fresh.exceeds (h : s.Fresh) : s.supply.Exceeds s.scopeIds := by
  intro id hid
  rcases List.mem_append.1 hid with hid | hid
  · obtain ⟨l, hl, rfl⟩ := List.mem_map.1 hid
    exact h.literals l (SortedSet.mem_toList.1 hl)
  · obtain ⟨v, hv, rfl⟩ := List.mem_map.1 hid
    exact Bindings.within_iff.1 h.bindings v hv

theorem scopeId_of_mem_regressions (hr : r ∈ s.regressions actions) :
    r.inst.scope.id = s.supply.next := by
  obtain ⟨_, _, _, _, _, _, hr⟩ := mem_regressions.1 hr
  obtain ⟨_, _, _, _, rfl⟩ := mem_regressionsVia.1 hr
  rfl

end Subgoal

/-! ## Skeletons -/

namespace Skeleton

variable {S : Situation} {g : Goal} {s : Skeleton} {a : Instance} {r : Refinement}
  {actions : List Action}

def scopeIds (s : Skeleton) : List ScopeId :=
  (s.start :: s.finish :: s.steps.toList).map (fun a => a.scope.id) ++
    s.precedences.toList.flatMap (fun q => [q.first.scope.id, q.second.scope.id]) ++
    s.links.toList.flatMap
      (fun k => [k.producer.scope.id, k.proposition.scopeId, k.consumer.scope.id]) ++
    s.openConditions.flatMap (fun o => [o.step.scope.id, o.proposition.scopeId]) ++
    s.bindings.vars.map ScopedVar.scope

theorem Assembled.exceeds (h : s.Assembled S g) (hfresh : s.Fresh) :
    s.supply.Exceeds s.scopeIds := by
  have hends : ∀ q ∈ s.precedences, q.first.scope.id.toNat < s.supply.next.toNat ∧
      q.second.scope.id.toNat < s.supply.next.toNat := fun q hq =>
    ⟨h.id_lt _ (h.orderly q hq).first_mem, h.id_lt _ (h.orderly q hq).second_mem⟩
  intro id hid
  simp only [scopeIds, List.mem_append, List.mem_map, List.mem_flatMap, List.mem_cons,
    List.not_mem_nil, or_false, SortedSet.mem_toList] at hid
  rcases hid with (((⟨a, ha, rfl⟩ | ⟨q, hq, hid⟩) | ⟨k, hk, hid⟩) | ⟨o, ho, hid⟩) | ⟨v, hv, rfl⟩
  · rcases ha with rfl | rfl | ha
    · exact h.id_lt _ h.start_mem
    · exact h.id_lt _ h.finish_mem
    · exact h.id_lt a ha
  · rcases hid with rfl | rfl
    · exact (hends q hq).1
    · exact (hends q hq).2
  · rcases hid with rfl | rfl | rfl
    · exact (hends _ (h.ordered k hk)).1
    · exact hfresh.links k hk
    · exact (hends _ (h.ordered k hk)).2
  · rcases hid with rfl | rfl
    · exact h.id_lt _ (h.required o ho).1
    · exact h.scopeId_lt ho
  · exact Bindings.within_iff.1 hfresh.bindings v hv

theorem scopeId_of_mem_added (hr : r ∈ s.refinements S actions) (ha : a ∈ r.added) :
    a.scope.id = s.supply.next := by
  cases offers_of_mem_refinements hr with
  | order _ _ _ => cases ha
  | separate _ _ => cases ha
  | link _ _ _ _ => cases ha
  | addStep _ _ _ _ =>
    cases List.mem_singleton.1 ha
    rfl

theorem Assembled.nodup_scopes (h : s.Assembled S g) :
    (s.steps.toList.map fun a => a.scope.id).Nodup := by
  refine s.steps.nodup_toList.map_on fun a ha b hb hab => ?_
  exact h.id_injective a (SortedSet.mem_toList.1 ha) b (SortedSet.mem_toList.1 hb) hab

end Skeleton

/-! ## Plans -/

namespace PlanningProblem

variable {p : PlanningProblem} {root s : Skeleton} {t : Subgoal} {rs : List Regression}

/-- Regressions use one scope of the supply after the other. -/
theorem scopeIds_of_walk {s : Subgoal} (hwalk : p.backward.Walk s rs t) :
    rs.map (fun r => r.inst.scope.id.toNat) = List.range' s.supply.next.toNat rs.length := by
  induction hwalk with
  | nil s => rfl
  | @cons s t r rs hoffered _ ih =>
    rw [List.map_cons, ih, Subgoal.scopeId_of_mem_regressions hoffered, List.length_cons,
      List.range'_succ]
    rfl

theorem nodup_scopes_of_walk {s : Subgoal} (hwalk : p.backward.Walk s rs t) :
    (rs.map fun r => r.inst.scope.id).Nodup := by
  have hnodup : (rs.map fun r => r.inst.scope.id.toNat).Nodup := by
    rw [scopeIds_of_walk hwalk]
    exact List.nodup_range'
  refine List.Nodup.of_map ScopeId.toNat ?_
  rw [List.map_map]
  exact hnodup

theorem scopeId_ne_goal_of_walk (hwalk : p.backward.Walk (.ofGoal p.goal) rs t) :
    ∀ r ∈ rs, r.inst.scope.id ≠ .goal := by
  intro r hr hgoal
  have hscopes : rs.map (fun r => r.inst.scope.id.toNat) = List.range' 1 rs.length :=
    scopeIds_of_walk hwalk
  have hmem : r.inst.scope.id.toNat ∈ List.range' 1 rs.length :=
    hscopes ▸ List.mem_map_of_mem hr
  rw [hgoal] at hmem
  exact absurd (List.mem_range'_1.1 hmem).1 (Nat.not_succ_le_zero 0)

theorem skeleton_fresh_of_reachable (hroot : Skeleton.ofGoal p.initial p.goal = .ok root)
    (hs : (p.refinement root).Reachable s) : s.Fresh := by
  induction hs with
  | initial => exact Skeleton.fresh_ofGoal hroot
  | apply hs hoffered ih =>
    obtain ⟨h, _⟩ := assembled_and_acyclic_of_reachable hroot hs
    exact h.fresh_refine ih hoffered

theorem scopeId_ne_goal_of_reachable (hroot : Skeleton.ofGoal p.initial p.goal = .ok root)
    (hs : (p.refinement root).Reachable s) : ∀ a ∈ s.steps, a.scope.id ≠ .goal := by
  induction hs with
  | initial =>
    obtain ⟨_, _, _, _, _, _, _, _, rfl⟩ := Skeleton.ofGoal_eq_ok hroot
    intro a ha
    have ha := Skeleton.mem_steps_frame.1 ha
    simp only [List.mem_cons, List.not_mem_nil, or_false] at ha
    rcases ha with rfl | rfl
    · exact (by decide : (⟨1⟩ : ScopeId) ≠ .goal)
    · exact (by decide : (⟨2⟩ : ScopeId) ≠ .goal)
  | @apply s r hs hoffered ih =>
    obtain ⟨h, _⟩ := assembled_and_acyclic_of_reachable hroot hs
    intro a ha hgoal
    rcases Skeleton.mem_steps_refine.1 ha with ha | ha
    · exact ih a ha hgoal
    · rw [Skeleton.scopeId_of_mem_added hoffered ha] at hgoal
      have hlt := h.id_lt _ h.start_mem
      rw [hgoal] at hlt
      exact Nat.not_lt_zero _ hlt

/-- The scopes that occur in a subgoal to which regressions lead have all been handed out, and the
regressions that it offers use the next one; the scopes of the regressions that led there differ
from each other and from that of the goal. In the same way the scopes that occur in a skeleton have
been handed out, new steps use the next one, and the scopes of its steps differ from each other and
from that of the goal. -/
theorem exceeds_and_nodup_scopes (p : PlanningProblem) :
    (∀ rs s, p.backward.Walk (.ofGoal p.goal) rs s →
      s.supply.Exceeds s.scopeIds ∧
      (∀ r ∈ p.backward.options s,
        r.inst.scope.id = s.supply.next ∧ r.inst.scope.id ∉ s.scopeIds) ∧
      (rs.map fun r => r.inst.scope.id).Nodup ∧ ∀ r ∈ rs, r.inst.scope.id ≠ .goal) ∧
    ∀ root, Skeleton.ofGoal p.initial p.goal = .ok root → ∀ s, (p.refinement root).Reachable s →
      s.supply.Exceeds s.scopeIds ∧
      (∀ step o c, .addStep step o c ∈ (p.refinement root).options s →
        step.scope.id = s.supply.next ∧ step.scope.id ∉ s.scopeIds) ∧
      (s.steps.toList.map fun a => a.scope.id).Nodup ∧ ∀ a ∈ s.steps, a.scope.id ≠ .goal := by
  constructor
  · intro rs s hwalk
    have hexceeds := (subgoal_fresh_of_reachable (hwalk.reachable .initial)).exceeds
    refine ⟨hexceeds, fun r hr => ?_, nodup_scopes_of_walk hwalk, scopeId_ne_goal_of_walk hwalk⟩
    have hnext := Subgoal.scopeId_of_mem_regressions hr
    exact ⟨hnext, hnext ▸ hexceeds.next_not_mem⟩
  · intro root hroot s hs
    obtain ⟨h, _⟩ := assembled_and_acyclic_of_reachable hroot hs
    have hexceeds := h.exceeds (skeleton_fresh_of_reachable hroot hs)
    refine ⟨hexceeds, fun step o c hr => ?_, h.nodup_scopes, scopeId_ne_goal_of_reachable hroot hs⟩
    have hnext := Skeleton.scopeId_of_mem_added hr (List.mem_singleton_self step)
    exact ⟨hnext, hnext ▸ hexceeds.next_not_mem⟩

theorem nodup_scopes_nailing :
    (∃ r s, nailing.backward.Walk (.ofGoal nailing.goal) [r] s ∧ s.supply.Exceeds s.scopeIds ∧
      r.inst.scope.id ≠ .goal) ∧
    nailingSkeleton.supply.Exceeds nailingSkeleton.scopeIds ∧
      (nailingSkeleton.steps.toList.map fun a => a.scope.id).Nodup := by
  have hoffers : nailing.backward.options (.ofGoal nailing.goal) ≠ [] := by decide
  obtain ⟨r, hr⟩ := List.exists_mem_of_ne_nil _ hoffers
  have hwalk : nailing.backward.Walk (.ofGoal nailing.goal) [r] _ := .cons hr (.nil _)
  have hroot : Skeleton.ofGoal nailing.initial nailing.goal = .ok nailingRoot := by rfl
  obtain ⟨hbackward, hrefinement⟩ := exceeds_and_nodup_scopes nailing
  obtain ⟨hsubgoal, _, _, hgoal⟩ := hbackward [r] _ hwalk
  obtain ⟨hskeleton, _, hnodup, _⟩ := hrefinement _ hroot _ reachable_nailingSkeleton
  exact ⟨⟨r, _, hwalk, hsubgoal, hgoal r (List.mem_singleton_self r)⟩, hskeleton, hnodup⟩

end PlanningProblem

end LiftedPlanning
