import LiftedPlanning.Proofs.Skeleton.Extension
import LiftedPlanning.Proofs.World.Reading

/-!
# Fresh scopes of skeletons

Refinements take the scopes of new steps from the supply, so that the variables of the scopes still
to be handed out are not constrained yet (`Skeleton.Fresh`).
-/

namespace LiftedPlanning

theorem Instance.scopeId_of_mem_preconditions {i : Instance} {l : ScopedLiteral}
    (hl : l ∈ i.preconditions) : l.scopeId = i.scope.id := by
  obtain ⟨_, _, rfl⟩ := List.mem_map.1 hl
  rfl

namespace Skeleton

variable {S : Situation} {g : Goal} {s : Skeleton} {o : OpenCondition} {r : Refinement}
  {actions : List Action}

structure Fresh (s : Skeleton) : Prop where
  bindings : s.bindings.Within s.supply.next.toNat
  links : ∀ k ∈ s.links, k.proposition.scopeId.toNat < s.supply.next.toNat

theorem fresh_ofGoal (h : ofGoal S g = .ok s) : s.Fresh := by
  obtain ⟨_, _, _, _, _, _, _, _, rfl⟩ := ofGoal_eq_ok h
  exact ⟨Bindings.within_empty _, fun k hk => absurd hk (SortedSet.not_mem_empty k)⟩

theorem Assembled.scopeId_lt (h : s.Assembled S g) (ho : o ∈ s.openConditions) :
    o.proposition.scopeId.toNat < s.supply.next.toNat := by
  obtain ⟨hstep, hrequired⟩ := h.required o ho
  rw [Instance.scopeId_of_mem_preconditions hrequired]
  exact h.id_lt _ hstep

theorem Assembled.fresh_refine (h : s.Assembled S g) (hfresh : s.Fresh)
    (hr : r ∈ s.refinements S actions) : (s.refine r).Fresh := by
  cases offers_of_mem_refinements hr with
  | order _ _ _ => exact ⟨hfresh.bindings, hfresh.links⟩
  | @separate t c threat protects =>
    obtain ⟨hlink, hstep, _⟩ := mem_threats.1 threat
    refine ⟨hfresh.bindings.of_mem_protecting (h.id_lt _ hstep) (fun l hl => ?_) protects,
      hfresh.links⟩
    rw [List.mem_singleton.1 hl]
    exact hfresh.links _ hlink
  | @link o a c condition step _ supports =>
    have hscope := h.scopeId_lt condition
    refine ⟨?_, fun k hk => ?_⟩
    · rw [support?] at supports
      split at supports
      · cases supports
        exact hfresh.bindings
      · exact hfresh.bindings.establishing? (h.id_lt _ step) hscope supports
    · rcases SortedSet.mem_insert.1 hk with rfl | hk
      · exact hscope
      · exact hfresh.links k hk
  | @addStep o action e c condition _ _ unifies =>
    have hscope := Nat.lt_succ_of_lt (h.scopeId_lt condition)
    refine ⟨?_, fun k hk => ?_⟩
    · exact (hfresh.bindings.mono (Nat.le_succ _)).unify? (Nat.lt_succ_self _) hscope unifies
    · rcases SortedSet.mem_insert.1 hk with rfl | hk
      · exact hscope
      · exact Nat.lt_succ_of_lt (hfresh.links k hk)

end Skeleton

end LiftedPlanning
