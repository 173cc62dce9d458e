import Mathlib.Data.Set.Finite.Lattice
import Mathlib.Order.Preorder.Finite
import Mathlib.Order.WellFounded
import LiftedPlanning.Proofs.Search.Exhaustion

/-!
# Operators that cost nothing

Operators that cost nothing may lower a weight that cannot fall for ever
(`SearchSpace.Descends`). They are then never the only ones from some point on
(`SearchSpace.Endless.infinite_cost_ne_zero`), and although there may be infinitely many states,
those that can be reached at a bounded cost are finitely many
(`SearchSpace.Descends.finite_of_totalCost_le`). If all operators cost something, this holds of any
weight.
-/

namespace LiftedPlanning

universe u v w

namespace SearchSpace

variable {σ : Type u} {ο : Type v} {W : Type w} {P : SearchSpace σ ο Nat} {s : σ} {weight : σ → W}

/-- Operators that cost nothing lower the weight of the states that are reached. -/
def Descends [LT W] (P : SearchSpace σ ο Nat) (weight : σ → W) : Prop :=
  ∀ s, P.Reachable s → ∀ o ∈ P.options s, P.cost o = 0 → weight (P.apply o s) < weight s

theorem descends_of_cost_pos [LT W] (hcost : ∀ o, 0 < P.cost o) (weight : σ → W) :
    P.Descends weight :=
  fun _ _ o _ hzero => absurd hzero (Nat.ne_of_gt (hcost o))

/-- Offered operators are applied one after the other without an end. -/
structure Endless (P : SearchSpace σ ο Nat) (states : Nat → σ) (operators : Nat → ο) : Prop where
  offered : ∀ n, operators n ∈ P.options (states n)
  next : ∀ n, states (n + 1) = P.apply (operators n) (states n)

theorem Endless.reachable {states : Nat → σ} {operators : Nat → ο}
    (h : P.Endless states operators) (hstart : P.Reachable (states 0)) (n : Nat) :
    P.Reachable (states n) := by
  induction n with
  | zero => exact hstart
  | succ n ih =>
    rw [h.next]
    exact ih.apply (h.offered n)

/-- Infinitely many of the operators cost something. -/
theorem Endless.infinite_cost_ne_zero [Preorder W] [WellFoundedLT W] {states : Nat → σ}
    {operators : Nat → ο} (h : P.Endless states operators) (hdescends : P.Descends weight)
    (hstart : P.Reachable (states 0)) : {n | P.cost (operators n) ≠ 0}.Infinite := by
  refine Set.infinite_of_forall_exists_gt fun k => ?_
  -- The weight does not fall with every operator after number `k`.
  obtain ⟨n, hn⟩ := WellFounded.not_rel_apply_succ (r := (· < ·))
    fun n => weight (states (k + 1 + n))
  refine ⟨k + 1 + n, fun hzero => hn ?_, by omega⟩
  change weight (states (k + 1 + n + 1)) < weight (states (k + 1 + n))
  rw [h.next]
  exact hdescends _ (h.reachable hstart _) _ (h.offered _) hzero

/-- Finitely many states can be reached from a state at a bounded cost. -/
theorem Descends.finite_of_totalCost_le [Preorder W] [WellFoundedLT W]
    (h : P.Descends weight) (hs : P.Reachable s) (n : Nat) :
    {t | ∃ os, P.Path s os t ∧ P.totalCost os ≤ n}.Finite := by
  -- The first operator uses up some of the cost, or lowers the weight.
  induction n using Nat.strong_induction_on generalizing s with
  | _ n ihcost =>
  induction hweight : weight s using WellFoundedLT.induction generalizing s with
  | _ w ihweight =>
  subst hweight
  have hrest : ∀ o ∈ P.options s,
      {t | ∃ os, P.Path (P.apply o s) os t ∧ P.cost o + P.totalCost os ≤ n}.Finite := by
    intro o ho
    have hnext : P.Reachable (P.apply o s) := hs.apply ho
    rcases Nat.eq_zero_or_pos (P.cost o) with hzero | hpos
    · simp only [hzero, Nat.zero_add]
      exact ihweight _ (h s hs o ho hzero) hnext rfl
    · by_cases hle : P.cost o ≤ n
      · refine (ihcost (n - P.cost o) (by omega) hnext).subset ?_
        rintro t ⟨os, hpath, hcost⟩
        exact ⟨os, hpath, by omega⟩
      · refine Set.finite_empty.subset ?_
        rintro t ⟨os, _, hcost⟩
        omega
  refine ((Set.finite_singleton s).union
    ((List.finite_toSet (P.options s)).biUnion hrest)).subset ?_
  rintro t ⟨os, hpath, hcost⟩
  cases hpath with
  | nil => exact .inl rfl
  | @cons _ _ o os hoffered hvalid hpath =>
    rw [P.totalCost_cons] at hcost
    exact .inr (Set.mem_biUnion hoffered ⟨os, hpath, hcost⟩)

end SearchSpace

end LiftedPlanning
