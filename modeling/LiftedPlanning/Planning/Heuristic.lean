import LiftedPlanning.Action.Schema

/-!
# Estimates

All strategies estimate the number of instances that are still needed from the number of literals
that are missing. One instance changes no more literals than its action has effects.
-/

namespace LiftedPlanning

/-- How the remaining cost is estimated. -/
inductive Heuristic where
  /-- Missing literals, divided by the number of effects of the widest action. -/
  | goalCount
  /-- Nothing is assumed. -/
  | blind
deriving DecidableEq, Inhabited

namespace Heuristic

/-- The least number of instances of at most `widest` effects that change `missing` literals. -/
def estimate (h : Heuristic) (missing widest : Nat) : Nat :=
  match h with
  | goalCount => (missing + (max widest 1 - 1)) / max widest 1
  | blind => 0

/-- The same quotient for a missing quantity that need not be a whole number. The number of effects
counts at most as the largest number of 32 bits. -/
def scale (h : Heuristic) (missing : Float) (widest : Nat) : Float :=
  match h with
  | goalCount => (missing / Float.ofNat (min (max widest 1) 4294967295)).ceil
  | blind => 0.0

def widestEffect (actions : List Action) : Nat :=
  ((actions.map fun a => a.effects.length).max?).getD 1

@[simp] theorem estimate_blind (missing widest : Nat) : blind.estimate missing widest = 0 := rfl

/-- The estimate is the least number of instances that can change all missing literals. -/
theorem estimate_goalCount_le_iff {missing widest n : Nat} :
    goalCount.estimate missing widest ≤ n ↔ missing ≤ n * max widest 1 := by
  have hpos : 0 < max widest 1 := by omega
  rw [estimate, Nat.div_le_iff_le_mul_add_pred hpos, Nat.mul_comm n]
  omega

theorem length_effects_le_widestEffect {actions : List Action} {a : Action} (h : a ∈ actions) :
    a.effects.length ≤ widestEffect actions :=
  List.le_max?_getD_of_mem (List.mem_map.2 ⟨a, h, rfl⟩)

end Heuristic

end LiftedPlanning
