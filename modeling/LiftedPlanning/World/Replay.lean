import LiftedPlanning.World.Goal

/-!
# Replaying a plan

The instances of a plan are executed one after the other, each in the situation that the ones before
it have left, and the goal is tested at the end.
-/

namespace LiftedPlanning

inductive ReplayError where
  | inapplicable (index : Nat) (step : Instance) (situation : Situation)
  | goalUnmet (situation : Situation)
deriving DecidableEq

namespace Situation

/-- Executes instances, of which the first has the given index, while they are applicable. -/
def executeFrom (index : Nat) (S : Situation) : List Instance → Except ReplayError Situation
  | [] => .ok S
  | i :: is =>
    if S.applicable i then executeFrom (index + 1) (S.apply i) is
    else .error (.inapplicable index i S)

def replay (S : Situation) (plan : List Instance) (goal : Goal) : Except ReplayError Situation :=
  match S.executeFrom 0 plan with
  | .error e => .error e
  | .ok T => if goal.satisfiedBy T then .ok T else .error (.goalUnmet T)

theorem executeFrom_cons (index : Nat) (S : Situation) (i : Instance) (is : List Instance) :
    S.executeFrom index (i :: is) =
      if S.applicable i then executeFrom (index + 1) (S.apply i) is
      else .error (.inapplicable index i S) := rfl

theorem executeFrom_append (index : Nat) (S : Situation) (is js : List Instance) :
    S.executeFrom index (is ++ js) =
      (S.executeFrom index is).bind fun T => T.executeFrom (index + is.length) js := by
  induction is generalizing index S with
  | nil => rfl
  | cons i is ih =>
    rw [List.cons_append, executeFrom_cons, executeFrom_cons]
    split
    · rw [ih, List.length_cons, Nat.add_assoc, Nat.add_comm 1]
    · rfl

theorem replay_eq_ok_iff {S T : Situation} {plan : List Instance} {goal : Goal} :
    S.replay plan goal = .ok T ↔ S.executeFrom 0 plan = .ok T ∧ goal.satisfiedBy T = true := by
  unfold replay
  cases S.executeFrom 0 plan with
  | error e => simp
  | ok U =>
    by_cases h : goal.satisfiedBy U = true
    · simp only [h, if_true, Except.ok.injEq]
      exact ⟨fun hUT => ⟨hUT, hUT ▸ h⟩, fun hUT => hUT.1⟩
    · simp only [h, Bool.false_eq_true, if_false, reduceCtorEq, Except.ok.injEq, false_iff, not_and]
      rintro rfl hU
      exact h hU

end Situation

end LiftedPlanning
