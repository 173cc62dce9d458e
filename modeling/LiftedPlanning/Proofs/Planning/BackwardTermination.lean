import LiftedPlanning.Proofs.Planning.Replay
import LiftedPlanning.Planning.Solve
import LiftedPlanning.Proofs.Search.Semicompleteness

/-!
# Backward search finds plans

Regressions go on for ever, because every one of them brings new variables with it. Still each of
them costs one, so that a backward search ends with a plan if some coherent way leads from the goal
to a subgoal that the initial situation verifies, whatever the estimate is
(`PlanningProblem.exists_solved_and_exists_solved_backward`).
-/

namespace LiftedPlanning

universe u v

namespace PlanningProblem

variable {σ : Type u} {ο : Type v} [DecidableEq σ] [Hashable σ]

/-- Without a budget, and if nobody cancels it, a search of operators that cost at least one finds a
plan if the initial state is valid and not final, and a path of valid states leads from it to a
final one. There may be infinitely many states, and the estimate may be any number. So a backward
search finds a plan if the goal is coherent and not verified, and regressions through coherent
subgoals lead from it to a verified one. -/
theorem exists_solved_and_exists_solved_backward (P : SearchSpace σ ο Nat) (p : PlanningProblem)
    (settings : SearchSettings) (cancelled : Nat → Bool)
    (hbudget : settings.maxExpansions = none) (hcancelled : ∀ n, cancelled n = false) :
    ((∀ o, 1 ≤ P.cost o) → P.isValid P.initial = true → P.isFinal P.initial = false →
      (∃ os t, P.Path P.initial os t ∧ P.isFinal t = true) →
        ∃ fuel report plan,
          (∀ more, fuel ≤ more → Search.solve P settings cancelled more = some report) ∧
          report.result = .ok (.solved plan)) ∧
    ((Subgoal.ofGoal p.goal).coherent p.rules = true →
      (Subgoal.ofGoal p.goal).verifiedBy p.initial = false →
      (∃ rs s, p.backward.Path (.ofGoal p.goal) rs s ∧ s.verifiedBy p.initial = true) →
        ∃ fuel solution plan,
          (∀ more, fuel ≤ more → p.solve .backward settings cancelled more = some (.ok solution)) ∧
          solution.outcome = .solved plan) := by
  constructor
  · rintro hcost hvalid hopen ⟨os, t, hpath, hfinal⟩
    exact Search.exists_solve_eq_solved (SearchSpace.descends_of_cost_pos hcost fun _ => 0) hbudget
      hcancelled hvalid hopen hpath hfinal
  · rintro hcoherent hopen ⟨rs, s, hpath, hverified⟩
    have hdescends : p.backward.Descends fun _ => 0 :=
      SearchSpace.descends_of_cost_pos (fun _ => Nat.one_pos) _
    obtain ⟨fuel, report, path, hsolve, hresult⟩ := Search.exists_solve_eq_solved hdescends hbudget
      hcancelled hcoherent hopen hpath hverified
    refine ⟨fuel, ⟨.solved (p.planBackward path), report.stats⟩, _, fun more hmore => ?_, rfl⟩
    rw [solve, solveIn_eq, hsolve more hmore, Option.map_some, hresult]
    rfl

/-- Somebody at zero can go up and down without an end, and is told that down is the wrong way. -/
def wandering : SearchSpace Int Int Nat where
  initial := 0
  isFinal s := s == -2
  options _ := [1, -1]
  apply o s := s + o
  isValid _ := true
  estimate s := if s < 0 then 7 else 0
  cost _ := 1

def walking : PlanningProblem where
  initial := .ofAtoms [⟨"at", [.const "A"]⟩, ⟨"road", [.const "A", .const "B"]⟩]
  actions := [⟨"walk", ["x", "y"],
    [.pos ⟨"at", [.var "x"]⟩, .pos ⟨"road", [.var "x", .var "y"]⟩], [.pos ⟨"at", [.var "y"]⟩]⟩]
  goal := ⟨[.pos ⟨"at", [.const "B"]⟩]⟩
  rules := []
  heuristic := .goalCount

/-- The way down and the way to B are found. -/
theorem exists_solved_wandering_and_walking :
    (∃ fuel report plan,
      (∀ more, fuel ≤ more →
        Search.solve wandering .default (fun _ => false) more = some report) ∧
      report.result = .ok (.solved plan)) ∧
    ∃ fuel solution plan,
      (∀ more, fuel ≤ more →
        walking.solve .backward .default (fun _ => false) more = some (.ok solution)) ∧
      solution.outcome = .solved plan := by
  have hdown : wandering.Path 0 [-1, -1] (-2) := by
    refine .cons (by decide) rfl (.cons (by decide) rfl (.nil _))
  have hway : ∃ r ∈ walking.backward.options (.ofGoal walking.goal),
      (walking.backward.apply r (.ofGoal walking.goal)).coherent walking.rules = true ∧
        (walking.backward.apply r (.ofGoal walking.goal)).verifiedBy walking.initial = true := by
    decide
  obtain ⟨r, hoffered, hcoherent, hverified⟩ := hway
  obtain ⟨hsolved, hbackward⟩ := exists_solved_and_exists_solved_backward wandering walking .default
    (fun _ => false) rfl fun _ => rfl
  exact ⟨hsolved (fun _ => Nat.le_refl _) rfl rfl ⟨_, _, hdown, rfl⟩,
    hbackward (by decide) (by decide)
      ⟨[r], _, .cons hoffered hcoherent (.nil _), hverified⟩⟩

end PlanningProblem

end LiftedPlanning
