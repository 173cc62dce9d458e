import LiftedPlanning.Planning.Solve
import LiftedPlanning.Proofs.Search.Arena
import LiftedPlanning.Proofs.Search.Forced
import LiftedPlanning.Proofs.World.Matching

/-!
# What a replay accepts

A plan that can be executed is replayed without an error exactly if some choice of objects makes the
goal true at its end, whatever the variables stand for that occur in denied literals only
(`Situation.replay_eq_ok_iff_certain`). For a goal without such variables a choice that makes it
true is enough.
-/

namespace LiftedPlanning

namespace Situation

variable {S T : Situation} {plan : List Instance} {g : Goal}

theorem replay_eq_ok_iff_certain (hrun : S.executeFrom 0 plan = .ok T) (hT : T.Ground) :
    S.replay plan g = .ok T ↔ ∃ ν : String → String, g.CertainUnder ν T := by
  rw [replay_eq_ok_iff, ← Goal.satisfiedBy_iff_certain hT]
  exact and_iff_right hrun

theorem replay_of_rangeRestricted (hrun : S.executeFrom 0 plan = .ok T) (hT : T.Ground)
    (hrange : g.RangeRestricted) {ν : String → String} (hν : g.TrueUnder ν T) :
    S.replay plan g = .ok T :=
  (replay_eq_ok_iff_certain hrun hT).2 ⟨ν, hrange.certainUnder hν⟩

end Situation

namespace PlanningProblem

section

variable {σ ο : Type} [DecidableEq σ] [Hashable σ]

variable {P : SearchSpace σ ο Nat} {restate : Plan σ (Offer ο) Nat → Plan FinalState Instance Nat}
  {settings : SearchSettings} {cancelled : Nat → Bool} {fuel : Nat} {solution : Solution}
  {plan : Plan FinalState Instance Nat}

/-- The search that is run reports what the search reports whose nodes carry their paths. -/
theorem solveIn_eq (P : SearchSpace σ ο Nat)
    (restate : Plan σ (Offer ο) Nat → Plan FinalState Instance Nat) (settings : SearchSettings)
    (cancelled : Nat → Bool) (fuel : Nat) :
    solveIn P restate settings cancelled fuel =
      (Search.solve P settings cancelled fuel).map fun report =>
        match report.result with
        | .error e => .error (.search e)
        | .ok outcome => .ok ⟨outcome.mapPlan restate, report.stats⟩ :=
  congrArg (Option.map _) (ArenaSearch.solve_eq P settings cancelled fuel)

theorem solveIn_of_forced {o : ο} {os : List ο} {t : σ} (hvalid : P.isValid P.initial = true)
    (h : P.Forced P.initial (o :: os) t) (hnodup : (P.visited P.initial (o :: os)).Nodup) :
    solveIn P restate .default (fun _ => false) (os.length + 2) =
      some (.ok ⟨.solved (restate ⟨Search.offers 0 (o :: os), P.totalCost (o :: os), t⟩),
        { expanded := os.length + 1, generated := os.length + 1 }⟩) := by
  rw [solveIn_eq, Search.solve_of_forced hvalid h hnodup]
  rfl

theorem solveIn_eq_ok (h : solveIn P restate settings cancelled fuel = some (.ok solution)) :
    ∃ report outcome, Search.solve P settings cancelled fuel = some report ∧
      report.result = .ok outcome ∧ solution.outcome = outcome.mapPlan restate := by
  rw [solveIn_eq] at h
  obtain ⟨report, hreport, h⟩ := Option.map_eq_some_iff.1 h
  split at h
  · cases h
  · next outcome hresult =>
    cases h
    exact ⟨report, outcome, hreport, hresult, rfl⟩

theorem solveIn_eq_solved (h : solveIn P restate settings cancelled fuel = some (.ok solution))
    (hsolved : solution.outcome = .solved plan) :
    ∃ report path, Search.solve P settings cancelled fuel = some report ∧
      report.result = .ok (.solved path) ∧ plan = restate path := by
  obtain ⟨report, outcome, hreport, hresult, houtcome⟩ := solveIn_eq_ok h
  rw [hsolved] at houtcome
  cases outcome with
  | solved path =>
    cases houtcome
    exact ⟨report, path, hreport, hresult, rfl⟩
  | _ => cases houtcome

theorem solveIn_eq_unreachable
    (h : solveIn P restate settings cancelled fuel = some (.ok solution))
    (hunreachable : solution.outcome = .unreachable) :
    ∃ report, Search.solve P settings cancelled fuel = some report ∧
      report.result = .ok .unreachable := by
  obtain ⟨report, outcome, hreport, hresult, houtcome⟩ := solveIn_eq_ok h
  rw [hunreachable] at houtcome
  cases outcome with
  | unreachable => exact ⟨report, hreport, hresult⟩
  | _ => cases houtcome

theorem solveIn_eq_alreadySatisfied
    (h : solveIn P restate settings cancelled fuel = some (.ok solution))
    (hsatisfied : solution.outcome = .alreadySatisfied) :
    ∃ report, Search.solve P settings cancelled fuel = some report ∧
      report.result = .ok .alreadySatisfied := by
  obtain ⟨report, outcome, hreport, hresult, houtcome⟩ := solveIn_eq_ok h
  rw [hsatisfied] at houtcome
  cases outcome with
  | alreadySatisfied => exact ⟨report, hreport, hresult⟩
  | _ => cases houtcome

end

/-- The goal asks for something that is not there. One of two objects can be removed. -/
def clearing : PlanningProblem where
  initial := .ofAtoms [⟨"q", [.const "A"]⟩, ⟨"q", [.const "B"]⟩]
  actions := [⟨"del", [], [], [.neg ⟨"q", [.const "A"]⟩]⟩]
  goal := ⟨[.neg ⟨"q", [.var "y"]⟩]⟩
  rules := []
  heuristic := .blind

def storing : PlanningProblem where
  initial := .ofAtoms [⟨"onTable", [.const "A"]⟩]
  actions := [
    ⟨"store", ["x"], [.pos ⟨"holding", [.var "x"]⟩],
      [.neg ⟨"holding", [.var "x"]⟩, .pos ⟨"stored", [.var "x"]⟩]⟩,
    ⟨"take", ["x"], [.pos ⟨"onTable", [.var "x"]⟩],
      [.neg ⟨"onTable", [.var "x"]⟩, .pos ⟨"holding", [.var "x"]⟩]⟩]
  goal := ⟨[.pos ⟨"stored", [.var "y"]⟩]⟩
  rules := []
  heuristic := .blind

end PlanningProblem

end LiftedPlanning
