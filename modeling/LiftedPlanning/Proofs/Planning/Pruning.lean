import LiftedPlanning.Proofs.Planning.RegressionStep
import LiftedPlanning.Proofs.Regression.Coherence

/-!
# Subgoals that are pruned

Backward search drops the subgoals that contradict themselves or a rule. Whatever a subgoal requires
is true in a situation that verifies it, so the rules that it violates have all their patterns true
there (`Subgoal.holdsIn_of_violatedBy_denoted`). A coherent situation therefore verifies no subgoal
that is dropped, provided that it makes no rule with a denied pattern true
(`PlanningProblem.coherent_of_verifiedBy`): such a rule is held against a subgoal, but never against
a situation, and the two directions of search disagree about it.
-/

namespace LiftedPlanning

namespace PlanningProblem

variable {p : PlanningProblem} {s : Subgoal} {S : Situation} {rules : List Rule}

/-- A subgoal that a coherent situation verifies is not dropped, unless some rule with a denied
pattern is true in the situation. -/
theorem coherent_of_verifiedBy (hs : p.backward.Reachable s) (hS : S.Ground)
    (hcoherent : S.coherent rules = true) (hdenied : ∀ r ∈ rules, r.HasDenied → ¬ r.HoldsIn S)
    (hverified : s.verifiedBy S = true) : s.coherent rules = true := by
  obtain ⟨c, hc⟩ := Option.isSome_iff_exists.1 hverified
  obtain ⟨m, _, hm, htrue⟩ := exists_models_of_verification? hS (wellFormed_of_reachable hs) hc
  refine Subgoal.coherent_of_not_holdsIn hm htrue fun r hr hholds => ?_
  exact hdenied r hr ((Situation.coherent_iff hS).1 hcoherent r hr hholds) hholds

def nailRules : List Rule :=
  [⟨"free or used", [.pos ⟨"free", [.var "x"]⟩, .pos ⟨"used", [.var "x"]⟩]⟩,
    ⟨"neither", [.pos ⟨"nail", [.var "x"]⟩, .neg ⟨"free", [.var "x"]⟩, .neg ⟨"used", [.var "x"]⟩]⟩]

theorem not_holdsIn_nailRules : ∀ r ∈ nailRules, r.HasDenied → ¬ r.HoldsIn hangingSituation := by
  rintro r hr ⟨p, hp, hneg⟩ ⟨ν, hν⟩
  rcases List.mem_pair.1 hr with rfl | rfl
  · rcases List.mem_pair.1 hp with rfl | rfl <;> cases hneg
  · have hnail : ν "x" = "A" ∨ ν "x" = "B" := by
      have hfact := hν _ (List.mem_cons_self ..)
      simpa [Situation.holds_iff, hangingSituation, Situation.ofAtoms, Literal.pos,
        Literal.instantiate, Atom.instantiate, Term.value, Atom.isGround] using hfact
    have hfree := hν (.neg ⟨"free", [.var "x"]⟩) (by simp)
    rcases hnail with hx | hx <;>
      simp [Situation.holds_iff, hangingSituation, Situation.ofAtoms, Literal.neg,
        Literal.instantiate, Atom.instantiate, Term.value, Atom.isGround, hx] at hfree

theorem coherent_hanging :
    hangingSituation.coherent nailRules = true ∧
      ((Subgoal.ofGoal hanging.goal).regress hangingRegression).verifiedBy hangingSituation = true ∧
      ((Subgoal.ofGoal hanging.goal).regress hangingRegression).coherent nailRules = true := by
  have hs : hanging.backward.Reachable ((Subgoal.ofGoal hanging.goal).regress hangingRegression) :=
    .apply .initial (by decide)
  have hcoherent : hangingSituation.coherent nailRules = true := by decide
  have hverified : ((Subgoal.ofGoal hanging.goal).regress hangingRegression).verifiedBy
      hangingSituation = true := by decide
  exact ⟨hcoherent, hverified, coherent_of_verifiedBy hs (Situation.ground_ofAtoms _) hcoherent
    not_holdsIn_nailRules hverified⟩

/-- A lamp is lit but has no power, which a rule forbids. -/
def unpowered : PlanningProblem where
  initial := .ofAtoms [⟨"lit", [.const "A"]⟩]
  actions := []
  goal := ⟨[.pos ⟨"lit", [.const "A"]⟩, .neg ⟨"powered", [.const "A"]⟩]⟩
  rules := [⟨"lit lamps have power", [.pos ⟨"lit", [.var "x"]⟩, .neg ⟨"powered", [.var "x"]⟩]⟩]
  heuristic := .blind

/-- The situation passes for coherent and verifies the goal, which is dropped. -/
theorem not_coherent_unpowered :
    unpowered.initial.coherent unpowered.rules = true ∧
      (Subgoal.ofGoal unpowered.goal).verifiedBy unpowered.initial = true ∧
      (Subgoal.ofGoal unpowered.goal).coherent unpowered.rules = false := by
  decide

end PlanningProblem

end LiftedPlanning
