import LiftedPlanning.Proofs.Planning.Backward
import LiftedPlanning.Proofs.Planning.ReachableSkeleton
import LiftedPlanning.Proofs.Planning.RefinementCompleteness
import LiftedPlanning.Proofs.Regression.Coherence
import LiftedPlanning.Proofs.Search.Plan
import LiftedPlanning.Proofs.Skeleton.Bare

/-!
# Goals that are satisfied already

Without rules all strategies agree on a goal that is satisfied at the outset, and the plans that
they find otherwise have as many instances as they cost, and at least one
(`PlanningProblem.satisfied_iff_and_length_eq_cost`). The goal is a list for one search, a sorted
set for the next, and what the last step of a frame requires for the third. Matching does not tell
the first two apart, because neither the order of literals nor their repetition matters to it
(`Situation.isSome_firstMatch?_congr`). A complete skeleton has steps of its own, unless the goal is
satisfied without any (`Skeleton.Invariant.satisfiedBy_of_bare`), and none of them is left out when
they are listed.
-/

namespace LiftedPlanning

theorem Subgoal.verifiedBy_ofGoal_iff {S : Situation} {g : Goal} (hS : S.Ground) :
    (ofGoal g).verifiedBy S = true ↔ g.satisfiedBy S = true :=
  Situation.isSome_firstMatch?_congr hS Bindings.wellFormed_empty fun _ => SortedSet.mem_ofList

namespace PlanningProblem

variable {p : PlanningProblem} {root s : Skeleton} {settings : SearchSettings}
  {cancelled : Nat → Bool} {fuel : Nat} {solution : Solution} {plan : Plan FinalState Instance Nat}

/-! ## Searches -/

def Counted (plan : Plan FinalState Instance Nat) : Prop :=
  plan.operators ≠ [] ∧ plan.operators.length = plan.cost

section

variable {σ ο : Type} [DecidableEq σ] [Hashable σ] {P : SearchSpace σ ο Nat}
  {restate : Plan σ (Offer ο) Nat → Plan FinalState Instance Nat}

theorem solveIn_alreadySatisfied_iff :
    (∃ solution, solveIn P restate settings cancelled fuel = some (.ok solution) ∧
        solution.outcome = .alreadySatisfied) ↔
      P.isValid P.initial = true ∧ P.isFinal P.initial = true := by
  constructor
  · rintro ⟨solution, h, hsatisfied⟩
    obtain ⟨report, hreport, hresult⟩ := solveIn_eq_alreadySatisfied h hsatisfied
    exact Search.initial_of_solve_eq_alreadySatisfied hreport hresult
  · rintro ⟨hvalid, hfinal⟩
    refine ⟨⟨.alreadySatisfied, {}⟩, ?_, rfl⟩
    rw [solveIn_eq, Search.solve_eq_alreadySatisfied hvalid hfinal]
    rfl

theorem counted_of_solveIn (hcost : ∀ o, P.cost o = 1)
    (hrestate : ∀ path, (restate path).operators.length = path.operators.length ∧
      (restate path).cost = path.cost)
    (h : solveIn P restate settings cancelled fuel = some (.ok solution))
    (hsolved : solution.outcome = .solved plan) : Counted plan := by
  obtain ⟨report, path, hreport, hresult, rfl⟩ := solveIn_eq_solved h hsolved
  obtain ⟨hpath, hfinal, hpathCost⟩ := Search.path_of_solve_eq_solved hreport hresult
  obtain ⟨_, hinitial, _⟩ := Search.run_of_solve_eq_solved hreport hresult
  obtain ⟨hlength, hcost'⟩ := hrestate path
  have hne := hpath.ne_nil hinitial hfinal
  rw [SearchSpace.totalCost_eq_length hcost, List.length_map] at hpathCost
  refine ⟨fun hnil => hne ?_, by rw [hlength, hcost', hpathCost]⟩
  rw [hnil, List.length_nil] at hlength
  rw [List.length_eq_zero_iff.1 hlength.symm, List.map_nil]

end

/-! ## Subgoals -/

theorem backward_initial_iff (hinitial : p.initial.Ground) (hrules : p.rules = []) :
    p.backward.isValid p.backward.initial = true ∧ p.backward.isFinal p.backward.initial = true ↔
      p.goal.satisfiedBy p.initial = true := by
  refine (and_iff_right_of_imp fun hfinal => ?_).trans (Subgoal.verifiedBy_ofGoal_iff hinitial)
  obtain ⟨c, hc⟩ := Option.isSome_iff_exists.1 hfinal
  obtain ⟨m, _, hm, htrue⟩ :=
    exists_models_of_verification? hinitial Bindings.wellFormed_empty hc
  change (Subgoal.ofGoal p.goal).coherent p.rules = true
  rw [hrules]
  exact Subgoal.coherent_of_not_holdsIn hm htrue (List.forall_mem_nil _)

/-! ## Skeletons -/

theorem forced_of_reachable (hinitial : p.initial.Ground)
    (hroot : Skeleton.ofGoal p.initial p.goal = .ok root) (hs : (p.refinement root).Reachable s)
    (hbare : s.Bare) : s.Forced := by
  induction hs with
  | initial => exact Skeleton.forced_ofGoal hroot
  | apply hs hoffered ih =>
    obtain ⟨hassembled, _⟩ := assembled_and_acyclic_of_reachable hroot hs
    exact hassembled.forced_refine hinitial (ih hbare.of_refine) hbare hoffered

/-- A final skeleton without proper steps shows that the goal was satisfied at the outset. -/
theorem satisfiedBy_of_isFinal (hinitial : p.initial.Ground)
    (hactions : ∀ a ∈ p.actions, a.WellFormed)
    (hroot : Skeleton.ofGoal p.initial p.goal = .ok root) (hs : (p.refinement root).Reachable s)
    (hfinal : (p.refinement root).isFinal s = true) (hproper : s.properSteps = []) :
    p.goal.satisfiedBy p.initial = true := by
  rcases Bool.or_eq_true_iff.1 hfinal with hcomplete | hsatisfied
  · have hbare := Skeleton.bare_iff.2 hproper
    exact (invariant_of_reachable hactions hroot hs).satisfiedBy_of_bare hinitial hbare
      (forced_of_reachable hinitial hroot hs hbare) (Skeleton.isComplete_iff.1 hcomplete).1
  · exact (Bool.and_eq_true_iff.1 hsatisfied).1

theorem refinement_initial_iff (hinitial : p.initial.Ground)
    (hactions : ∀ a ∈ p.actions, a.WellFormed)
    (hroot : Skeleton.ofGoal p.initial p.goal = .ok root) :
    (p.refinement root).isValid root = true ∧ (p.refinement root).isFinal root = true ↔
      p.goal.satisfiedBy p.initial = true := by
  have hproper : root.properSteps = [] := Skeleton.bare_iff.1 (Skeleton.bare_ofGoal hroot)
  refine (and_iff_right (isValid_of_reachable hroot .initial)).trans ⟨?_, ?_⟩
  · exact fun hfinal => satisfiedBy_of_isFinal hinitial hactions hroot .initial hfinal hproper
  · intro hsatisfied
    simp [refinement, hsatisfied, hproper]

/-- The listed instances of a skeleton are as many as the refinements that lead to it cost. -/
theorem length_execution_of_path (hactions : ∀ a ∈ p.actions, a.WellFormed)
    (hroot : Skeleton.ofGoal p.initial p.goal = .ok root) {rs : List Refinement}
    (hpath : (p.refinement root).Path root rs s) :
    s.execution.length = s.properSteps.length ∧
      s.properSteps.length = (p.refinement root).totalCost rs := by
  have hs : (p.refinement root).Reachable s := hpath.reachable .initial
  have hperm := (invariant_of_reachable hactions hroot hs).perm_linearize
    (isValid_of_reachable hroot hs)
  have hassembled := (Skeleton.invariant_ofGoal hroot).toAssembled
  refine ⟨by rw [Skeleton.execution, List.length_map, hperm.length_eq], ?_⟩
  rw [length_properSteps_of_path hassembled hpath,
    Skeleton.bare_iff.1 (Skeleton.bare_ofGoal hroot), List.length_nil, Nat.zero_add]

theorem counted_of_refinement (hinitial : p.initial.Ground)
    (hactions : ∀ a ∈ p.actions, a.WellFormed)
    (hroot : Skeleton.ofGoal p.initial p.goal = .ok root)
    (h : solveIn (p.refinement root) planPartialOrder settings cancelled fuel =
      some (.ok solution))
    (hsolved : solution.outcome = .solved plan) : Counted plan := by
  obtain ⟨report, path, hreport, hresult, rfl⟩ := solveIn_eq_solved h hsolved
  obtain ⟨hpath, hfinal, hcost⟩ := Search.path_of_solve_eq_solved hreport hresult
  obtain ⟨hvalid, hopen, _⟩ := Search.run_of_solve_eq_solved hreport hresult
  obtain ⟨hexecution, hproper⟩ := length_execution_of_path hactions hroot hpath
  refine ⟨fun hnil => ?_, (hexecution.trans hproper).trans hcost.symm⟩
  -- Without instances the search would have ended before it began.
  have hnone : path.terminal.properSteps = [] := by
    rw [← List.length_eq_zero_iff, ← hexecution]
    exact List.length_eq_zero_iff.2 hnil
  have hsatisfied := satisfiedBy_of_isFinal hinitial hactions hroot (hpath.reachable .initial)
    hfinal hnone
  have hroot' := ((refinement_initial_iff hinitial hactions hroot).2 hsatisfied).2
  exact Bool.noConfusion (hopen.symm.trans hroot')

/-! ## Strategies -/

/-- Without rules every strategy that can begin answers that there is nothing to do exactly if the
initial situation satisfies the goal. The plans that it finds have instances, as many as they
cost. -/
theorem satisfied_iff_and_length_eq_cost (hinitial : p.initial.Ground)
    (hactions : ∀ a ∈ p.actions, a.WellFormed) (hrules : p.rules = []) (strategy : Strategy)
    (hroot : strategy = .partialOrder → ∃ root, Skeleton.ofGoal p.initial p.goal = .ok root)
    (settings : SearchSettings) (cancelled : Nat → Bool) (fuel : Nat) :
    ((∃ solution, p.solve strategy settings cancelled fuel = some (.ok solution) ∧
        solution.outcome = .alreadySatisfied) ↔ p.goal.satisfiedBy p.initial = true) ∧
    ∀ solution plan, p.solve strategy settings cancelled fuel = some (.ok solution) →
      solution.outcome = .solved plan →
        plan.operators ≠ [] ∧ plan.operators.length = plan.cost := by
  cases strategy with
  | forward =>
    have hvalid : p.forward.isValid p.forward.initial = true := by
      change p.initial.coherent p.rules = true
      rw [hrules, Situation.coherent_nil]
    refine ⟨solveIn_alreadySatisfied_iff.trans (and_iff_right hvalid), fun solution plan => ?_⟩
    refine counted_of_solveIn (fun _ => rfl) fun path => ⟨?_, rfl⟩
    rw [planForward, List.length_map]
  | backward =>
    refine ⟨solveIn_alreadySatisfied_iff.trans (backward_initial_iff hinitial hrules),
      fun solution plan => ?_⟩
    refine counted_of_solveIn (fun _ => rfl) fun path => ⟨?_, rfl⟩
    simp [planBackward, executionOrder]
  | partialOrder =>
    obtain ⟨root, hroot⟩ := hroot rfl
    rw [solve, hroot]
    exact ⟨solveIn_alreadySatisfied_iff.trans (refinement_initial_iff hinitial hactions hroot),
      fun solution plan => counted_of_refinement hinitial hactions hroot⟩

theorem length_eq_cost_storing :
    (¬ ∃ solution, storing.solve .partialOrder .default (fun _ => false) 4 =
        some (.ok solution) ∧ solution.outcome = .alreadySatisfied) ∧
    (planPartialOrder storingRefinements).operators ≠ [] ∧
      (planPartialOrder storingRefinements).operators.length = 2 := by
  have hopen : ¬ storing.goal.satisfiedBy storing.initial = true := by decide
  obtain ⟨hsatisfied, hcounted⟩ :=
    satisfied_iff_and_length_eq_cost (p := storing) (Situation.ground_ofAtoms _) (by decide) rfl
      .partialOrder (fun _ => ⟨storingRoot, ofGoal_storing⟩) .default (fun _ => false) 4
  exact ⟨fun h => hopen (hsatisfied.1 h), hcounted _ _ solve_storing_refinement rfl⟩

end PlanningProblem

end LiftedPlanning
