import LiftedPlanning.Proofs.Planning.Forward
import LiftedPlanning.Proofs.Planning.SkeletonPath
import LiftedPlanning.Proofs.Planning.SubgoalPath
import LiftedPlanning.Proofs.Skeleton.Value

/-!
# Plans of ground instances

Forward plans consist of ground instances, because every parameter ranges over objects. In a
backward or partial-order plan a parameter has a value only if the bindings give it one. They do if
each parameter of each action of the plan occurs in an asserted precondition
(`PlanningProblem.isGround_of_mem_operators`): where the plan begins these are facts, and later on
they are effects of instances whose parameters have values already. A parameter that occurs in
effects and denied preconditions only may be left open (`PlanningProblem.not_isGround_waving`).
-/

namespace LiftedPlanning

namespace PlanningProblem

variable {p : PlanningProblem} {s t : Subgoal} {rs : List Regression} {c : Bindings}
  {S : Situation}

/-! ## Backward plans -/

def Valued (c : Bindings) (s : Subgoal) : Prop :=
  ∀ l ∈ s.literals, l.negated = false → ∀ x ∈ l.atom.vars, (c.value? l.scope x).isSome = true

/-- A situation that verifies a subgoal gives values to the variables of its asserted literals. -/
theorem valued_of_verification? (hS : S.Ground) (hwell : t.bindings.WellFormed)
    (hverify : t.verification? S = some c) :
    c.WellFormed ∧ (∀ m : Assignment, m.Models c → m.Models t.bindings) ∧ Valued c t := by
  have hmem : c ∈ S.matchings t.literals.toList t.bindings :=
    Situation.mem_matchings_of_firstMatch? hverify
  obtain ⟨hc, htrue⟩ := trueUnder_of_verification? hS hwell hverify
  refine ⟨hc, fun m hm => (htrue m hm).1, ?_⟩
  intro l hl hneg x hx
  obtain ⟨fact, hfact, hsame⟩ := Situation.exists_fact_of_mem_matchings hS hwell hmem
    (SortedSet.mem_toList.2 hl) hneg
  refine hc.isSome_value?_of_isGround (t := .facts) (hS fact hfact) (fun m hm => ?_) hx
  rw [Assignment.atom, Assignment.atom, Atom.instantiate_of_isGround (hS fact hfact)]
  exact hsame m hm

theorem isSome_value?_of_regress {r : Regression} (hoffered : r ∈ s.regressions p.actions)
    (hwell : s.bindings.WellFormed) (hc : c.WellFormed)
    (hmodels : ∀ m : Assignment, m.Models c → m.Models r.bindings) (hs : Valued c (s.regress r))
    (hrestricted : r.inst.action.RangeRestricted) :
    ∀ x ∈ r.inst.action.parameters, (c.value? r.inst.scope x).isSome = true := by
  intro x hx
  obtain ⟨l, hl, hneg, hxl⟩ := hrestricted x hx
  obtain ⟨⟨action, _, hinst⟩, hsupports⟩ := Subgoal.supports_of_mem_regressions hwell hoffered
  have hrequired : ∃ k ∈ (s.regress r).literals, ∀ m : Assignment, m.Models r.bindings →
      m.literal k = m.literal ⟨r.inst.scope.id, l⟩ :=
    Subgoal.exists_mem_foldl_require hsupports.wellFormed (List.mem_map_of_mem hl)
  obtain ⟨k, hk, hsame⟩ := hrequired
  obtain ⟨m, hm⟩ := hc.exists_models
  have hpolarity := (Assignment.literal_eq_literal_iff.1 (hsame m (hmodels m hm))).1
  have hatom : ∀ m : Assignment, m.Models c →
      m.atom (.lifted r.inst.scope.id) l.atom = m.atom k.scope k.atom := fun m hm =>
    (Assignment.literal_eq_literal_iff.1 (hsame m (hmodels m hm))).2.symm
  have hlifted : r.inst.scope = .lifted r.inst.scope.id := by
    rw [hinst]
    rfl
  rw [hlifted]
  exact hc.isSome_value?_of_atom_eq hatom (hs k hk (hpolarity.trans hneg)) hxl

theorem valued_of_regress (hactions : ∀ a ∈ p.actions, a.WellFormed) {r : Regression}
    (hoffered : r ∈ s.regressions p.actions) (hwell : s.bindings.WellFormed) (hc : c.WellFormed)
    (hmodels : ∀ m : Assignment, m.Models c → m.Models r.bindings) (hs : Valued c (s.regress r))
    (hparameters : ∀ x ∈ r.inst.action.parameters, (c.value? r.inst.scope x).isSome = true) :
    Valued c s := by
  intro l hl hneg x hx
  by_cases hachieved : l ∈ r.achieved
  · obtain ⟨e, he, hsame⟩ := Subgoal.exists_effect_of_mem_regressions hwell hoffered hachieved
    have hatom : ∀ m : Assignment, m.Models c →
        m.atom l.scope l.atom = m.atom r.inst.scope e.atom := fun m hm =>
      (hsame m (hmodels m hm)).symm
    have hschema : r.inst.action.WellFormed := by
      obtain ⟨⟨action, haction, hinst⟩, _⟩ := Subgoal.supports_of_mem_regressions hwell hoffered
      rw [hinst]
      exact hactions action haction
    refine hc.isSome_value?_of_atom_eq hatom (fun y hy => hparameters y ?_) hx
    exact hschema.mem_parameters e (Instance.mem_literals_of_mem_effectsOf he) y hy
  · have hkept : l ∈ (s.regress r).literals :=
      Subgoal.mem_foldl_require_of_mem (SortedSet.mem_diff.2 ⟨hl, hachieved⟩)
    exact hs l hkept hneg x hx

/-- The parameters of the instances of a path have values in bindings that give values to the
variables of the asserted literals at its end. -/
theorem isSome_value?_of_path (hactions : ∀ a ∈ p.actions, a.WellFormed)
    (hpath : p.backward.Path s rs t) (hwell : s.bindings.WellFormed) (hc : c.WellFormed)
    (hmodels : ∀ m : Assignment, m.Models c → m.Models t.bindings) (ht : Valued c t)
    (hrestricted : ∀ r ∈ rs, r.inst.action.RangeRestricted) :
    Valued c s ∧
      ∀ r ∈ rs, ∀ x ∈ r.inst.action.parameters, (c.value? r.inst.scope x).isSome = true := by
  induction hpath with
  | nil s => exact ⟨ht, by simp⟩
  | @cons s t r rs hoffered _ hrest ih =>
    obtain ⟨_, hsupports⟩ := Subgoal.supports_of_mem_regressions hwell hoffered
    obtain ⟨hr, hrs⟩ := List.forall_mem_cons.1 hrestricted
    obtain ⟨hvalued, hvalues⟩ := ih hsupports.wellFormed hmodels ht hrs
    have hbindings : ∀ m : Assignment, m.Models c → m.Models r.bindings := fun m hm =>
      models_of_path hrest hsupports.wellFormed (hmodels m hm)
    have hparameters := isSome_value?_of_regress hoffered hwell hc hbindings hvalued hr
    exact ⟨valued_of_regress hactions hoffered hwell hc hbindings hvalued hparameters,
      List.forall_mem_cons.2 ⟨hparameters, hvalues⟩⟩

theorem isGround_of_mem_executionOrder (hinitial : p.initial.Ground)
    (hactions : ∀ a ∈ p.actions, a.WellFormed) (hpath : p.backward.Path (.ofGoal p.goal) rs t)
    (hfinal : t.verifiedBy p.initial = true)
    (hrestricted : ∀ i ∈ p.executionOrder rs t, i.action.RangeRestricted) :
    ∀ i ∈ p.executionOrder rs t, i.isGround = true := by
  obtain ⟨c, hverify⟩ := Option.isSome_iff_exists.1 hfinal
  have horder : p.executionOrder rs t = rs.reverse.map fun r => r.inst.ground c := by
    rw [executionOrder, hverify]
    rfl
  rw [horder] at hrestricted ⊢
  have hempty : (Subgoal.ofGoal p.goal).bindings.WellFormed := Bindings.wellFormed_empty
  obtain ⟨hc, hmodels, ht⟩ :=
    valued_of_verification? hinitial (wellFormed_of_path hpath hempty) hverify
  have hinstances : ∀ r ∈ rs, r.inst.action.RangeRestricted := fun r hr =>
    hrestricted (r.inst.ground c) (List.mem_map_of_mem (List.mem_reverse.2 hr))
  obtain ⟨_, hvalues⟩ := isSome_value?_of_path hactions hpath hempty hc hmodels ht hinstances
  intro i hi
  obtain ⟨r, hr, rfl⟩ := List.mem_map.1 hi
  exact Instance.isGround_ground_iff.2 (hvalues r (List.mem_reverse.1 hr))

/-! ## Partial-order plans -/

theorem isGround_of_mem_execution (hinitial : p.initial.Ground)
    (hactions : ∀ a ∈ p.actions, a.WellFormed) {root s : Skeleton} {rs : List Refinement}
    (hroot : Skeleton.ofGoal p.initial p.goal = .ok root)
    (hpath : (p.refinement root).Path root rs s) (hacyclic : root.isAcyclic = true)
    (hfinal : (p.refinement root).isFinal s = true)
    (hrestricted : ∀ i ∈ s.execution, i.action.RangeRestricted) :
    ∀ i ∈ s.execution, i.isGround = true := by
  have hreached : (p.refinement root).Reachable s := hpath.reachable .initial
  have h := invariant_of_reachable hactions hroot hreached
  have hacyclic : s.isAcyclic = true := hpath.isValid hacyclic
  have hproper : ∀ a ∈ s.properSteps, a.action.RangeRestricted := fun a ha =>
    hrestricted (a.ground s.bindings) (List.mem_map_of_mem ((h.mem_linearize hacyclic).2 ha))
  intro i hi
  obtain ⟨a, ha, rfl⟩ := List.mem_map.1 hi
  have ha := (h.mem_linearize hacyclic).1 ha
  rcases Bool.or_eq_true_iff.1 hfinal with hcomplete | hfree
  · refine Instance.isGround_ground_iff.2 ?_
    exact h.isSome_value?_of_rangeRestricted hinitial (Skeleton.isComplete_iff.1 hcomplete).1
      hacyclic hproper a ha
  · have hnone := List.isEmpty_iff.1 (Bool.and_eq_true_iff.1 hfree).2
    rw [hnone] at ha
    cases ha

/-! ## Plans -/

theorem isGround_of_mem_planForward (hinitial : p.initial.Ground)
    (hactions : ∀ a ∈ p.actions, a.WellFormed) {path : Plan Situation (Offer Instance) Nat}
    (hpath : p.forward.Path p.initial (path.operators.map Offer.operator) path.terminal) :
    ∀ i ∈ (p.planForward path).operators, i.isGround = true := by
  intro i hi
  obtain ⟨o, ho, rfl⟩ := List.mem_map.1 hi
  obtain ⟨n, hn⟩ := List.mem_iff_getElem?.1 (List.mem_map_of_mem (f := Offer.operator) ho)
  exact (executes_of_path hactions hinitial hpath hn).isGround

/-- The instances of a plan are ground if the plan is a forward plan, or if every parameter of each
of its actions occurs in an asserted precondition. -/
theorem isGround_of_mem_operators (hinitial : p.initial.Ground)
    (hactions : ∀ a ∈ p.actions, a.WellFormed) {strategy : Strategy} {settings : SearchSettings}
    {cancelled : Nat → Bool} {fuel : Nat} {solution : Solution}
    {plan : Plan FinalState Instance Nat}
    (h : p.solve strategy settings cancelled fuel = some (.ok solution))
    (hsolved : solution.outcome = .solved plan)
    (hrestricted : strategy = .forward ∨ ∀ i ∈ plan.operators, i.action.RangeRestricted) :
    ∀ i ∈ plan.operators, i.isGround = true := by
  cases strategy with
  | forward =>
    obtain ⟨report, path, hreport, hresult, rfl⟩ := solveIn_eq_solved h hsolved
    obtain ⟨hpath, _, _⟩ := Search.path_of_solve_eq_solved hreport hresult
    exact isGround_of_mem_planForward hinitial hactions hpath
  | backward =>
    obtain ⟨report, path, hreport, hresult, rfl⟩ := solveIn_eq_solved h hsolved
    obtain ⟨hpath, hfinal, _⟩ := Search.path_of_solve_eq_solved hreport hresult
    have hrestricted := hrestricted.resolve_left Strategy.noConfusion
    exact isGround_of_mem_executionOrder hinitial hactions hpath hfinal hrestricted
  | partialOrder =>
    rw [solve] at h
    split at h
    · cases h
    · next root hroot =>
      obtain ⟨report, path, hreport, hresult, rfl⟩ := solveIn_eq_solved h hsolved
      obtain ⟨hpath, hfinal, _⟩ := Search.path_of_solve_eq_solved hreport hresult
      obtain ⟨hacyclic, _, _⟩ := Search.run_of_solve_eq_solved hreport hresult
      have hrestricted := hrestricted.resolve_left Strategy.noConfusion
      exact isGround_of_mem_execution hinitial hactions hroot hpath hacyclic hfinal hrestricted

def storeRegression : Regression where
  inst := .lifted
    ⟨"store", ["x"], [.pos ⟨"holding", [.var "x"]⟩],
      [.neg ⟨"holding", [.var "x"]⟩, .pos ⟨"stored", [.var "x"]⟩]⟩ ⟨1⟩
  achieved := .ofList [⟨.goal, .pos ⟨"stored", [.var "y"]⟩⟩]
  bindings := ⟨SortedMap.empty.insert ⟨⟨1⟩, "x"⟩ ⟨.goal, "y"⟩, .empty, .empty⟩

def takeRegression : Regression where
  inst := .lifted
    ⟨"take", ["x"], [.pos ⟨"onTable", [.var "x"]⟩],
      [.neg ⟨"onTable", [.var "x"]⟩, .pos ⟨"holding", [.var "x"]⟩]⟩ ⟨2⟩
  achieved := .ofList [⟨⟨1⟩, .pos ⟨"holding", [.var "x"]⟩⟩]
  bindings := ⟨(SortedMap.empty.insert ⟨⟨1⟩, "x"⟩ ⟨.goal, "y"⟩).insert ⟨⟨2⟩, "x"⟩ ⟨.goal, "y"⟩,
    .empty, .empty⟩

def storingSubgoal : Subgoal :=
  ((Subgoal.ofGoal storing.goal).regress storeRegression).regress takeRegression

theorem forced_backward_storing : storing.backward.Forced (.ofGoal storing.goal)
    [storeRegression, takeRegression] storingSubgoal :=
  .cons (by decide) (by decide) (by decide)
    (.cons (by decide) (by decide) (by decide) (.nil (by decide)))

def storingPlan : Plan FinalState Instance Nat :=
  storing.planBackward ⟨[⟨storeRegression, 0⟩, ⟨takeRegression, 1⟩], 2, storingSubgoal⟩

theorem solve_storing_backward : storing.solve .backward .default (fun _ => false) 3 =
    some (.ok ⟨.solved storingPlan, { expanded := 2, generated := 2 }⟩) :=
  solveIn_of_forced (by decide) forced_backward_storing (by decide)

/-- Both instances get their objects, since their parameters occur in their preconditions. -/
theorem isGround_storing :
    storingPlan.operators.length = 2 ∧
      (∀ i ∈ storingPlan.operators, i.action.RangeRestricted) ∧
      ∀ i ∈ storingPlan.operators, i.isGround = true := by
  have hrestricted : ∀ i ∈ storingPlan.operators, i.action.RangeRestricted := by decide
  exact ⟨by decide, hrestricted, isGround_of_mem_operators (p := storing)
    (Situation.ground_ofAtoms _) (by decide) solve_storing_backward rfl (.inr hrestricted)⟩

def waving : PlanningProblem where
  initial := .ofAtoms [⟨"block", [.const "A"]⟩]
  actions := [⟨"wave", ["x"], [.neg ⟨"holding", [.var "x"]⟩], [.pos ⟨"waved", []⟩]⟩]
  goal := ⟨[.pos ⟨"waved", []⟩]⟩
  rules := []
  heuristic := .blind

def wavingRegression : Regression where
  inst := .lifted ⟨"wave", ["x"], [.neg ⟨"holding", [.var "x"]⟩], [.pos ⟨"waved", []⟩]⟩ ⟨1⟩
  achieved := .ofList [⟨.goal, .pos ⟨"waved", []⟩⟩]
  bindings := .empty

/-- A parameter that occurs in a denied precondition only is left open by a backward plan. -/
theorem not_isGround_waving :
    ∃ solution plan, waving.solve .backward .default (fun _ => false) 2 = some (.ok solution) ∧
      solution.outcome = .solved plan ∧ ∃ i ∈ plan.operators, i.isGround = false := by
  have hforced : waving.backward.Forced (.ofGoal waving.goal) [wavingRegression]
      ((Subgoal.ofGoal waving.goal).regress wavingRegression) :=
    .cons (by decide) (by decide) (by decide) (.nil (by decide))
  exact ⟨_, _, solveIn_of_forced (by decide) hforced (by decide), rfl, by decide⟩

end PlanningProblem

end LiftedPlanning
