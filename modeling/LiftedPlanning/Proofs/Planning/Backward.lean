import LiftedPlanning.Proofs.Planning.Replay
import LiftedPlanning.Proofs.Regression.Step

/-!
# Backward plans

The instances of a backward plan are executable one after the other, and some choice of objects
makes the goal true at the end (`PlanningProblem.execute_backward`). A replay also accepts the goal
if this choice does not depend on the variables that occur in denied literals only. A goal with such
variables may be refused: a regression achieves its denied literal for one object, and the goal is
tested for all of them.
-/

namespace LiftedPlanning

namespace PlanningProblem

variable {p : PlanningProblem} {s t : Subgoal} {rs : List Regression} {m : Assignment}
  {c : Bindings} {S : Situation}

/-- Where a regressed subgoal is true, the grounded instance is applicable and makes the subgoal
true. -/
theorem applicable_and_trueUnder_apply {r : Regression} (hactions : ∀ a ∈ p.actions, a.WellFormed)
    (hwell : s.bindings.WellFormed) (hoffered : r ∈ s.regressions p.actions) (hmc : m.Models c)
    (hm : m.Models r.bindings) (hregress : (s.regress r).TrueUnder m S)
    (hground : (r.inst.ground c).isGround = true) :
    S.applicable (r.inst.ground c) = true ∧ s.TrueUnder m (S.apply (r.inst.ground c)) := by
  obtain ⟨⟨action, haction, hinst⟩, hsupports⟩ :=
    Subgoal.supports_of_mem_regressions hwell hoffered
  have hschema : r.inst.action.WellFormed := by
    rw [hinst]
    exact hactions action haction
  have hlifted : r.inst.scope = .lifted r.inst.scope.id := by
    rw [hinst]
    rfl
  refine ⟨?_, hregress.of_regress hsupports hmc hm hschema hground⟩
  rw [Situation.applicable_ground_iff hmc hschema hlifted hground]
  exact hregress.holds_preconditions hsupports hm

theorem executeFrom_of_path (hactions : ∀ a ∈ p.actions, a.WellFormed) (hmc : m.Models c)
    (hpath : p.backward.Path s rs t) (hwell : s.bindings.WellFormed) (hmt : m.Models t.bindings)
    (hground : ∀ r ∈ rs, (r.inst.ground c).isGround = true) (hS : S.Ground)
    (ht : t.TrueUnder m S) (index : Nat) :
    m.Models s.bindings ∧
      ∃ T, S.executeFrom index (rs.reverse.map fun r => r.inst.ground c) = .ok T ∧ T.Ground ∧
        s.TrueUnder m T := by
  induction hpath with
  | nil s => exact ⟨hmt, S, rfl, hS, ht⟩
  | @cons s t r rs hoffered _ _ ih =>
    obtain ⟨_, hsupports⟩ := Subgoal.supports_of_mem_regressions hwell hoffered
    obtain ⟨hr, hrs⟩ := List.forall_mem_cons.1 hground
    obtain ⟨hm, T, hrun, hT, hregress⟩ := ih hsupports.wellFormed hmt hrs ht
    obtain ⟨happlicable, htrue⟩ :=
      applicable_and_trueUnder_apply hactions hwell hoffered hmc hm hregress hr
    refine ⟨hsupports.models m hm, T.apply (r.inst.ground c), ?_, hT.apply _, htrue⟩
    rw [List.reverse_cons, List.map_append, Situation.executeFrom_append, hrun]
    change T.executeFrom _ [r.inst.ground c] = _
    rw [Situation.executeFrom_cons, if_pos happlicable]
    rfl

theorem wellFormed_of_path (hpath : p.backward.Path s rs t) (hwell : s.bindings.WellFormed) :
    t.bindings.WellFormed := by
  induction hpath with
  | nil s => exact hwell
  | cons hoffered _ _ ih =>
    obtain ⟨_, hsupports⟩ := Subgoal.supports_of_mem_regressions hwell hoffered
    exact ih hsupports.wellFormed

/-- A situation that verifies a subgoal makes it true in all models of the verification. -/
theorem trueUnder_of_verification? (hS : S.Ground) (hwell : t.bindings.WellFormed)
    (hverify : t.verification? S = some c) :
    c.WellFormed ∧ ∀ m : Assignment, m.Models c → m.Models t.bindings ∧ t.TrueUnder m S := by
  have hmem : c ∈ S.matchings t.literals.toList t.bindings :=
    Situation.mem_matchings_of_firstMatch? hverify
  refine ⟨Situation.wellFormed_of_mem_matchings hwell hmem, fun m hm => ?_⟩
  obtain ⟨hmt, hall⟩ := Situation.holds_of_mem_matchings hS hwell hmem hm
  exact ⟨hmt, fun l hl => hall l (SortedSet.mem_toList.2 hl)⟩

theorem exists_models_of_verification? (hS : S.Ground) (hwell : t.bindings.WellFormed)
    (hverify : t.verification? S = some c) :
    ∃ m : Assignment, m.Models c ∧ m.Models t.bindings ∧ t.TrueUnder m S := by
  obtain ⟨hc, htrue⟩ := trueUnder_of_verification? hS hwell hverify
  obtain ⟨m, hm⟩ := hc.exists_models
  exact ⟨m, hm, htrue m hm⟩

theorem execute_of_path (hinitial : p.initial.Ground) (hactions : ∀ a ∈ p.actions, a.WellFormed)
    (hpath : p.backward.Path (.ofGoal p.goal) rs t) (hfinal : t.verifiedBy p.initial = true)
    (hground : ∀ i ∈ p.executionOrder rs t, i.isGround = true) :
    ∃ T, p.initial.executeFrom 0 (p.executionOrder rs t) = .ok T ∧ T.Ground ∧
      ∃ ν : String → String, p.goal.TrueUnder ν T := by
  obtain ⟨c, hverify⟩ := Option.isSome_iff_exists.1 hfinal
  have horder : p.executionOrder rs t = rs.reverse.map fun r => r.inst.ground c := by
    rw [executionOrder, hverify]
    rfl
  rw [horder] at hground ⊢
  have hinstances : ∀ r ∈ rs, (r.inst.ground c).isGround = true := fun r hr =>
    hground _ (List.mem_map_of_mem (List.mem_reverse.2 hr))
  have hempty : (Subgoal.ofGoal p.goal).bindings.WellFormed := Bindings.wellFormed_empty
  obtain ⟨m, hmc, hmt, ht⟩ :=
    exists_models_of_verification? hinitial (wellFormed_of_path hpath hempty) hverify
  obtain ⟨_, T, hrun, hT, hgoal⟩ :=
    executeFrom_of_path hactions hmc hpath hempty hmt hinstances hinitial ht 0
  refine ⟨T, hrun, hT, m.inScope (.lifted .goal), ?_⟩
  have hscoped : ∀ l ∈ p.goal.scopedLiterals, T.holds (m.literal l) = true := fun l hl =>
    hgoal l (SortedSet.mem_ofList.2 hl)
  exact Goal.forall_mem_scopedLiterals.1 hscoped

/-- A backward plan whose instances are ground can be executed, and the goal is true at the end
under some choice of objects. A replay accepts the goal exactly if the choice does not depend on
variables that occur in denied literals only, and always if there are none. -/
theorem execute_backward {settings : SearchSettings} {cancelled : Nat → Bool} {fuel : Nat}
    {solution : Solution} {plan : Plan FinalState Instance Nat} (hinitial : p.initial.Ground)
    (hactions : ∀ a ∈ p.actions, a.WellFormed)
    (h : p.solve .backward settings cancelled fuel = some (.ok solution))
    (hsolved : solution.outcome = .solved plan)
    (hground : ∀ i ∈ plan.operators, i.isGround = true) :
    ∃ T, p.initial.executeFrom 0 plan.operators = .ok T ∧
      (∃ ν : String → String, p.goal.TrueUnder ν T) ∧
      (p.initial.replay plan.operators p.goal = .ok T ↔
        ∃ ν : String → String, p.goal.CertainUnder ν T) ∧
      (p.goal.RangeRestricted → p.initial.replay plan.operators p.goal = .ok T) := by
  obtain ⟨report, path, hreport, hresult, rfl⟩ := solveIn_eq_solved h hsolved
  obtain ⟨hpath, hfinal, _⟩ := Search.path_of_solve_eq_solved hreport hresult
  obtain ⟨T, hrun, hT, ν, hν⟩ := execute_of_path hinitial hactions hpath hfinal hground
  exact ⟨T, hrun, ⟨ν, hν⟩, Situation.replay_eq_ok_iff_certain hrun hT,
    fun hrange => Situation.replay_of_rangeRestricted hrun hT hrange hν⟩

def clearingRegression : Regression where
  inst := .lifted ⟨"del", [], [], [.neg ⟨"q", [.const "A"]⟩]⟩ ⟨1⟩
  achieved := .ofList [⟨.goal, .neg ⟨"q", [.var "y"]⟩⟩]
  bindings := ⟨.empty, SortedMap.empty.insert ⟨.goal, "y"⟩ "A", .empty⟩

def clearingPlan : Plan FinalState Instance Nat :=
  clearing.planBackward
    ⟨[⟨clearingRegression, 0⟩], 1, (Subgoal.ofGoal clearing.goal).regress clearingRegression⟩

theorem solve_clearing : clearing.solve .backward .default (fun _ => false) 2 =
    some (.ok ⟨.solved clearingPlan, { expanded := 1, generated := 1 }⟩) := by
  have hforced : clearing.backward.Forced (.ofGoal clearing.goal) [clearingRegression]
      ((Subgoal.ofGoal clearing.goal).regress clearingRegression) :=
    .cons (by decide) (by decide) (by decide) (.nil (by decide))
  exact solveIn_of_forced (by decide) hforced (by decide)

/-- The plan removes one object; the replay refuses the goal because of the other one. -/
theorem execute_clearing :
    ∃ T, clearing.initial.executeFrom 0 clearingPlan.operators = .ok T ∧
      (∃ ν : String → String, clearing.goal.TrueUnder ν T) ∧
      ¬ ∃ ν : String → String, clearing.goal.CertainUnder ν T := by
  obtain ⟨T, hrun, htrue, hreplay, _⟩ :=
    execute_backward (p := clearing) (Situation.ground_ofAtoms _) (by decide) solve_clearing rfl
      (by decide)
  refine ⟨T, hrun, htrue, ?_⟩
  rw [← hreplay]
  have hunmet : clearing.initial.replay clearingPlan.operators clearing.goal =
      .error (.goalUnmet (.ofAtoms [⟨"q", [.const "B"]⟩])) := by rfl
  rw [hunmet]
  intro hok
  cases hok

end PlanningProblem

end LiftedPlanning
