import LiftedPlanning.Proofs.Planning.ForwardRun
import LiftedPlanning.Proofs.Planning.Grounded
import LiftedPlanning.Proofs.Planning.SubgoalPath
import LiftedPlanning.Proofs.Regression.Coherence

/-!
# What backward planning finds

A forward plan is regressed instance by instance, from its end on: an instance that makes the
subgoal true is regressed, and one after which it is true as before is left out. So there is a path
of subgoals that is no longer than the plan (`PlanningProblem.exists_path_of_run`), and backward
planning without an estimate finds a plan that is no longer, if there is a forward plan
(`PlanningProblem.backward_of_forward`).

This takes two conditions on the subgoals that become true in the forward plan. A regression keeps
each literal that it is not known to achieve, although the instance achieves it; where no choice of
the literal that is regressed avoids this a plan may be lost
(`PlanningProblem.unreachable_pairing`). And a denied literal with a variable of its own is verified
for all objects at once.
-/

namespace LiftedPlanning

namespace PlanningProblem

variable {p : PlanningProblem} {s : Subgoal} {m : Assignment} {S T : Situation}
  {is : List Instance}

/-- Where an instance of a run makes a subgoal true that is reached from the given one, it does so
in a model in which it can be regressed. -/
def Traceable (p : PlanningProblem) (s : Subgoal) (S : Situation) (is : List Instance) : Prop :=
  ∀ rs t, p.backward.Path s rs t → ∀ n i, is[n]? = some i →
    (∃ m, t.MadeTrue m (S.after (is.take n)) i) →
      ∃ m, t.MadeTrue m (S.after (is.take n)) i ∧ t.Outright m i

/-- A subgoal that is true at the end of a run is regressed to one that is true at its beginning, by
at most as many regressions as there are instances. -/
theorem exists_path_of_run (hactions : ∀ a ∈ p.actions, a.WellFormed) (hrules : p.rules = [])
    (hs : p.backward.Reachable s) (hm : m.Models s.bindings)
    (hrun : p.AdmissibleRun S is T) (htraceable : p.Traceable s S is) (hT : s.TrueUnder m T) :
    ∃ rs t, p.backward.Path s rs t ∧ rs.length ≤ is.length ∧
      ∃ m' : Assignment, m'.Models t.bindings ∧ t.TrueUnder m' S := by
  induction hrun with
  | nil _ => exact ⟨[], s, .nil s, Nat.le_refl _, m, hm, hT⟩
  | @cons S T i is _ hadmits _ ih =>
    obtain ⟨rs, t, hrs, hlength, m', hm', htrue⟩ :=
      ih (fun rs t hrs n j hj => htraceable rs t hrs (n + 1) j hj) hT
    -- What is true after the first instance was true before it, or is regressed through it.
    by_cases hbefore : t.TrueUnder m' S
    · exact ⟨rs, t, hrs, Nat.le_succ_of_le hlength, m', hm', hbefore⟩
    · obtain ⟨m', hmade, houtright⟩ := htraceable rs t hrs 0 i rfl ⟨m', hm', htrue, hbefore⟩
      have ht : p.backward.Reachable t := hrs.reachable hs
      obtain ⟨r, hr, n, hn, hregressed⟩ := Subgoal.exists_regression
        (subgoal_fresh_of_reachable ht) (wellFormed_of_reachable ht) hadmits.action_mem
        (hactions _ hadmits.action_mem) hadmits.overObjects.isGround hadmits.applicable hmade
        houtright
      have hvalid : p.backward.isValid (t.regress r) = true := by
        change (t.regress r).coherent p.rules = true
        rw [hrules]
        exact Subgoal.coherent_of_not_holdsIn hn hregressed (List.forall_mem_nil _)
      refine ⟨rs ++ [r], t.regress r, hrs.concat hr hvalid, ?_, n, hn, hregressed⟩
      rw [List.length_append, List.length_singleton, List.length_cons]
      exact Nat.succ_le_succ hlength

theorem exists_verified_of_run (hinitial : p.initial.Ground)
    (hactions : ∀ a ∈ p.actions, a.WellFormed) (hrules : p.rules = [])
    (hrun : p.AdmissibleRun p.initial is T) (hfinal : p.goal.satisfiedBy T = true)
    (htraceable : p.Traceable (.ofGoal p.goal) p.initial is)
    (hrestricted : ∀ rs s, p.backward.Path (.ofGoal p.goal) rs s → ∀ m : Assignment,
      m.Models s.bindings → s.TrueUnder m p.initial → s.RangeRestricted) :
    p.backward.isValid (.ofGoal p.goal) = true ∧
      ∃ rs t, p.backward.Path (.ofGoal p.goal) rs t ∧ p.backward.isFinal t = true ∧
        rs.length ≤ is.length := by
  have hT : T.Ground := by
    rw [hrun.eq_after]
    exact hinitial.after is
  obtain ⟨ν, hν⟩ := (Goal.satisfiedBy_iff_certain hT).1 hfinal
  have htrue : (Subgoal.ofGoal p.goal).TrueUnder (Goal.assignment ν) T := by
    have hscoped : ∀ l ∈ p.goal.scopedLiterals, T.holds ((Goal.assignment ν).literal l) = true :=
      Goal.forall_mem_scopedLiterals.2 (hν ν fun _ _ _ => rfl)
    exact fun l hl => hscoped l (SortedSet.mem_ofList.1 hl)
  have hm : (Goal.assignment ν).Models (Subgoal.ofGoal p.goal).bindings :=
    Assignment.models_empty _
  have hinitial' : p.backward.Reachable (.ofGoal p.goal) := .initial
  obtain ⟨rs, t, hrs, hlength, m', hm', htrue'⟩ :=
    exists_path_of_run hactions hrules hinitial' hm hrun htraceable htrue
  refine ⟨?_, rs, t, hrs, ?_, hlength⟩
  · change (Subgoal.ofGoal p.goal).coherent p.rules = true
    rw [hrules]
    exact Subgoal.coherent_of_not_holdsIn hm htrue (List.forall_mem_nil _)
  · have hwell := wellFormed_of_reachable (hrs.reachable hinitial')
    exact Subgoal.verifiedBy_of_trueUnder hinitial hwell hm' htrue'
      (hrestricted rs t hrs m' hm' htrue')

/-- If a run leads to a situation that satisfies the goal, backward planning without an estimate
does not end without a plan, and a plan that it finds is no longer than the run. -/
theorem backward_of_run (hinitial : p.initial.Ground) (hactions : ∀ a ∈ p.actions, a.WellFormed)
    (hrules : p.rules = []) (hblind : p.heuristic = .blind)
    (hrun : p.AdmissibleRun p.initial is T) (hfinal : p.goal.satisfiedBy T = true)
    (htraceable : p.Traceable (.ofGoal p.goal) p.initial is)
    (hrestricted : ∀ rs s, p.backward.Path (.ofGoal p.goal) rs s → ∀ m : Assignment,
      m.Models s.bindings → s.TrueUnder m p.initial → s.RangeRestricted)
    {settings : SearchSettings} {cancelled : Nat → Bool} {fuel : Nat} {back : Solution}
    (hback : p.solve .backward settings cancelled fuel = some (.ok back)) :
    back.outcome ≠ .unreachable ∧
      ∀ plan, back.outcome = .solved plan → plan.operators.length ≤ is.length := by
  obtain ⟨hvalid, rs, t, hrs, ht, hlength⟩ :=
    exists_verified_of_run hinitial hactions hrules hrun hfinal htraceable hrestricted
  constructor
  · intro hunreachable
    obtain ⟨report, hreport, hresult⟩ := solveIn_eq_unreachable hback hunreachable
    have hopen := Search.isFinal_eq_false_of_solve_eq_unreachable hreport hresult hvalid hrs
    rw [ht] at hopen
    cases hopen
  · intro plan hplan
    obtain ⟨report, path, hreport, hresult, rfl⟩ := solveIn_eq_solved hback hplan
    have hzero : ∀ s, p.backward.estimate s = 0 := fun s => by
      change p.heuristic.estimate _ _ = 0
      rw [hblind, Heuristic.estimate_blind]
    have hcheapest := Search.cost_le_of_estimate_eq_zero hzero hreport hresult hrs ht
    obtain ⟨_, _, hcost⟩ := Search.path_of_solve_eq_solved hreport hresult
    rw [hcost, SearchSpace.totalCost_eq_length fun _ => rfl,
      SearchSpace.totalCost_eq_length fun _ => rfl, List.length_map] at hcheapest
    have hoperators : (p.planBackward path).operators.length = path.operators.length := by
      simp [planBackward, executionOrder]
    omega

/-- Without rules and without an estimate: if forward planning finds a plan, backward planning does
not end without one, and a plan that it finds is no longer. Where an instance of the forward plan
makes a subgoal true that is reached, one of the literals that it achieves has to be such that the
others are known to be achieved with it. And where a subgoal that is reached is true at the outset,
its asserted literals have to determine the variables of the denied ones. -/
theorem backward_of_forward (hinitial : p.initial.Ground)
    (hactions : ∀ a ∈ p.actions, a.WellFormed) (hrules : p.rules = [])
    (hblind : p.heuristic = .blind)
    {settings settings' : SearchSettings} {cancelled cancelled' : Nat → Bool} {fuel fuel' : Nat}
    {back forth : Solution} {plan : Plan FinalState Instance Nat}
    (hback : p.solve .backward settings cancelled fuel = some (.ok back))
    (hforth : p.solve .forward settings' cancelled' fuel' = some (.ok forth))
    (hsolved : forth.outcome = .solved plan)
    (htraceable : p.Traceable (.ofGoal p.goal) p.initial plan.operators)
    (hrestricted : ∀ rs s, p.backward.Path (.ofGoal p.goal) rs s → ∀ m : Assignment,
      m.Models s.bindings → s.TrueUnder m p.initial → s.RangeRestricted) :
    back.outcome ≠ .unreachable ∧
      ∀ plan', back.outcome = .solved plan' → plan'.operators.length ≤ plan.operators.length := by
  obtain ⟨T, _, hreplay, hrun⟩ := replay_planForward hinitial hactions hforth hsolved
  exact backward_of_run hinitial hactions hrules hblind hrun
    (Situation.replay_eq_ok_iff.1 hreplay).2 htraceable hrestricted hback

theorem traceable_of_unambiguous (hactions : ∀ a ∈ p.actions, a.WellFormed)
    (hs : p.backward.Reachable s) (hrun : p.AdmissibleRun S is T)
    (hunambiguous : ∀ rs t, p.backward.Path s rs t → t.Unambiguous p.actions) :
    p.Traceable s S is := by
  rintro rs t hrs n i hi ⟨m, hmade⟩
  have hexecutes := hrun.executes hi
  have ht : p.backward.Reachable t := hrs.reachable hs
  exact ⟨m, hmade, (hunambiguous rs t hrs).outright (subgoal_fresh_of_reachable ht)
    (wellFormed_of_reachable ht) hexecutes.action_mem (hactions _ hexecutes.action_mem)
    hexecutes.isGround hmade⟩

/-- The object is stored by two instances, forward and backward. -/
theorem length_storing :
    storing.Traceable (.ofGoal storing.goal) storing.initial
        (storing.planForward storingPath).operators ∧
      (∀ rs s, storing.backward.Path (.ofGoal storing.goal) rs s → ∀ m : Assignment,
        m.Models s.bindings → s.TrueUnder m storing.initial → s.RangeRestricted) ∧
      storingPlan.operators.length ≤ (storing.planForward storingPath).operators.length := by
  have hvisited : ∀ rs s, storing.backward.Path (.ofGoal storing.goal) rs s →
      s.Unambiguous storing.actions ∧ s.RangeRestricted := by
    have hall : ∀ s ∈ storing.backward.visited (.ofGoal storing.goal)
        [storeRegression, takeRegression], s.Unambiguous storing.actions ∧ s.RangeRestricted := by
      decide
    exact fun rs s hpath => hall s (forced_backward_storing.mem_visited (by decide) hpath)
  have hactions : ∀ a ∈ storing.actions, a.WellFormed := by decide
  have hinitial : storing.initial.Ground := Situation.ground_ofAtoms _
  obtain ⟨_, _, _, hrun⟩ := replay_planForward hinitial hactions solve_storing_forward rfl
  have htraceable := traceable_of_unambiguous hactions .initial hrun fun rs s hpath =>
    (hvisited rs s hpath).1
  have hrestricted : ∀ rs s, storing.backward.Path (.ofGoal storing.goal) rs s →
      ∀ m : Assignment, m.Models s.bindings → s.TrueUnder m storing.initial → s.RangeRestricted :=
    fun rs s hpath _ _ _ => (hvisited rs s hpath).2
  refine ⟨htraceable, hrestricted, ?_⟩
  exact (backward_of_forward hinitial hactions rfl rfl solve_storing_backward solve_storing_forward
    rfl htraceable hrestricted).2 _ rfl

def pairing : PlanningProblem where
  initial := .ofAtoms [⟨"clay", []⟩]
  actions := [⟨"make", [], [.pos ⟨"clay", []⟩], [.pos ⟨"pot", [.const "A"]⟩, .neg ⟨"clay", []⟩]⟩]
  goal := ⟨[.pos ⟨"pot", [.var "x"]⟩, .pos ⟨"pot", [.var "y"]⟩]⟩
  rules := []
  heuristic := .blind

/-- One execution reaches the goal, but no path of regressions does: whichever literal is regressed,
the other one is kept. -/
theorem unreachable_pairing :
    (∃ is T, pairing.forward.Path pairing.initial is T ∧ pairing.forward.isFinal T = true) ∧
      ∀ rs t, pairing.backward.Path (.ofGoal pairing.goal) rs t →
        pairing.backward.isFinal t = false := by
  constructor
  · let i : Instance := ⟨.lifted ⟨1⟩, ⟨"make", [], [.pos ⟨"clay", []⟩],
      [.pos ⟨"pot", [.const "A"]⟩, .neg ⟨"clay", []⟩]⟩⟩
    exact ⟨[i], _, .cons (by decide) (by decide) (.nil _), by decide⟩
  · have hfirst : pairing.backward.isFinal (.ofGoal pairing.goal) = false := by decide
    have hsecond : ∀ r ∈ pairing.backward.options (.ofGoal pairing.goal),
        pairing.backward.isFinal ((Subgoal.ofGoal pairing.goal).regress r) = false ∧
          pairing.backward.options ((Subgoal.ofGoal pairing.goal).regress r) = [] := by decide
    intro rs t hpath
    cases hpath with
    | nil => exact hfirst
    | cons hoffered _ hrest =>
      obtain ⟨hopen, hlast⟩ := hsecond _ hoffered
      cases hrest with
      | nil => exact hopen
      | cons hoffered _ _ =>
        have hnone : _ ∈ ([] : List Regression) := hlast ▸ hoffered
        cases hnone

end PlanningProblem

end LiftedPlanning
