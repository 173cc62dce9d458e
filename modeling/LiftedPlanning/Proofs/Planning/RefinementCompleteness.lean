import LiftedPlanning.Proofs.Planning.ForwardRun
import LiftedPlanning.Proofs.Planning.SkeletonPath
import LiftedPlanning.Proofs.Skeleton.Progress

/-!
# What planning by refinement finds

A forward plan guides the skeleton of the goal, and every skeleton that it guides can be refined
until it is complete (`PlanningProblem.exists_complete_of_guide`). So planning by refinement does
not end without a plan if there is a forward plan (`PlanningProblem.refinement_of_forward`).

This takes a condition on the skeletons that the forward plan guides. A link from a step is offered
only for the first effect that can provide the precondition, and the first step denies ground atoms
only; there has to be a reading of the skeleton with which these links agree. Where another effect
would have to be chosen a plan may be lost (`PlanningProblem.unreachable_matching`).
-/

namespace LiftedPlanning

namespace PlanningProblem

variable {p : PlanningProblem} {root s : Skeleton} {S T : Situation} {is : List Instance}
  {m : Assignment} {position : Instance → Nat} {ν : String → String}

theorem AdmissibleRun.executed (hactions : ∀ a ∈ p.actions, a.WellFormed)
    (h : p.AdmissibleRun S is T) : Skeleton.Executed p.actions S is := by
  have hexecutes : ∀ i ∈ is, ∃ S', p.Executes S' i := fun i hi => by
    obtain ⟨n, hn⟩ := List.mem_iff_getElem?.1 hi
    exact ⟨_, h.executes hn⟩
  refine ⟨fun i hi => ?_, fun i hi => ?_, fun i hi => ?_, fun q i hi => (h.executes hi).applicable⟩
  · obtain ⟨_, hi⟩ := hexecutes i hi
    exact hi.action_mem
  · obtain ⟨_, hi⟩ := hexecutes i hi
    exact hactions _ hi.action_mem
  · obtain ⟨_, hi⟩ := hexecutes i hi
    exact hi.isGround

/-- The place after an execution of a number of instances for one step, and the one before it for
all others. -/
def framePosition (finish : Instance) (length : Nat) (a : Instance) : Nat :=
  if a = finish then length + 1 else 0

theorem guide_ofGoal (hroot : Skeleton.ofGoal S p.goal = .ok root)
    (hν : p.goal.TrueUnder ν (S.after is)) :
    root.Guide S is (Goal.assignment ν) (framePosition root.finish is.length) := by
  have hs := Skeleton.invariant_ofGoal hroot
  obtain ⟨first, last, _, _, _, _, hgoal, _, rfl⟩ := Skeleton.ofGoal_eq_ok hroot
  let root := Skeleton.frame (.lifted first ⟨1⟩) (.lifted last ⟨2⟩)
  have hstart : framePosition root.finish is.length root.start = 0 := if_neg hs.start_ne_finish
  have hfinish : framePosition root.finish is.length root.finish = is.length + 1 := if_pos rfl
  have hcases : ∀ a ∈ root.steps, a = root.start ∨ a = root.finish := fun a ha =>
    (List.mem_cons.1 (Skeleton.mem_steps_frame.1 ha)).imp_right List.mem_singleton.1
  refine ⟨Assignment.models_empty _, hstart, hfinish, fun a ha => ?_, fun a ha b hb hab => ?_,
    fun q hq => ?_, fun l hl => ?_, fun k hk => absurd hk (SortedSet.not_mem_empty k)⟩
  · obtain ⟨ha, hne⟩ := Skeleton.mem_properSteps.1 ha
    exact absurd (hcases a ha) (not_or.2 hne)
  · rcases hcases a ha with rfl | rfl
    · rcases hcases b hb with rfl | rfl
      · rfl
      · cases hstart.symm.trans (hab.trans hfinish)
    · rcases hcases b hb with rfl | rfl
      · cases hstart.symm.trans (hab.symm.trans hfinish)
      · rfl
  · cases Skeleton.mem_precedences_frame.1 hq
    exact hstart.trans_lt (hfinish ▸ Nat.succ_pos _)
  · obtain ⟨k, hk, rfl⟩ := List.mem_map.1 hl
    exact hν k (hgoal ▸ hk)

/-- Where a run guides a skeleton that is reached from the given one, it also guides it in a model
in which the steps that provide the next precondition are linked to it. -/
def Followable (p : PlanningProblem) (root s : Skeleton) (is : List Instance) : Prop :=
  ∀ rs t, (p.refinement root).Path s rs t → t.threats = [] → ∀ o os, t.openConditions = o :: os →
    (∃ m position, t.Guide p.initial is m position) →
      ∃ m position, t.Guide p.initial is m position ∧ t.Serves p.initial m o

theorem exists_complete_of_guide (hactions : ∀ a ∈ p.actions, a.WellFormed)
    (hexecuted : Skeleton.Executed p.actions p.initial is) (hs : s.Invariant p.initial p.goal)
    (hfresh : s.Fresh) (hguide : s.Guide p.initial is m position)
    (hfollowable : p.Followable root s is) :
    ∃ rs t, (p.refinement root).Path s rs t ∧ t.isComplete = true := by
  -- The induction is on what is left to do; each refinement is one that the run guides.
  generalize hn : s.toDo is = n
  induction n using Skeleton.wellFounded_less.induction generalizing s m position with
  | _ n ih =>
    subst hn
    cases hcomplete : s.isComplete with
    | true => exact ⟨[], s, .nil s, hcomplete⟩
    | false =>
      obtain ⟨r, hr, ⟨m', position', hguide'⟩, hless⟩ := hguide.progresses hs hfresh hexecuted
        (fun hthreats o os hopen => hfollowable [] s (.nil s) hthreats o os hopen ⟨m, _, hguide⟩)
        hcomplete
      have hvalid : (p.refinement root).isValid (s.refine r) = true := hguide'.ascends.isAcyclic
      obtain ⟨rs, t, hpath, ht⟩ := ih _ hless (hs.refine hactions hr) (hs.fresh_refine hfresh hr)
        hguide' (fun rs t hpath => hfollowable (r :: rs) t (.cons hr hvalid hpath)) rfl
      exact ⟨r :: rs, t, .cons hr hvalid hpath, ht⟩

/-- If a run leads to a situation that satisfies the goal, planning by refinement does not end
without a plan. -/
theorem ne_unreachable_of_run (hinitial : p.initial.Ground)
    (hactions : ∀ a ∈ p.actions, a.WellFormed) (hrun : p.AdmissibleRun p.initial is T)
    (hfinal : p.goal.satisfiedBy T = true)
    (hfollowable : ∀ root, Skeleton.ofGoal p.initial p.goal = .ok root →
      p.Followable root root is)
    {settings : SearchSettings} {cancelled : Nat → Bool} {fuel : Nat} {refined : Solution}
    (hrefined : p.solve .partialOrder settings cancelled fuel = some (.ok refined)) :
    refined.outcome ≠ .unreachable := by
  intro hunreachable
  rw [solve] at hrefined
  split at hrefined
  · cases hrefined
  · next root hroot =>
    rw [hrun.eq_after] at hfinal
    obtain ⟨ν, hν⟩ := (Goal.satisfiedBy_iff_certain (hinitial.after _)).1 hfinal
    have hguide := guide_ofGoal hroot (hν ν fun _ _ _ => rfl)
    obtain ⟨rs, t, hrs, ht⟩ := exists_complete_of_guide hactions (hrun.executed hactions)
      (Skeleton.invariant_ofGoal hroot) (Skeleton.fresh_ofGoal hroot) hguide
      (hfollowable root hroot)
    obtain ⟨report, hreport, hresult⟩ := solveIn_eq_unreachable hrefined hunreachable
    have hopen : (p.refinement root).isFinal t = false :=
      Search.isFinal_eq_false_of_solve_eq_unreachable hreport hresult hguide.ascends.isAcyclic hrs
    cases (Bool.or_eq_false_iff.1 hopen).1.symm.trans ht

/-- If forward planning finds a plan, planning by refinement does not end without one. Each skeleton
that is reached and that the forward plan guides has to be guided by it in such a way that the steps
that provide the next precondition are linked to it. -/
theorem refinement_of_forward (hinitial : p.initial.Ground)
    (hactions : ∀ a ∈ p.actions, a.WellFormed)
    {settings settings' : SearchSettings} {cancelled cancelled' : Nat → Bool} {fuel fuel' : Nat}
    {refined forth : Solution} {plan : Plan FinalState Instance Nat}
    (hrefined : p.solve .partialOrder settings cancelled fuel = some (.ok refined))
    (hforth : p.solve .forward settings' cancelled' fuel' = some (.ok forth))
    (hsolved : forth.outcome = .solved plan)
    (hfollowable : ∀ root, Skeleton.ofGoal p.initial p.goal = .ok root →
      p.Followable root root plan.operators) : refined.outcome ≠ .unreachable := by
  obtain ⟨T, _, hreplay, hrun⟩ := replay_planForward hinitial hactions hforth hsolved
  exact ne_unreachable_of_run hinitial hactions hrun (Situation.replay_eq_ok_iff.1 hreplay).2
    hfollowable hrefined

theorem followable_of_decided (hinitial : p.initial.Ground)
    (hactions : ∀ a ∈ p.actions, a.WellFormed)
    (hroot : Skeleton.ofGoal p.initial p.goal = .ok root)
    (hdecided : ∀ rs s, (p.refinement root).Path root rs s → ∀ o ∈ s.openConditions, s.Decided o) :
    p.Followable root root is := by
  rintro rs s hpath _ o os hopen ⟨m, position, hguide⟩
  have hs := invariant_of_reachable hactions hroot (hpath.reachable .initial)
  have ho : o ∈ s.openConditions := hopen ▸ List.mem_cons_self ..
  exact ⟨m, position, hguide, (hdecided rs s hpath o ho).serves hs hinitial hguide.models⟩

/-- The links come from all steps that support the next precondition, as far as these can come
before. -/
theorem refinements_eq {actions : List Action} {o : OpenCondition} {os : List OpenCondition}
    (hthreats : s.threats = []) (hopen : s.openConditions = o :: os)
    (hbefore : ∀ a ∈ s.steps.toList, (s.support? S a o.proposition).isSome = true →
      s.canOrder a o.step = true) :
    s.refinements S actions =
      (s.steps.toList.filterMap fun a => (s.support? S a o.proposition).map fun c => .link a o c) ++
        s.additions actions o := by
  have hlinkings : s.linkings S o =
      s.steps.toList.filterMap fun a =>
        (s.support? S a o.proposition).map fun c => .link a o c := by
    rw [Skeleton.linkings, List.filterMap_filter]
    refine List.filterMap_congr fun a ha => ?_
    cases hsupport : s.support? S a o.proposition with
    | none => simp
    | some c => rw [hbefore a ha (by rw [hsupport, Option.isSome_some])]; rfl
  rw [Skeleton.refinements, hthreats, hopen, ← hlinkings]

/-- Storing an object, as it is refined: the goal, then the instance that stores it, and the one
that takes it. -/
def storingRoot : Skeleton :=
  .frame (.lifted ⟨"start", [], [], [.pos ⟨"onTable", [.const "A"]⟩]⟩ ⟨1⟩)
    (.lifted ⟨"finish", ["y"], [.pos ⟨"stored", [.var "y"]⟩], []⟩ ⟨2⟩)

def storeStep : Instance := .lifted storeInstance.action ⟨3⟩

def takeStep : Instance := .lifted takeInstance.action ⟨4⟩

def storeRefinement : Refinement :=
  .addStep storeStep ⟨storingRoot.finish, ⟨⟨2⟩, .pos ⟨"stored", [.var "y"]⟩⟩⟩
    ⟨SortedMap.empty.insert ⟨⟨3⟩, "x"⟩ ⟨⟨2⟩, "y"⟩, .empty, .empty⟩

def takeRefinement : Refinement :=
  .addStep takeStep ⟨storeStep, ⟨⟨3⟩, .pos ⟨"holding", [.var "x"]⟩⟩⟩
    ⟨(SortedMap.empty.insert ⟨⟨3⟩, "x"⟩ ⟨⟨2⟩, "y"⟩).insert ⟨⟨4⟩, "x"⟩ ⟨⟨2⟩, "y"⟩, .empty, .empty⟩

def onTableRefinement : Refinement :=
  .link storingRoot.start ⟨takeStep, ⟨⟨4⟩, .pos ⟨"onTable", [.var "x"]⟩⟩⟩
    ⟨(SortedMap.empty.insert ⟨⟨3⟩, "x"⟩ ⟨⟨2⟩, "y"⟩).insert ⟨⟨4⟩, "x"⟩ ⟨⟨2⟩, "y"⟩,
      SortedMap.empty.insert ⟨⟨2⟩, "y"⟩ "A", .empty⟩

def storingSkeletons : List Skeleton :=
  let first := storingRoot.refine storeRefinement
  let second := first.refine takeRefinement
  [storingRoot, first, second, second.refine onTableRefinement]

def storingPosition (a : Instance) : Nat :=
  if a = storingRoot.start then 0 else 6 - a.scope.id.toNat

theorem ascends_storing : ∀ s ∈ storingSkeletons, s.Ascends storingPosition := by decide

theorem isAcyclic_storing (hs : s ∈ storingSkeletons) : s.isAcyclic = true :=
  (ascends_storing s hs).isAcyclic

theorem options_storing (hs : s ∈ storingSkeletons) {o : OpenCondition} {os : List OpenCondition}
    (hthreats : s.threats = []) (hopen : s.openConditions = o :: os)
    (hbefore : ∀ a ∈ s.steps.toList, (s.support? storing.initial a o.proposition).isSome = true →
      storingPosition a < storingPosition o.step) :
    (storing.refinement storingRoot).options s =
      (s.steps.toList.filterMap fun a =>
        (s.support? storing.initial a o.proposition).map fun c => .link a o c) ++
        s.additions storing.actions o :=
  refinements_eq hthreats hopen fun a ha h => (ascends_storing s hs).canOrder (hbefore a ha h)

theorem forced_refinement_storing : (storing.refinement storingRoot).Forced storingRoot
    [storeRefinement, takeRefinement, onTableRefinement]
    (((storingRoot.refine storeRefinement).refine takeRefinement).refine onTableRefinement) := by
  let first := storingRoot.refine storeRefinement
  let second := first.refine takeRefinement
  let third := second.refine onTableRefinement
  have hroot : storingRoot ∈ storingSkeletons := by simp [storingSkeletons]
  have hfirst : first ∈ storingSkeletons := by simp [storingSkeletons, first]
  have hsecond : second ∈ storingSkeletons := by simp [storingSkeletons, first, second]
  have hthird : third ∈ storingSkeletons := by simp [storingSkeletons, first, second, third]
  have hopen : storingRoot.openConditions =
      [⟨storingRoot.finish, ⟨⟨2⟩, .pos ⟨"stored", [.var "y"]⟩⟩⟩] := by decide
  have hopen₁ : first.openConditions = [⟨storeStep, ⟨⟨3⟩, .pos ⟨"holding", [.var "x"]⟩⟩⟩] := by
    decide
  have hopen₂ : second.openConditions = [⟨takeStep, ⟨⟨4⟩, .pos ⟨"onTable", [.var "x"]⟩⟩⟩] := by
    decide
  refine .cons (by decide) ?_ (isAcyclic_storing hfirst)
    (.cons (by decide) ?_ (isAcyclic_storing hsecond)
      (.cons (by decide) ?_ (isAcyclic_storing hthird) (.nil (by decide))))
  · rw [options_storing hroot (by decide) hopen (by decide)]
    decide
  · exact (options_storing hfirst (by decide) hopen₁ (by decide)).trans (by decide)
  · exact (options_storing hsecond (by decide) hopen₂ (by decide)).trans (by decide)

def storingRefinements : Plan Skeleton (Offer Refinement) Nat :=
  ⟨[⟨storeRefinement, 0⟩, ⟨takeRefinement, 1⟩, ⟨onTableRefinement, 2⟩], 2,
    ((storingRoot.refine storeRefinement).refine takeRefinement).refine onTableRefinement⟩

theorem ofGoal_storing : Skeleton.ofGoal storing.initial storing.goal = .ok storingRoot := by rfl

theorem solve_storing_refinement : storing.solve .partialOrder .default (fun _ => false) 4 =
    some (.ok ⟨.solved (planPartialOrder storingRefinements),
      { expanded := 3, generated := 3 }⟩) := by
  have hroot : storingRoot ∈ storingSkeletons := List.mem_cons_self ..
  rw [solve, ofGoal_storing]
  exact solveIn_of_forced (isAcyclic_storing hroot) forced_refinement_storing (by decide)

theorem outcome_storing :
    (∀ root, Skeleton.ofGoal storing.initial storing.goal = .ok root →
      storing.Followable root root (storing.planForward storingPath).operators) ∧
    ∃ refined, storing.solve .partialOrder .default (fun _ => false) 4 = some (.ok refined) ∧
      refined.outcome ≠ .unreachable := by
  have hactions : ∀ a ∈ storing.actions, a.WellFormed := by decide
  have hinitial : storing.initial.Ground := Situation.ground_ofAtoms _
  have hdecided : ∀ s ∈ (storing.refinement storingRoot).visited storingRoot
      [storeRefinement, takeRefinement, onTableRefinement],
      ∀ o ∈ s.openConditions, s.Decided o := by decide
  have hfollowable : ∀ root, Skeleton.ofGoal storing.initial storing.goal = .ok root →
      storing.Followable root root (storing.planForward storingPath).operators := by
    intro root hroot
    cases ofGoal_storing.symm.trans hroot
    have hcomplete : storingRefinements.terminal.isComplete = true := by decide
    have hlast :=
      Skeleton.refinements_eq_nil_of_isComplete hcomplete storing.initial storing.actions
    exact followable_of_decided hinitial hactions hroot fun rs s hpath =>
      hdecided s (forced_refinement_storing.mem_visited hlast hpath)
  exact ⟨hfollowable, _, solve_storing_refinement, refinement_of_forward hinitial hactions
    solve_storing_refinement solve_storing_forward rfl hfollowable⟩

def matching : PlanningProblem where
  initial := .ofAtoms [⟨"heavy", [.const "B"]⟩, ⟨"red", [.const "A"]⟩, ⟨"red", [.const "B"]⟩]
  actions := [⟨"wave", [], [], [.pos ⟨"waved", []⟩]⟩]
  goal := ⟨[.pos ⟨"red", [.var "x"]⟩, .pos ⟨"heavy", [.var "x"]⟩, .pos ⟨"waved", []⟩]⟩
  rules := []
  heuristic := .blind

def matchingRoot : Skeleton :=
  .frame
    (.lifted ⟨"start", [], [], [.pos ⟨"heavy", [.const "B"]⟩, .pos ⟨"red", [.const "A"]⟩,
      .pos ⟨"red", [.const "B"]⟩]⟩ ⟨1⟩)
    (.lifted ⟨"finish", ["x"], matching.goal.literals, []⟩ ⟨2⟩)

def matchingSkeleton : Skeleton :=
  matchingRoot.link matchingRoot.start ⟨matchingRoot.finish, ⟨⟨2⟩, .pos ⟨"red", [.var "x"]⟩⟩⟩
    ⟨.empty, SortedMap.empty.insert ⟨⟨2⟩, "x"⟩ "A", .empty⟩

theorem refine_matchingRoot {r : Refinement}
    (hr : r ∈ matchingRoot.refinements matching.initial matching.actions) :
    matchingRoot.refine r = matchingSkeleton := by
  have hthreats : matchingRoot.threats = [] := by decide
  have hopen : matchingRoot.openConditions =
      ⟨matchingRoot.finish, ⟨⟨2⟩, .pos ⟨"red", [.var "x"]⟩⟩⟩ ::
        [⟨matchingRoot.finish, ⟨⟨2⟩, .pos ⟨"heavy", [.var "x"]⟩⟩⟩,
          ⟨matchingRoot.finish, ⟨⟨2⟩, .pos ⟨"waved", []⟩⟩⟩] := by decide
  rw [Skeleton.refinements, hthreats, hopen] at hr
  rcases List.mem_append.1 hr with hr | hr
  · obtain ⟨a, ha, hr⟩ := List.mem_filterMap.1 hr
    have hlinks : ∀ a ∈ matchingRoot.steps.toList, ∀ c ∈ matchingRoot.support? matching.initial a
        ⟨⟨2⟩, .pos ⟨"red", [.var "x"]⟩⟩, matchingRoot.refine (.link a
          ⟨matchingRoot.finish, ⟨⟨2⟩, .pos ⟨"red", [.var "x"]⟩⟩⟩ c) = matchingSkeleton := by decide
    obtain ⟨c, hc, rfl⟩ := Option.map_eq_some_iff.1 hr
    exact hlinks a (List.mem_filter.1 ha).1 c hc
  · have hnone : matchingRoot.additions matching.actions
        ⟨matchingRoot.finish, ⟨⟨2⟩, .pos ⟨"red", [.var "x"]⟩⟩⟩ = [] := by decide
    have hr : r ∈ ([] : List Refinement) := hnone ▸ hr
    cases hr

theorem refinements_matchingSkeleton :
    matchingSkeleton.refinements matching.initial matching.actions = [] := by
  have hopen : matchingSkeleton.openConditions =
      ⟨matchingRoot.finish, ⟨⟨2⟩, .pos ⟨"heavy", [.var "x"]⟩⟩⟩ ::
        [⟨matchingRoot.finish, ⟨⟨2⟩, .pos ⟨"waved", []⟩⟩⟩] := by decide
  rw [refinements_eq (by decide) hopen (by decide)]
  decide

/-- One execution reaches the goal, but no path of refinements does: the first red object is taken,
and only the other one is heavy. -/
theorem unreachable_matching :
    (∃ is T, matching.forward.Path matching.initial is T ∧ matching.forward.isFinal T = true) ∧
      Skeleton.ofGoal matching.initial matching.goal = .ok matchingRoot ∧
      ∀ rs s, (matching.refinement matchingRoot).Path matchingRoot rs s →
        (matching.refinement matchingRoot).isFinal s = false := by
  refine ⟨?_, by rfl, fun rs s hpath => ?_⟩
  · let i : Instance := .lifted ⟨"wave", [], [], [.pos ⟨"waved", []⟩]⟩ ⟨1⟩
    exact ⟨[i], _, .cons (by decide) (by decide) (.nil _), by decide⟩
  · cases hpath with
    | nil => decide
    | @cons _ _ r _ hoffered _ hrest =>
      have hfirst := refine_matchingRoot hoffered
      have hrest : (matching.refinement matchingRoot).Path (matchingRoot.refine r) _ s := hrest
      rw [hfirst] at hrest
      cases hrest with
      | nil => decide
      | cons hoffered _ _ =>
        have hoffered : _ ∈ matchingSkeleton.refinements matching.initial matching.actions :=
          hoffered
        rw [refinements_matchingSkeleton] at hoffered
        cases hoffered

end PlanningProblem

end LiftedPlanning
