import LiftedPlanning.Proofs.Planning.Forward
import LiftedPlanning.Proofs.Planning.Replay

/-!
# Runs that forward search decides

A run is admissible if each of its instances is a use of an action over objects of the situation in
which it is executed, is applicable there, and leads from one coherent situation to the next
(`PlanningProblem.AdmissibleRun`). But for their scopes these are the paths of forward search
(`PlanningProblem.admissibleRun_of_path`, `PlanningProblem.AdmissibleRun.exists_path`), so that
the outcome of the search says whether an admissible run satisfies the goal, and a plan is one that
does (`PlanningProblem.admissibleRun_of_forward`).
-/

namespace LiftedPlanning

namespace PlanningProblem

variable {p : PlanningProblem} {S T : Situation} {i i' : Instance} {is is' : List Instance}

/-- A use of an action of the problem over the objects of a situation that is applicable there. -/
structure Admits (p : PlanningProblem) (S : Situation) (i : Instance) : Prop where
  action_mem : i.action ∈ p.actions
  overObjects : S.OverObjects i
  applicable : S.applicable i = true

/-- The instances lead from one situation to another, through coherent situations only. -/
inductive AdmissibleRun (p : PlanningProblem) : Situation → List Instance → Situation → Prop where
  | nil {S : Situation} (coherent : S.coherent p.rules = true) : AdmissibleRun p S [] S
  | cons {S T : Situation} {i : Instance} {is : List Instance}
      (coherent : S.coherent p.rules = true) (admits : p.Admits S i)
      (rest : AdmissibleRun p (S.apply i) is T) : AdmissibleRun p S (i :: is) T

theorem AdmissibleRun.coherent (h : p.AdmissibleRun S is T) : S.coherent p.rules = true := by
  cases h with
  | nil hcoherent => exact hcoherent
  | cons hcoherent _ _ => exact hcoherent

theorem AdmissibleRun.executeFrom (h : p.AdmissibleRun S is T) (index : Nat) :
    S.executeFrom index is = .ok T := by
  induction h generalizing index with
  | nil _ => rfl
  | cons _ hadmits _ ih =>
    rw [Situation.executeFrom_cons, if_pos hadmits.applicable]
    exact ih (index + 1)

theorem AdmissibleRun.eq_after (h : p.AdmissibleRun S is T) : T = S.after is := by
  induction h with
  | nil _ => rfl
  | cons _ _ _ ih => exact ih

theorem AdmissibleRun.executes (h : p.AdmissibleRun S is T) {n : Nat} (hi : is[n]? = some i) :
    p.Executes (S.after (is.take n)) i := by
  induction h generalizing n with
  | nil _ => simp at hi
  | @cons S T j is _ hadmits _ ih =>
    cases n with
    | zero =>
      cases Option.some.inj hi
      exact ⟨hadmits.action_mem, hadmits.overObjects.isGround, hadmits.applicable⟩
    | succ n => exact ih hi

theorem admits_of_mem_executable (hactions : ∀ a ∈ p.actions, a.WellFormed) (hS : S.Ground)
    (hi : i ∈ p.executable S) : p.Admits S i := by
  obtain ⟨haction, id, hgrounding⟩ := mem_executable hi
  exact ⟨haction, Situation.overObjects_of_mem_groundings hS hgrounding,
    Situation.applicable_of_mem_groundings hS (hactions _ haction) hgrounding⟩

theorem Admits.of_sameUse (hactions : ∀ a ∈ p.actions, a.WellFormed) (h : p.Admits S i)
    (hsame : i'.SameUse i) : p.Admits S i' := by
  refine ⟨hsame.action ▸ h.action_mem, fun x hx => ?_, ?_⟩
  · have hx : x ∈ i.action.parameters := hsame.action ▸ hx
    rw [hsame.values x hx]
    exact h.overObjects x hx
  · exact (hsame.applicable_iff (hactions _ h.action_mem) h.overObjects.isGround).2 h.applicable

theorem Admits.exists_mem_executable (hactions : ∀ a ∈ p.actions, a.WellFormed) (hS : S.Ground)
    (h : p.Admits S i) : ∃ i' ∈ p.executable S, i'.SameUse i := by
  obtain ⟨n, hn⟩ := List.mem_iff_getElem?.1 h.action_mem
  obtain ⟨i', hi', hsame⟩ := Situation.exists_mem_groundings hS (hactions _ h.action_mem)
    h.overObjects h.applicable ⟨n + 1⟩
  have hindexed := List.mk_mem_zipIdx_iff_getElem?.2 hn
  exact ⟨i', List.mem_flatMap.2 ⟨_, hindexed, hi'⟩, hsame⟩

theorem admissibleRun_of_path (hactions : ∀ a ∈ p.actions, a.WellFormed) (hS : S.Ground)
    (hcoherent : S.coherent p.rules = true) (hpath : p.forward.Path S is T)
    (hsame : List.Forall₂ Instance.SameUse is' is) : p.AdmissibleRun S is' T := by
  induction hpath generalizing is' with
  | nil S =>
    cases hsame
    exact .nil hcoherent
  | @cons S T i is hoffered hvalid _ ih =>
    cases hsame with
    | @cons i' _ is' _ hi his =>
      have hadmits := admits_of_mem_executable hactions hS hoffered
      have happly : S.apply i' = S.apply i :=
        hi.apply_eq (hactions _ hadmits.action_mem) hadmits.overObjects.isGround
      refine .cons hcoherent (hadmits.of_sameUse hactions hi) ?_
      rw [happly]
      exact ih (hS.apply i) hvalid his

theorem AdmissibleRun.exists_path (hactions : ∀ a ∈ p.actions, a.WellFormed) (hS : S.Ground)
    (h : p.AdmissibleRun S is T) : ∃ is', p.forward.Path S is' T ∧ is'.length = is.length := by
  induction h with
  | nil _ => exact ⟨[], .nil _, rfl⟩
  | @cons S T i is _ hadmits hrest ih =>
    obtain ⟨i', hoffered, hsame⟩ := hadmits.exists_mem_executable hactions hS
    have happly : S.apply i' = S.apply i :=
      hsame.apply_eq (hactions _ hadmits.action_mem) hadmits.overObjects.isGround
    obtain ⟨is', hpath, hlength⟩ := ih (hS.apply i)
    refine ⟨i' :: is', .cons hoffered ?_ ?_, by rw [List.length_cons, List.length_cons, hlength]⟩
    · change (S.apply i').coherent p.rules = true
      rw [happly]
      exact hrest.coherent
    · change p.forward.Path (S.apply i') is' T
      rw [happly]
      exact hpath

theorem forall₂_sameUse_planForward (p : PlanningProblem)
    (path : Plan Situation (Offer Instance) Nat) :
    List.Forall₂ Instance.SameUse (p.planForward path).operators
      (path.operators.map Offer.operator) := by
  rw [planForward, List.forall₂_map_left_iff, List.forall₂_map_right_iff, List.forall₂_same]
  exact fun o _ => ⟨rfl, fun _ _ => rfl⟩

variable {settings : SearchSettings} {cancelled : Nat → Bool} {fuel : Nat} {solution : Solution}
  {plan : Plan FinalState Instance Nat}

/-- A plan that forward search finds is an admissible run, and its replay ends in the situation in
which the search ended. -/
theorem replay_planForward (hinitial : p.initial.Ground) (hactions : ∀ a ∈ p.actions, a.WellFormed)
    (h : p.solve .forward settings cancelled fuel = some (.ok solution))
    (hsolved : solution.outcome = .solved plan) :
    ∃ T, plan.terminal = .situation T ∧ p.initial.replay plan.operators p.goal = .ok T ∧
      p.AdmissibleRun p.initial plan.operators T := by
  obtain ⟨report, path, hreport, hresult, rfl⟩ := solveIn_eq_solved h hsolved
  obtain ⟨hpath, hfinal, _⟩ := Search.path_of_solve_eq_solved hreport hresult
  obtain ⟨hvalid, _, _⟩ := Search.run_of_solve_eq_solved hreport hresult
  have hrun : p.AdmissibleRun p.initial (p.planForward path).operators path.terminal :=
    admissibleRun_of_path hactions hinitial hvalid hpath (forall₂_sameUse_planForward p path)
  exact ⟨path.terminal, rfl, Situation.replay_eq_ok_iff.2 ⟨hrun.executeFrom 0, hfinal⟩, hrun⟩

/-- The outcome of forward search tells whether some admissible run satisfies the goal. A plan is
such a run, with the situation at its end, and without an estimate it is a shortest one. -/
theorem admissibleRun_of_forward (hinitial : p.initial.Ground)
    (hactions : ∀ a ∈ p.actions, a.WellFormed)
    (h : p.solve .forward settings cancelled fuel = some (.ok solution)) :
    (∀ plan, solution.outcome = .solved plan →
      ∃ T, plan.terminal = .situation T ∧ p.initial.replay plan.operators p.goal = .ok T ∧
        p.AdmissibleRun p.initial plan.operators T) ∧
    (solution.outcome = .unreachable ↔
      ∀ is T, p.AdmissibleRun p.initial is T → p.goal.satisfiedBy T = false) ∧
    (p.heuristic = .blind → ∀ plan, solution.outcome = .solved plan →
      ∀ is T, p.AdmissibleRun p.initial is T → p.goal.satisfiedBy T = true →
        plan.operators.length ≤ is.length) := by
  refine ⟨fun plan => replay_planForward hinitial hactions h, ⟨?_, ?_⟩, ?_⟩
  · intro hunreachable is T hrun
    obtain ⟨report, hreport, hresult⟩ := solveIn_eq_unreachable h hunreachable
    obtain ⟨is', hpath, _⟩ := hrun.exists_path hactions hinitial
    exact Search.isFinal_eq_false_of_solve_eq_unreachable hreport hresult hrun.coherent hpath
  · intro hnone
    cases houtcome : solution.outcome with
    | unreachable => rfl
    | alreadySatisfied =>
      obtain ⟨report, hreport, hresult⟩ := solveIn_eq_alreadySatisfied h houtcome
      obtain ⟨hvalid, hfinal⟩ := Search.initial_of_solve_eq_alreadySatisfied hreport hresult
      exact absurd hfinal (Bool.eq_false_iff.1 (hnone [] _ (.nil hvalid)))
    | solved plan =>
      obtain ⟨T, _, hreplay, hrun⟩ := replay_planForward hinitial hactions h houtcome
      have hsatisfied := (Situation.replay_eq_ok_iff.1 hreplay).2
      rw [hnone _ T hrun] at hsatisfied
      cases hsatisfied
  · intro hblind plan hsolved is T hrun hsatisfied
    obtain ⟨report, path, hreport, hresult, rfl⟩ := solveIn_eq_solved h hsolved
    obtain ⟨_, _, hcost⟩ := Search.path_of_solve_eq_solved hreport hresult
    obtain ⟨is', hpath, hlength⟩ := hrun.exists_path hactions hinitial
    have hzero : ∀ S, p.forward.estimate S = 0 := fun S => by
      change p.heuristic.estimate _ _ = 0
      rw [hblind, Heuristic.estimate_blind]
    have hcheapest := Search.cost_le_of_estimate_eq_zero hzero hreport hresult hpath hsatisfied
    rw [hcost, SearchSpace.totalCost_eq_length fun _ => rfl,
      SearchSpace.totalCost_eq_length fun _ => rfl, List.length_map, hlength] at hcheapest
    rw [planForward, List.length_map]
    exact hcheapest

def takeInstance : Instance where
  scope := ⟨⟨2⟩, SortedMap.empty.insert "x" "A"⟩
  action := ⟨"take", ["x"], [.pos ⟨"onTable", [.var "x"]⟩],
    [.neg ⟨"onTable", [.var "x"]⟩, .pos ⟨"holding", [.var "x"]⟩]⟩

def storeInstance : Instance where
  scope := ⟨⟨1⟩, SortedMap.empty.insert "x" "A"⟩
  action := ⟨"store", ["x"], [.pos ⟨"holding", [.var "x"]⟩],
    [.neg ⟨"holding", [.var "x"]⟩, .pos ⟨"stored", [.var "x"]⟩]⟩

def storingPath : Plan Situation (Offer Instance) Nat :=
  ⟨[⟨takeInstance, 0⟩, ⟨storeInstance, 1⟩], 2,
    (storing.initial.apply takeInstance).apply storeInstance⟩

theorem solve_storing_forward : storing.solve .forward .default (fun _ => false) 3 =
    some (.ok ⟨.solved (storing.planForward storingPath), { expanded := 2, generated := 2 }⟩) := by
  have hforced : storing.forward.Forced storing.initial [takeInstance, storeInstance]
      storingPath.terminal :=
    .cons (by decide) (by decide) (by decide)
      (.cons (by decide) (by decide) (by decide) (.nil (by decide)))
  exact solveIn_of_forced (by decide) hforced (by decide)

/-- The plan stores the object, and no run of a single instance leads to an object that is
stored. -/
theorem admissibleRun_storing :
    (∃ T, storing.initial.replay (storing.planForward storingPath).operators storing.goal = .ok T ∧
      storing.AdmissibleRun storing.initial (storing.planForward storingPath).operators T) ∧
    ∀ is T, storing.AdmissibleRun storing.initial is T → storing.goal.satisfiedBy T = true →
      2 ≤ is.length := by
  obtain ⟨hplan, _, hshortest⟩ :=
    admissibleRun_of_forward (p := storing) (Situation.ground_ofAtoms _) (by decide)
      solve_storing_forward
  obtain ⟨T, _, hreplay, hrun⟩ := hplan _ rfl
  exact ⟨⟨T, hreplay, hrun⟩, hshortest rfl _ rfl⟩

end PlanningProblem

end LiftedPlanning
