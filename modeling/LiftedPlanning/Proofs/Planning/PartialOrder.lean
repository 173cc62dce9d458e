import LiftedPlanning.Proofs.Planning.Replay
import LiftedPlanning.Proofs.Search.Path
import LiftedPlanning.Proofs.Skeleton.Execution

/-!
# Partial-order plans

The proper steps of a complete skeleton whose parameters all have values can be executed in every
order that respects the precedences, and some choice of objects makes the goal true at the end
(`PlanningProblem.execute_refinement`). As for backward plans, a replay also accepts the goal if
this choice does not depend on the variables that occur in denied literals only. The producer of a
denied literal has to be watched apart: a step is no threat to its own links, but additions win over
deletions.
-/

namespace LiftedPlanning

namespace PlanningProblem

variable {p : PlanningProblem} {root s : Skeleton}

/-- All skeletons that are reached from the goal satisfy the invariant of refinements. -/
theorem invariant_of_reachable (hactions : ∀ a ∈ p.actions, a.WellFormed)
    (hroot : Skeleton.ofGoal p.initial p.goal = .ok root)
    (hs : (p.refinement root).Reachable s) : s.Invariant p.initial p.goal := by
  induction hs with
  | initial => exact Skeleton.invariant_ofGoal hroot
  | apply _ hoffered ih => exact ih.refine hactions hoffered

/-- A complete skeleton without open parameters can be executed in every order of its steps that
respects the precedences, and the goal is true at the end under some choice of objects. A replay
accepts the goal exactly if the choice does not depend on variables that occur in denied literals
only, and always if there are none. -/
theorem execute_refinement (hinitial : p.initial.Ground)
    (hactions : ∀ a ∈ p.actions, a.WellFormed)
    (hroot : Skeleton.ofGoal p.initial p.goal = .ok root) (hs : (p.refinement root).Reachable s)
    (hcomplete : s.isComplete = true)
    (hground : ∀ a ∈ s.steps, (a.ground s.bindings).isGround = true)
    (hself : ∀ k ∈ s.links, k.proposition.negated = true →
      k.producer.clobbers k.proposition s.bindings = false)
    {order : List Instance} (hperm : order.Perm s.properSteps)
    (hpairwise : order.Pairwise fun a b => ⟨b, a⟩ ∉ s.precedences) :
    ∃ T, p.initial.executeFrom 0 (order.map fun a => a.ground s.bindings) = .ok T ∧
      (∃ ν : String → String, p.goal.TrueUnder ν T) ∧
      (p.initial.replay (order.map fun a => a.ground s.bindings) p.goal = .ok T ↔
        ∃ ν : String → String, p.goal.CertainUnder ν T) ∧
      (p.goal.RangeRestricted →
        p.initial.replay (order.map fun a => a.ground s.bindings) p.goal = .ok T) := by
  have h := invariant_of_reachable hactions hroot hs
  obtain ⟨m, hm⟩ := h.wellFormed.exists_models
  have horder : Chain.Respects s.pairs ([s.start] ++ (order ++ [s.finish])) :=
    h.respects hperm hpairwise
  have hsteps : ∀ a ∈ order, a ∈ s.steps ∧ a ≠ s.start := by
    intro a ha
    obtain ⟨ha, hproper⟩ := List.mem_filter.1 (hperm.mem_iff.1 ha)
    rw [Skeleton.isProper, Bool.and_eq_true, decide_eq_true_iff] at hproper
    exact ⟨ha, hproper.1⟩
  obtain ⟨T, hrun, hT, hcarried⟩ := h.executeFrom hcomplete hself hground hm horder hsteps
    hinitial (h.carried_start hinitial hm) 0
  -- The last step of the frame is not executed, but what it requires is true.
  have hlast : Chain.Respects s.pairs ([s.start] ++ order ++ s.finish :: []) := by
    rwa [List.append_assoc]
  have hfinish : ∀ l ∈ s.finish.preconditions, T.holds (m.literal l) = true :=
    h.holds_preconditions (Skeleton.isComplete_iff.1 hcomplete).1 hlast h.finish_mem hcarried
  have hν : p.goal.TrueUnder (m.inScope s.finish.scope) T := by
    intro l hl
    rw [← h.finish_preconditions] at hl
    have hholds := hfinish _ (List.mem_map_of_mem hl)
    rw [h.lifted _ h.finish_mem]
    exact hholds
  exact ⟨T, hrun, ⟨_, hν⟩, Situation.replay_eq_ok_iff_certain hrun hT,
    fun hrange => Situation.replay_of_rangeRestricted hrun hT hrange hν⟩

def clearingRoot : Skeleton :=
  .frame (.lifted ⟨"start", [], [], [.pos ⟨"q", [.const "A"]⟩, .pos ⟨"q", [.const "B"]⟩]⟩ ⟨1⟩)
    (.lifted ⟨"finish", ["y"], [.neg ⟨"q", [.var "y"]⟩], []⟩ ⟨2⟩)

def clearingStep : Instance := .lifted ⟨"del", [], [], [.neg ⟨"q", [.const "A"]⟩]⟩ ⟨3⟩

def clearingRefinement : Refinement :=
  .addStep clearingStep ⟨clearingRoot.finish, ⟨⟨2⟩, .neg ⟨"q", [.var "y"]⟩⟩⟩
    ⟨.empty, SortedMap.empty.insert ⟨⟨2⟩, "y"⟩ "A", .empty⟩

def clearingSkeleton : Skeleton := clearingRoot.refine clearingRefinement

theorem reachable_clearingSkeleton :
    (clearing.refinement clearingRoot).Reachable clearingSkeleton := by
  have hroot : (clearing.refinement clearingRoot).Reachable clearingRoot := .initial
  have hoffered : clearingRefinement ∈
      (clearing.refinement clearingRoot).options clearingRoot :=
    List.mem_append_right _ (by decide)
  exact hroot.apply hoffered

theorem isComplete_clearingSkeleton : clearingSkeleton.isComplete = true := by
  have hstart : clearingSkeleton.precedes clearingRoot.start clearingStep = true :=
    Chain.leads_of_mem (by decide)
  refine Skeleton.isComplete_iff.2 ⟨by decide, ?_⟩
  intro k hk a ha
  cases List.mem_singleton.1 (show k ∈ [_] from hk)
  have hsteps : a ∈ [clearingRoot.start, clearingRoot.finish, clearingStep] := ha
  simp only [List.mem_cons, List.not_mem_nil, or_false] at hsteps
  rcases hsteps with rfl | rfl | rfl
  · rw [Skeleton.endangers]
    simp [OpenCondition.linkFrom, hstart]
  · decide
  · decide

theorem execute_clearingStep :
    ∃ T, clearing.initial.executeFrom 0 [clearingStep.ground clearingSkeleton.bindings] = .ok T ∧
      (∃ ν : String → String, clearing.goal.TrueUnder ν T) ∧
      ¬ ∃ ν : String → String, clearing.goal.CertainUnder ν T := by
  have hground : ∀ a ∈ clearingSkeleton.steps.toList,
      (a.ground clearingSkeleton.bindings).isGround = true := by decide
  have hself : ∀ k ∈ clearingSkeleton.links.toList, k.proposition.negated = true →
      k.producer.clobbers k.proposition clearingSkeleton.bindings = false := by decide
  have hproper : clearingSkeleton.properSteps = [clearingStep] := by decide
  have hroot : Skeleton.ofGoal clearing.initial clearing.goal = .ok clearingRoot := by rfl
  obtain ⟨T, hrun, htrue, hreplay, _⟩ :=
    execute_refinement (p := clearing) (Situation.ground_ofAtoms _) (by decide) hroot
      reachable_clearingSkeleton isComplete_clearingSkeleton hground hself
      (.of_eq hproper.symm) (List.pairwise_singleton _ _)
  refine ⟨T, hrun, htrue, ?_⟩
  rw [← hreplay]
  have hunmet : clearing.initial.replay [clearingStep.ground clearingSkeleton.bindings]
      clearing.goal = .error (.goalUnmet (.ofAtoms [⟨"q", [.const "B"]⟩])) := by rfl
  change clearing.initial.replay [clearingStep.ground clearingSkeleton.bindings] _ ≠ _
  rw [hunmet]
  intro hok
  cases hok

end PlanningProblem

end LiftedPlanning
