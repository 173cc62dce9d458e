import Mathlib.Data.List.Permutation
import LiftedPlanning.Proofs.Planning.PartialOrder
import LiftedPlanning.Proofs.Skeleton.Acyclicity

/-!
# Reachable skeletons

Every skeleton that refinements reach from a goal is a sound partial plan
(`PlanningProblem.assembled_and_acyclic_of_reachable`): its precedences close no cycle and put all
steps between the two steps of the frame, its parts mention its steps only, which have scopes of
their own, and each precondition is open or supported by an earlier step
(`PlanningProblem.sound_of_reachable`). This holds for every list of actions, whether or not their
variables are all declared.
-/

namespace LiftedPlanning

namespace PlanningProblem

variable {p : PlanningProblem} {root s : Skeleton}

theorem assembled_and_acyclic_of_reachable (hroot : Skeleton.ofGoal p.initial p.goal = .ok root)
    (hs : (p.refinement root).Reachable s) :
    s.Assembled p.initial p.goal ∧ Chain.Acyclic s.pairs := by
  induction hs with
  | initial => exact ⟨(Skeleton.invariant_ofGoal hroot).toAssembled, Skeleton.acyclic_ofGoal hroot⟩
  | apply _ hoffered ih =>
    obtain ⟨hassembled, hacyclic⟩ := ih
    exact ⟨hassembled.refine hoffered, hassembled.acyclic_refine hacyclic hoffered⟩

theorem isValid_of_reachable (hroot : Skeleton.ofGoal p.initial p.goal = .ok root)
    (hs : (p.refinement root).Reachable s) : (p.refinement root).isValid s = true := by
  obtain ⟨hassembled, hacyclic⟩ := assembled_and_acyclic_of_reachable hroot hs
  exact hassembled.isAcyclic_iff.2 hacyclic

/-- A skeleton that refinements reach has no cycle, and neither has any of its refinements. The
first step of the frame precedes all others, and the last one comes after all others. Precedences,
links and open preconditions mention steps of the skeleton only, and no two of these share a scope.
Each precondition of a step is open or has a link from a step that precedes it and either has an
effect that is known to be the required literal, or is the first step, where the literal denies a
ground atom that is no initial fact. -/
theorem sound_of_reachable (hroot : Skeleton.ofGoal p.initial p.goal = .ok root)
    (hs : (p.refinement root).Reachable s) :
    ((∀ a, ¬ Chain.Leads s.pairs a a) ∧
      ∀ r ∈ (p.refinement root).options s,
        (p.refinement root).isValid ((p.refinement root).apply r s) = true) ∧
    ((∀ a ∈ s.steps, a ≠ s.start → s.precedes s.start a = true) ∧
      ∀ a ∈ s.steps, a ≠ s.finish → s.precedes a s.finish = true) ∧
    ((∀ q ∈ s.precedences, q.first ∈ s.steps ∧ q.second ∈ s.steps) ∧
      (∀ k ∈ s.links, k.producer ∈ s.steps ∧ k.consumer ∈ s.steps) ∧
      (∀ o ∈ s.openConditions, o.step ∈ s.steps) ∧
      ∀ a ∈ s.steps, ∀ b ∈ s.steps, a ≠ b → a.scope ≠ b.scope) ∧
    ∀ a ∈ s.steps, ∀ l ∈ a.preconditions, ⟨a, l⟩ ∈ s.openConditions ∨
      ∃ k ∈ s.links, k.consumer = a ∧ k.proposition = l ∧ s.precedes k.producer a = true ∧
        (k.producer.asserts l s.bindings = true ∨
          (k.producer = s.start ∧ s.deniedInitially p.initial l = true)) := by
  obtain ⟨h, hacyclic⟩ := assembled_and_acyclic_of_reachable hroot hs
  have hprecedes : ∀ {a b : Instance}, ⟨a, b⟩ ∈ s.precedences → s.precedes a b = true :=
    fun hab => Chain.leads_of_mem (Skeleton.mem_pairs.2 hab)
  have hmem : ∀ q ∈ s.precedences, q.first ∈ s.steps ∧ q.second ∈ s.steps := fun q hq =>
    ⟨(h.orderly q hq).first_mem, (h.orderly q hq).second_mem⟩
  refine ⟨⟨hacyclic, ?valid⟩, ⟨?first, ?last⟩, ⟨hmem, ?links, ?conditions, ?scopes⟩, ?provided⟩
  case valid =>
    intro r hr
    exact isValid_of_reachable hroot (hs.apply hr)
  case first =>
    intro a ha hne
    exact hprecedes (h.start_first a ha hne)
  case last =>
    intro a ha hne
    exact hprecedes (h.finish_last a ha hne)
  case links =>
    intro k hk
    exact hmem _ (h.ordered k hk)
  case conditions =>
    intro o ho
    exact (h.required o ho).1
  case scopes =>
    intro a ha b hb hne hscope
    exact hne (h.id_injective a ha b hb (congrArg Scope.id hscope))
  case provided =>
    intro a ha l hl
    rcases h.provided a ha l hl with hopen | ⟨k, hk, rfl, rfl⟩
    · exact .inl hopen
    · exact .inr ⟨k, hk, rfl, rfl, hprecedes (h.ordered k hk), h.supported k hk⟩

/-- Something has to be hung up. Nail A has to stay free, and no nail C may be. -/
def nailing : PlanningProblem where
  initial := .ofAtoms [⟨"free", [.const "A"]⟩, ⟨"nail", [.const "B"]⟩]
  actions := [⟨"hang", ["v"], [.pos ⟨"nail", [.var "v"]⟩],
    [.pos ⟨"hung", []⟩, .neg ⟨"free", [.var "v"]⟩]⟩]
  goal := ⟨[.pos ⟨"hung", []⟩, .pos ⟨"free", [.const "A"]⟩, .neg ⟨"free", [.const "C"]⟩]⟩
  rules := []
  heuristic := .blind

def nailingRoot : Skeleton :=
  .frame
    (.lifted ⟨"start", [], [], [.pos ⟨"free", [.const "A"]⟩, .pos ⟨"nail", [.const "B"]⟩]⟩ ⟨1⟩)
    (.lifted ⟨"finish", [], nailing.goal.literals, []⟩ ⟨2⟩)

def nailingStep : Instance :=
  .lifted ⟨"hang", ["v"], [.pos ⟨"nail", [.var "v"]⟩],
    [.pos ⟨"hung", []⟩, .neg ⟨"free", [.var "v"]⟩]⟩ ⟨3⟩

def nailingCondition (l : Literal) : OpenCondition := ⟨nailingRoot.finish, ⟨⟨2⟩, l⟩⟩

def nailingAddition : Refinement :=
  .addStep nailingStep (nailingCondition (.pos ⟨"hung", []⟩)) .empty

def nailingLink : Refinement :=
  .link nailingRoot.start (nailingCondition (.pos ⟨"free", [.const "A"]⟩)) .empty

def nailingBindings : Bindings :=
  ⟨.empty, .empty, .ofList [.of (.object "A") (.unbound ⟨⟨3⟩, "v"⟩)]⟩

def nailingSeparation : Refinement :=
  .separate nailingStep
    ((nailingCondition (.pos ⟨"free", [.const "A"]⟩)).linkFrom nailingRoot.start) nailingBindings

def nailingDenial : Refinement :=
  .link nailingRoot.start (nailingCondition (.neg ⟨"free", [.const "C"]⟩)) nailingBindings

def nailingSkeleton : Skeleton :=
  (((nailingRoot.refine nailingAddition).refine nailingLink).refine nailingSeparation).refine
    nailingDenial

def nailingThreatened : Skeleton := (nailingRoot.refine nailingAddition).refine nailingLink

theorem reachable_nailingThreatened :
    (nailing.refinement nailingRoot).Reachable nailingThreatened := by
  have hroot : (nailing.refinement nailingRoot).Reachable nailingRoot := .initial
  have haddition : nailingAddition ∈ nailingRoot.refinements nailing.initial nailing.actions :=
    of_decide_eq_true (by cbv)
  have hlink : nailingLink ∈
      (nailingRoot.refine nailingAddition).refinements nailing.initial nailing.actions :=
    of_decide_eq_true (by cbv)
  exact (hroot.apply haddition).apply hlink

theorem reachable_nailingSkeleton :
    (nailing.refinement nailingRoot).Reachable nailingSkeleton := by
  have hseparation :
      nailingSeparation ∈ nailingThreatened.refinements nailing.initial nailing.actions :=
    of_decide_eq_true (by cbv)
  have hdenial : nailingDenial ∈
      (nailingThreatened.refine nailingSeparation).refinements nailing.initial nailing.actions :=
    of_decide_eq_true (by cbv)
  exact (reachable_nailingThreatened.apply hseparation).apply hdenial

/-- The goal is supported by the new step, by a fact, and by the lack of one. -/
theorem sound_nailingSkeleton :
    (∀ a, ¬ Chain.Leads nailingSkeleton.pairs a a) ∧
      ∀ l ∈ nailingRoot.finish.preconditions, ∃ k ∈ nailingSkeleton.links,
        k.consumer = nailingRoot.finish ∧ k.proposition = l ∧
        nailingSkeleton.precedes k.producer nailingRoot.finish = true ∧
        (k.producer.asserts l nailingSkeleton.bindings = true ∨
          (k.producer = nailingRoot.start ∧
            nailingSkeleton.deniedInitially nailing.initial l = true)) := by
  have hroot : Skeleton.ofGoal nailing.initial nailing.goal = .ok nailingRoot := by rfl
  have hlinked : ∀ l ∈ nailingRoot.finish.preconditions,
      ⟨nailingRoot.finish, l⟩ ∉ nailingSkeleton.openConditions := by decide
  obtain ⟨⟨hacyclic, _⟩, _, _, hprovided⟩ := sound_of_reachable hroot reachable_nailingSkeleton
  refine ⟨hacyclic, fun l hl => ?_⟩
  exact (hprovided nailingRoot.finish (by decide) l hl).resolve_left (hlinked l hl)

end PlanningProblem

end LiftedPlanning
