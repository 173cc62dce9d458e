import LiftedPlanning.Proofs.Skeleton.Execution
import LiftedPlanning.Proofs.Skeleton.Extension
import LiftedPlanning.Proofs.Skeleton.Value
import LiftedPlanning.Proofs.World.Matching

/-!
# Skeletons without steps of their own

As long as a skeleton has no step besides those of its frame (`Skeleton.Bare`), all links lead from
the first step to the last one, and nothing threatens them. Such a link binds variables only by
reading an asserted literal of the goal as a fact, so that the bindings know no more than how the
asserted literals are read (`Skeleton.Forced`). A complete bare skeleton therefore shows that the
goal was satisfied at the outset (`Skeleton.Invariant.satisfiedBy_of_bare`), also for variables that
occur in denied literals only.
-/

namespace LiftedPlanning

namespace Skeleton

variable {S : Situation} {g : Goal} {s : Skeleton} {a : Instance} {o : OpenCondition}
  {r : Refinement} {actions : List Action}

def Bare (s : Skeleton) : Prop := ∀ a ∈ s.steps, a = s.start ∨ a = s.finish

theorem bare_iff : s.Bare ↔ s.properSteps = [] := by
  simp only [Bare, List.eq_nil_iff_forall_not_mem, mem_properSteps, not_and, not_not,
    or_iff_not_imp_left]

theorem Bare.of_refine (h : (s.refine r).Bare) : s.Bare := by
  intro a ha
  have ha := h a (mem_steps_refine.2 (.inl ha))
  rwa [start_refine, finish_refine] at ha

theorem Assembled.ends_of_bare (h : s.Assembled S g) (hbare : s.Bare) {k : CausalLink}
    (hk : k ∈ s.links) : k.producer = s.start ∧ k.consumer = s.finish := by
  have hends := h.orderly _ (h.ordered k hk)
  exact ⟨(hbare _ hends.first_mem).resolve_right hends.first_ne_finish,
    (hbare _ hends.second_mem).resolve_left hends.second_ne_start⟩

theorem Assembled.not_mem_threats (h : s.Assembled S g) (hbare : s.Bare) (t : Threat) :
    t ∉ s.threats := by
  intro ht
  obtain ⟨hlink, hstep, hendangers⟩ := mem_threats.1 ht
  obtain ⟨hproducer, hconsumer⟩ := h.ends_of_bare hbare hlink
  rw [endangers, hproducer, hconsumer] at hendangers
  rcases hbare _ hstep with heq | heq <;> simp [heq] at hendangers

/-- Only the last step has open preconditions. -/
theorem Assembled.mem_preconditions_of_bare (h : s.Assembled S g) (hbare : s.Bare)
    (ho : o ∈ s.openConditions) : o.proposition ∈ s.finish.preconditions := by
  obtain ⟨hstep, hproposition⟩ := h.required o ho
  rwa [(hbare _ hstep).resolve_left (h.step_ne_start ho)] at hproposition

/-- Whoever reads the asserted literals of the goal like a model is a model. -/
def Forced (s : Skeleton) : Prop :=
  ∀ m n : Assignment, m.Models s.bindings →
    (∀ l ∈ s.finish.preconditions, l.negated = false → n.literal l = m.literal l) →
      n.Models s.bindings

theorem Framed.atom_eq_of_effect (h : s.Framed S g) (hS : S.Ground) {e : Literal} {negated : Bool}
    (he : e ∈ s.start.effectsOf negated) (m : Assignment) :
    negated = false ∧ m.atom s.start.scope e.atom = e.atom := by
  obtain ⟨heffect, hpolarity⟩ := Instance.mem_effectsOf.1 he
  rw [h.start_effects] at heffect
  obtain ⟨fact, hfact, rfl⟩ := List.mem_map.1 heffect
  exact ⟨hpolarity.symm, Atom.instantiate_of_isGround (hS fact (SortedSet.mem_toList.1 hfact)) _⟩

/-- The bindings under which the first step supports a literal of the goal are those of before, or
they read the literal as a fact. -/
theorem Assembled.forced_of_support? (h : s.Assembled S g) (hS : S.Ground) (hforced : s.Forced)
    {l : ScopedLiteral} {c : Bindings} (hl : l ∈ s.finish.preconditions)
    (hc : s.support? S s.start l = some c) : (s.rebind c).Forced := by
  intro m n hm hsame
  rw [support?] at hc
  split at hc
  · cases hc
    exact hforced m n hm hsame
  · obtain ⟨e, he, hmodels⟩ := Instance.models_establishing? h.wellFormed hc
    obtain ⟨hms, hatom⟩ := (hmodels m).1 hm
    obtain ⟨hneg, hm'⟩ := h.atom_eq_of_effect hS he m
    obtain ⟨_, hn'⟩ := h.atom_eq_of_effect hS he n
    refine (hmodels n).2 ⟨hforced m n hms hsame, ?_⟩
    rw [hsame l hl hneg, ← hatom, hm', hn']

theorem Assembled.forced_refine (h : s.Assembled S g) (hS : S.Ground) (hforced : s.Forced)
    (hbare : (s.refine r).Bare) (hr : r ∈ s.refinements S actions) : (s.refine r).Forced := by
  have hbare' := hbare.of_refine
  cases offers_of_mem_refinements hr with
  | order _ _ _ => exact hforced
  | separate threat _ => exact absurd threat (h.not_mem_threats hbare' _)
  | @link o a c condition step orders supports =>
    have hl := h.mem_preconditions_of_bare hbare' condition
    have hend := (h.orderly_of_canOrder step (h.required o condition).1 orders).first_ne_finish
    cases (hbare' a step).resolve_right hend
    exact h.forced_of_support? hS hforced hl supports
  | @addStep o action e c _ _ _ _ =>
    have hnew : Instance.lifted action s.supply.next ∈
        (s.refine (.addStep (.lifted action s.supply.next) o c)).steps :=
      mem_steps_refine.2 (.inr (List.mem_singleton_self _))
    rcases hbare _ hnew with heq | heq
    · exact absurd heq.symm (h.ne_of_next rfl h.start_mem)
    · exact absurd heq.symm (h.ne_of_next rfl h.finish_mem)

theorem forced_ofGoal (h : ofGoal S g = .ok s) : s.Forced := by
  obtain ⟨first, last, _, _, _, _, _, _, rfl⟩ := ofGoal_eq_ok h
  exact fun _ n _ _ => Assignment.models_empty n

theorem bare_ofGoal (h : ofGoal S g = .ok s) : s.Bare := by
  obtain ⟨first, last, _, _, _, _, _, _, rfl⟩ := ofGoal_eq_ok h
  exact fun a ha => (List.mem_cons.1 (mem_steps_frame.1 ha)).imp_right List.mem_singleton.1

theorem Invariant.holds_of_bare (h : s.Invariant S g) (hS : S.Ground) (hbare : s.Bare)
    (hopen : s.openConditions = []) {m : Assignment} (hm : m.Models s.bindings) :
    ∀ l ∈ s.finish.preconditions, S.holds (m.literal l) = true := by
  intro l hl
  rcases h.provided _ h.finish_mem l hl with hcondition | ⟨k, hk, _, rfl⟩
  · rw [hopen] at hcondition
    cases hcondition
  · obtain ⟨hproducer, hconsumer⟩ := h.ends_of_bare hbare hk
    refine h.carried_start hS hm k hk (hproducer ▸ List.mem_singleton_self _) ?_
    rw [hconsumer, List.mem_singleton]
    exact h.start_ne_finish.symm

theorem Invariant.satisfiedBy_of_bare (h : s.Invariant S g) (hS : S.Ground) (hbare : s.Bare)
    (hforced : s.Forced) (hopen : s.openConditions = []) : g.satisfiedBy S = true := by
  obtain ⟨m, hm⟩ := h.wellFormed.exists_models
  have hread : ∀ (n : Assignment) (l : Literal),
      n.literal ⟨s.finish.scope.id, l⟩ = l.instantiate (n.inScope s.finish.scope) := by
    intro n l
    rw [h.lifted _ h.finish_mem]
    rfl
  refine (Goal.satisfiedBy_iff_certain hS).2 ⟨m.inScope s.finish.scope, fun ξ hsame l hl => ?_⟩
  -- The goal's variables may be read as `ξ` does, since the bindings are forced.
  have hξ : (Goal.assignment ξ).inScope s.finish.scope = ξ := by
    rw [h.lifted _ h.finish_mem]
    rfl
  have hmodels : (Goal.assignment ξ).Models s.bindings := by
    refine hforced m _ hm fun k hk hneg => ?_
    obtain ⟨l, hl, rfl⟩ := List.mem_map.1 hk
    rw [h.finish_preconditions] at hl
    rw [hread, hread, hξ]
    exact hsame l hl hneg
  rw [← h.finish_preconditions] at hl
  have hholds := h.holds_of_bare hS hbare hopen hmodels _ (List.mem_map_of_mem hl)
  rwa [hread, hξ] at hholds

end Skeleton

end LiftedPlanning
