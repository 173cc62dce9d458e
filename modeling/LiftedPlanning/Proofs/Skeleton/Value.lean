import LiftedPlanning.Proofs.Bindings.Value
import LiftedPlanning.Proofs.Order.Linear
import LiftedPlanning.Proofs.Skeleton.Refinement

/-!
# Values of the parameters of steps

The asserted literal of a link is an effect of its producer, the same one in all models, so that its
variables have values as soon as the parameters of the producer have. In a complete skeleton without
cycles it follows from step to step that each parameter has a value that occurs in an asserted
precondition.
-/

namespace LiftedPlanning

/-- Every parameter occurs in an asserted precondition. -/
def Action.RangeRestricted (a : Action) : Prop :=
  ∀ p ∈ a.parameters, ∃ l ∈ a.preconditions, l.negated = false ∧ p ∈ l.atom.vars

instance (a : Action) : Decidable a.RangeRestricted :=
  inferInstanceAs (Decidable (∀ p ∈ a.parameters, _))

namespace Skeleton

variable {S : Situation} {g : Goal} {s : Skeleton} {a : Instance}

/-! ## Positions of steps -/

def depth (s : Skeleton) (a : Instance) : Nat := Chain.depth s.pairs s.steps.toList a

theorem Assembled.ascends_depth (h : s.Assembled S g) (hacyclic : s.isAcyclic = true) :
    s.Ascends s.depth := by
  intro q hq
  have hfirst := (h.orderly q hq).first_mem
  have hfree := List.all_eq_true.1 hacyclic q.first (SortedSet.mem_toList.2 hfirst)
  rw [Bool.not_eq_true'] at hfree
  exact Chain.depth_lt hfree (mem_pairs.2 hq) (SortedSet.mem_toList.2 hfirst)

theorem Assembled.mem_linearize (h : s.Assembled S g) (hacyclic : s.isAcyclic = true) :
    a ∈ s.linearize ↔ a ∈ s.properSteps := by
  rw [linearize, properSteps, List.mem_filter, List.mem_filter]
  refine and_congr_left fun _ => ⟨Chain.mem_of_mem_linearize, fun ha => ?_⟩
  refine Chain.mem_linearize s.depth (fun p hp => ?_) (fun p hp => ?_) ha
  · exact h.ascends_depth hacyclic ⟨p.1, p.2⟩ (mem_pairs.1 hp)
  · exact SortedSet.mem_toList.2 (h.orderly ⟨p.1, p.2⟩ (mem_pairs.1 hp)).first_mem

theorem Assembled.perm_linearize (h : s.Assembled S g) (hacyclic : s.isAcyclic = true) :
    s.linearize.Perm s.properSteps := by
  have hnodup : s.linearize.Nodup := (Chain.nodup_linearize s.steps.nodup_toList).filter _
  rw [List.perm_ext_iff_of_nodup hnodup s.nodup_properSteps]
  exact fun a => h.mem_linearize hacyclic

/-! ## Values -/

/-- A variable of an asserted precondition has a value if the parameters of all earlier proper steps
have. -/
theorem Invariant.isSome_value?_of_earlier (h : s.Invariant S g) (hS : S.Ground)
    (hopen : s.openConditions = []) (ha : a ∈ s.steps)
    (hearlier : ∀ b ∈ s.properSteps, ⟨b, a⟩ ∈ s.precedences → ∀ p ∈ b.action.parameters,
      (s.bindings.value? b.scope p).isSome = true)
    {l : Literal} (hl : l ∈ a.action.preconditions) (hneg : l.negated = false) {p : String}
    (hp : p ∈ l.atom.vars) : (s.bindings.value? a.scope p).isSome = true := by
  rw [h.lifted a ha]
  rcases h.provided a ha _ (List.mem_map_of_mem hl) with hcondition | ⟨k, hk, rfl, hproposition⟩
  · rw [hopen] at hcondition
    cases hcondition
  · rcases h.supported k hk with hasserts | ⟨_, hdenied⟩
    · obtain ⟨e, he, hsame⟩ := (Instance.asserts_iff h.wellFormed).1 hasserts
      rw [hproposition] at he hsame
      have hsame : ∀ m : Assignment, m.Models s.bindings →
          m.atom (.lifted k.consumer.scope.id) l.atom = m.atom k.producer.scope e.atom :=
        fun m hm => (hsame m hm).symm
      have heffect := (Instance.mem_effectsOf.1 he).1
      have hlink := h.orderly _ (h.ordered k hk)
      -- The effect is a fact, or its variables are parameters of an earlier step.
      by_cases hstart : k.producer = s.start
      · rw [hstart, h.start_effects] at heffect
        obtain ⟨fact, hfact, rfl⟩ := List.mem_map.1 heffect
        have hground := hS fact (SortedSet.mem_toList.1 hfact)
        exact h.wellFormed.isSome_value?_of_isGround hground hsame hp
      · have hproper := mem_properSteps.2 ⟨hlink.first_mem, hstart, hlink.first_ne_finish⟩
        have hwell := h.wellFormed_action _ hlink.first_mem
        refine h.wellFormed.isSome_value?_of_atom_eq hsame (fun q hq => ?_) hp
        refine hearlier _ hproper (h.ordered k hk) q ?_
        exact hwell.mem_parameters e (List.mem_append_right _ heffect) q hq
    · rw [hproposition] at hdenied
      cases hneg.symm.trans (deniedInitially_eq_true_iff.1 hdenied).1

theorem Invariant.isSome_value?_of_rangeRestricted (h : s.Invariant S g) (hS : S.Ground)
    (hopen : s.openConditions = []) (hacyclic : s.isAcyclic = true)
    (hrestricted : ∀ a ∈ s.properSteps, a.action.RangeRestricted) :
    ∀ a ∈ s.properSteps, ∀ p ∈ a.action.parameters,
      (s.bindings.value? a.scope p).isSome = true := by
  have hdepth : ∀ n, ∀ a ∈ s.properSteps, s.depth a = n → ∀ p ∈ a.action.parameters,
      (s.bindings.value? a.scope p).isSome = true := by
    intro n
    induction n using Nat.strongRecOn with
    | ind n ih =>
      rintro a ha rfl p hp
      obtain ⟨l, hl, hneg, hpl⟩ := hrestricted a ha p hp
      refine h.isSome_value?_of_earlier hS hopen (mem_properSteps.1 ha).1 ?_ hl hneg hpl
      exact fun b hb hba => ih _ (h.ascends_depth hacyclic _ hba) b hb rfl
  exact fun a ha => hdepth _ a ha rfl

end Skeleton

end LiftedPlanning
