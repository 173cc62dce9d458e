import LiftedPlanning.Proofs.Skeleton.Refinement

/-!
# Extensions of skeletons

Refinements only add to a skeleton: the frame stays, no step is dropped, and the bindings grow
narrower (`Skeleton.Extends`). A step that a refinement adds was none before, so that the proper
steps become more by as many as are added (`Skeleton.Assembled.perm_properSteps_refine`).
-/

namespace LiftedPlanning

namespace Refinement

def added : Refinement → List Instance
  | addStep step _ _ => [step]
  | link _ _ _ => []
  | order _ => []
  | separate _ _ _ => []

theorem length_added (r : Refinement) : r.added.length = r.newSteps := by
  cases r <;> rfl

end Refinement

namespace Skeleton

variable {S : Situation} {g : Goal} {s t u : Skeleton} {a : Instance} {r : Refinement}
  {actions : List Action}

/-- A skeleton keeps what another one contains. -/
structure Extends (t s : Skeleton) : Prop where
  start : t.start = s.start
  finish : t.finish = s.finish
  steps : ∀ a ∈ s.steps, a ∈ t.steps
  models : ∀ m : Assignment, m.Models t.bindings → m.Models s.bindings

theorem Extends.refl (s : Skeleton) : s.Extends s :=
  ⟨rfl, rfl, fun _ ha => ha, fun _ hm => hm⟩

theorem Extends.trans (h : u.Extends t) (h' : t.Extends s) : u.Extends s :=
  ⟨h.start.trans h'.start, h.finish.trans h'.finish, fun a ha => h.steps a (h'.steps a ha),
    fun m hm => h'.models m (h.models m hm)⟩

theorem start_refine (s : Skeleton) (r : Refinement) : (s.refine r).start = s.start := by
  cases r <;> rfl

theorem finish_refine (s : Skeleton) (r : Refinement) : (s.refine r).finish = s.finish := by
  cases r <;> rfl

theorem mem_steps_refine : a ∈ (s.refine r).steps ↔ a ∈ s.steps ∨ a ∈ r.added := by
  cases r with
  | addStep step o c =>
    rw [Refinement.added, List.mem_singleton, or_comm]
    exact SortedSet.mem_insert
  | link producer o c => simp [Refinement.added, refine, Skeleton.link]
  | order p => simp [Refinement.added, refine, Skeleton.order]
  | separate step k c => simp [Refinement.added, refine, rebind]

theorem mem_precedences_refine {p : Precedence} (hp : p ∈ s.precedences) (r : Refinement) :
    p ∈ (s.refine r).precedences := by
  have hlink : ∀ producer o c, p ∈ (s.link producer o c).precedences := fun producer o c => by
    rw [Skeleton.link]
    split
    · exact hp
    · exact SortedSet.mem_insert.2 (.inr hp)
  cases r with
  | link producer o c => exact hlink producer o c
  | addStep step o c =>
    exact SortedSet.mem_insert.2 (.inr (SortedSet.mem_insert.2 (.inr (hlink step o c))))
  | order _ => exact SortedSet.mem_insert.2 (.inr hp)
  | separate _ _ _ => exact hp

theorem Assembled.models_of_refine (h : s.Assembled S g) (hr : r ∈ s.refinements S actions)
    {m : Assignment} (hm : m.Models (s.refine r).bindings) : m.Models s.bindings := by
  cases offers_of_mem_refinements hr with
  | order _ _ _ => exact hm
  | @separate t c _ protects =>
    exact ((Instance.models_protecting h.wellFormed).1 ⟨c, protects, hm⟩).1
  | link _ _ _ supports => exact (h.supported_of_support? supports).2.1 m hm
  | @addStep o action e c _ _ _ unifies =>
    exact ((Instance.models_unify? h.wellFormed).1 ⟨c, unifies, hm⟩).1

theorem Assembled.extends_refine (h : s.Assembled S g) (hr : r ∈ s.refinements S actions) :
    (s.refine r).Extends s :=
  ⟨start_refine s r, finish_refine s r, fun _ ha => mem_steps_refine.2 (.inl ha),
    fun _ hm => h.models_of_refine hr hm⟩

/-- A step that is added uses one of the actions. -/
theorem action_mem_of_mem_added (hr : r ∈ s.refinements S actions) (ha : a ∈ r.added) :
    a.action ∈ actions := by
  cases offers_of_mem_refinements hr with
  | order _ _ _ => cases ha
  | separate _ _ => cases ha
  | link _ _ _ _ => cases ha
  | addStep _ available _ _ =>
    cases List.mem_singleton.1 ha
    exact available

theorem Assembled.not_mem_steps_of_mem_added (h : s.Assembled S g)
    (hr : r ∈ s.refinements S actions) (ha : a ∈ r.added) : a ∉ s.steps := by
  cases offers_of_mem_refinements hr with
  | order _ _ _ => cases ha
  | separate _ _ => cases ha
  | link _ _ _ _ => cases ha
  | addStep _ _ _ _ =>
    cases List.mem_singleton.1 ha
    exact fun hmem => h.ne_of_next rfl hmem rfl

theorem Assembled.perm_properSteps_refine (h : s.Assembled S g)
    (hr : r ∈ s.refinements S actions) :
    (s.refine r).properSteps.Perm (r.added ++ s.properSteps) := by
  have hnew : ∀ a ∈ r.added, a ∉ s.steps := fun a ha => h.not_mem_steps_of_mem_added hr ha
  have hnodup : (r.added ++ s.properSteps).Nodup := by
    refine List.nodup_append.2 ⟨?_, s.nodup_properSteps, ?_⟩
    · cases r <;> simp [Refinement.added]
    · rintro a ha _ hproper rfl
      exact hnew a ha (mem_properSteps.1 hproper).1
  rw [List.perm_ext_iff_of_nodup (s.refine r).nodup_properSteps hnodup]
  intro a
  rw [List.mem_append, mem_properSteps, mem_properSteps, mem_steps_refine, start_refine,
    finish_refine]
  constructor
  · rintro ⟨ha | ha, hproper⟩
    · exact .inr ⟨ha, hproper⟩
    · exact .inl ha
  · rintro (ha | ⟨ha, hproper⟩)
    · refine ⟨.inr ha, ?_, ?_⟩
      · rintro rfl
        exact hnew _ ha h.start_mem
      · rintro rfl
        exact hnew _ ha h.finish_mem
    · exact ⟨.inl ha, hproper⟩

end Skeleton

end LiftedPlanning
