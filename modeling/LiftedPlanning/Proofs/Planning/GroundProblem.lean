import LiftedPlanning.Proofs.Planning.BackwardCompleteness
import LiftedPlanning.Proofs.Planning.ReachableSkeleton
import LiftedPlanning.Proofs.Planning.RefinementCompleteness

/-!
# Ground problems

A problem is ground if neither its goal nor the literals of its actions have variables. Two ground
atoms can be unified only if they are the same, and then nothing new becomes known. So nothing is
left to choose when a subgoal is regressed or a precondition is linked, and backward planning and
planning by refinement find a plan whenever forward planning does
(`PlanningProblem.IsGround.backward_and_refinement`).
-/

namespace LiftedPlanning

/-! ## Ground literals -/

theorem Atom.vars_of_isGround {a : Atom} (h : a.isGround = true) : a.vars = [] := by
  refine List.eq_nil_iff_forall_not_mem.2 fun x hx => ?_
  cases Atom.isGround_iff.1 h _ (Atom.mem_vars.1 hx)

namespace Instance

variable {i : Instance} {l : ScopedLiteral} {c d : Bindings} {a : Atom}

theorem eq_atom_of_unify? (hwell : c.WellFormed) (ha : a.isGround = true)
    (hl : l.atom.isGround = true) (h : i.unify? a l c = some d) : a = l.atom := by
  obtain ⟨m, hm⟩ := (hwell.wellFormed_unify? h).exists_models
  have heq : m.atom i.scope a = (m.literal l).atom := ((models_unify? hwell).1 ⟨d, h, hm⟩).2
  calc
    a = m.atom i.scope a := (Atom.instantiate_of_isGround ha _).symm
    _ = (m.literal l).atom := heq
    _ = l.atom := Atom.instantiate_of_isGround hl _

theorem asserts_of_establishing? (hwell : c.WellFormed)
    (heffects : ∀ e ∈ i.action.effects, e.atom.isGround = true) (hl : l.atom.isGround = true)
    (h : (i.establishing? l c).isSome = true) : i.asserts l c = true := by
  obtain ⟨d, hd⟩ := Option.isSome_iff_exists.1 h
  obtain ⟨e, he, hunify⟩ := List.exists_of_findSome?_eq_some hd
  have hground := heffects e (mem_effectsOf.1 he).1
  refine (asserts_iff hwell).2 ⟨e, he, fun m _ => ?_⟩
  calc
    m.atom i.scope e.atom = e.atom := Atom.instantiate_of_isGround hground _
    _ = l.atom := eq_atom_of_unify? hwell hground hl hunify
    _ = (m.literal l).atom := (Atom.instantiate_of_isGround hl _).symm

end Instance

theorem Skeleton.decided_of_isGround {s : Skeleton} {o : OpenCondition}
    (hwell : s.bindings.WellFormed)
    (heffects : ∀ a ∈ s.steps, ∀ e ∈ a.action.effects, e.atom.isGround = true)
    (ho : o.proposition.atom.isGround = true) : s.Decided o := by
  refine ⟨fun a ha e he e' he' c c' hc hc' => ?_,
    fun _ => Option.isSome_iff_exists.2 ⟨o.proposition.atom, ?_⟩⟩
  · have heq := Instance.eq_atom_of_unify? hwell
      (heffects a ha e (Instance.mem_effectsOf.1 he).1) ho hc
    have heq' := Instance.eq_atom_of_unify? hwell
      (heffects a ha e' (Instance.mem_effectsOf.1 he').1) ho hc'
    rw [heq] at hc
    rw [heq'] at hc'
    exact Option.some.inj (hc.symm.trans hc')
  · exact hwell.ground?_eq_some_iff_atom_eq.2 fun m _ => Atom.instantiate_of_isGround ho _

namespace PlanningProblem

/-- No literal of an action or of the goal has a variable. -/
structure IsGround (p : PlanningProblem) : Prop where
  actions : ∀ a ∈ p.actions, ∀ l ∈ a.literals, l.atom.isGround = true
  goal : ∀ l ∈ p.goal.literals, l.atom.isGround = true

variable {p : PlanningProblem}

/-! ## Backward planning -/

section Backward

variable {t : Subgoal}

theorem IsGround.literals_of_reachable (h : p.IsGround) (ht : p.backward.Reachable t) :
    ∀ l ∈ t.literals, l.atom.isGround = true := by
  induction ht with
  | initial =>
    intro l hl
    obtain ⟨k, hk, rfl⟩ := List.mem_map.1 (SortedSet.mem_ofList.1 hl)
    exact h.goal k hk
  | @apply s r hs hoffered ih =>
    obtain ⟨⟨action, haction, hinst⟩, _⟩ :=
      Subgoal.supports_of_mem_regressions (wellFormed_of_reachable hs) hoffered
    intro l hl
    rcases Subgoal.mem_literals_regress hl with hl | ⟨hl, _⟩
    · rw [hinst] at hl
      obtain ⟨k, hk, rfl⟩ := List.mem_map.1 hl
      exact h.actions action haction k (List.mem_append_left _ hk)
    · exact ih l hl

theorem IsGround.unambiguous (h : p.IsGround) (ht : p.backward.Reachable t) :
    t.Unambiguous p.actions := by
  intro action haction target _ e _ c hc l hl hsome
  exact Instance.asserts_of_establishing? ((wellFormed_of_reachable ht).wellFormed_unify? hc)
    (fun e he => h.actions action haction e (List.mem_append_right _ he))
    (h.literals_of_reachable ht l hl) hsome

theorem IsGround.rangeRestricted (h : p.IsGround) (ht : p.backward.Reachable t) :
    t.RangeRestricted := by
  intro l hl _ x hx
  rw [Atom.vars_of_isGround (h.literals_of_reachable ht l hl)] at hx
  cases hx

end Backward

/-! ## Planning by refinement -/

theorem IsGround.literals_of_steps (h : p.IsGround) (hinitial : p.initial.Ground)
    {root s : Skeleton} {rs : List Refinement}
    (hroot : Skeleton.ofGoal p.initial p.goal = .ok root)
    (hpath : (p.refinement root).Path root rs s) :
    ∀ a ∈ s.steps, ∀ l ∈ a.action.literals, l.atom.isGround = true := by
  intro a ha l hl
  rcases (mem_steps_of_path hpath).1 ha with ha | ha
  · obtain ⟨first, last, _, _, hfirst, hfacts, hgoal, hlast, rfl⟩ := Skeleton.ofGoal_eq_ok hroot
    rcases List.mem_cons.1 (Skeleton.mem_steps_frame.1 ha) with rfl | ha
    · have hl : l ∈ first.preconditions ++ first.effects := hl
      rw [hfirst, hfacts, List.nil_append] at hl
      obtain ⟨fact, hfact, rfl⟩ := List.mem_map.1 hl
      exact hinitial fact (SortedSet.mem_toList.1 hfact)
    · cases List.mem_singleton.1 ha
      have hl : l ∈ last.preconditions ++ last.effects := hl
      rw [hgoal, hlast, List.append_nil] at hl
      exact h.goal l hl
  · exact h.actions _ (action_mem_of_added hpath a ha) l hl

theorem IsGround.decided (h : p.IsGround) (hinitial : p.initial.Ground) {root s : Skeleton}
    {rs : List Refinement} (hroot : Skeleton.ofGoal p.initial p.goal = .ok root)
    (hpath : (p.refinement root).Path root rs s) {o : OpenCondition}
    (ho : o ∈ s.openConditions) : s.Decided o := by
  have hs := (assembled_and_acyclic_of_reachable hroot (hpath.reachable .initial)).1
  have hliterals := h.literals_of_steps hinitial hroot hpath
  obtain ⟨hstep, hrequired⟩ := hs.required o ho
  obtain ⟨l, hl, hproposition⟩ := List.mem_map.1 hrequired
  refine Skeleton.decided_of_isGround hs.wellFormed
    (fun a ha e he => hliterals a ha e (List.mem_append_right _ he)) ?_
  rw [← hproposition]
  exact hliterals o.step hstep l (List.mem_append_left _ hl)

/-! ## Both -/

/-- If forward planning finds a plan for a ground problem, planning by refinement does not end
without one. Without rules and without an estimate, neither does backward planning, and a plan that
it finds is no longer. -/
theorem IsGround.backward_and_refinement (h : p.IsGround) (hinitial : p.initial.Ground)
    (hactions : ∀ a ∈ p.actions, a.WellFormed) {settings : SearchSettings}
    {cancelled : Nat → Bool} {fuel : Nat} {forth : Solution} {plan : Plan FinalState Instance Nat}
    (hforth : p.solve .forward settings cancelled fuel = some (.ok forth))
    (hsolved : forth.outcome = .solved plan) :
    (∀ settings cancelled fuel refined,
      p.solve .partialOrder settings cancelled fuel = some (.ok refined) →
        refined.outcome ≠ .unreachable) ∧
    (p.rules = [] → p.heuristic = .blind → ∀ settings cancelled fuel back,
      p.solve .backward settings cancelled fuel = some (.ok back) →
        back.outcome ≠ .unreachable ∧
          ∀ plan', back.outcome = .solved plan' →
            plan'.operators.length ≤ plan.operators.length) := by
  obtain ⟨T, _, hreplay, hrun⟩ := replay_planForward hinitial hactions hforth hsolved
  have hfinal := (Situation.replay_eq_ok_iff.1 hreplay).2
  refine ⟨fun _ _ _ refined hrefined => ?_, fun hrules hblind _ _ _ back hback => ?_⟩
  · refine ne_unreachable_of_run hinitial hactions hrun hfinal (fun root hroot => ?_) hrefined
    exact followable_of_decided hinitial hactions hroot fun rs s hpath o ho =>
      h.decided hinitial hroot hpath ho
  · have htraceable := traceable_of_unambiguous hactions .initial hrun fun rs s hpath =>
      h.unambiguous (hpath.reachable .initial)
    exact backward_of_run hinitial hactions hrules hblind hrun hfinal htraceable
      (fun rs s hpath _ _ _ => h.rangeRestricted (hpath.reachable .initial)) hback

end PlanningProblem

end LiftedPlanning
