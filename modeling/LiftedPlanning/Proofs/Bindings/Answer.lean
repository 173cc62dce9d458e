import LiftedPlanning.Proofs.Bindings.Settle

/-!
# Answers of a binding set

What `unify?`, `bind?`, `separate?` and `separationsOf` answer, in terms of models: the models of an
answer are the models of the binding set that satisfy the request. All answers of a well-formed
binding set are well formed.
-/

namespace LiftedPlanning

theorem Assignment.args_eq_iff (m : Assignment) {s t : Scope} {xs ys : List Term}
    (hlength : xs.length = ys.length) :
    xs.map (m.term s) = ys.map (m.term t) ↔ ∀ p ∈ xs.zip ys, m.term s p.1 = m.term t p.2 := by
  induction xs generalizing ys with
  | nil =>
    cases List.eq_nil_of_length_eq_zero hlength.symm
    simp
  | cons x xs ih =>
    cases ys with
    | nil => cases hlength
    | cons y ys =>
      rw [List.map_cons, List.map_cons, List.cons.injEq, ih (Nat.succ.inj hlength),
        List.zip_cons_cons, List.forall_mem_cons]

theorem Assignment.args_ne_iff (m : Assignment) {s t : Scope} {xs ys : List Term}
    (hlength : xs.length = ys.length) :
    xs.map (m.term s) ≠ ys.map (m.term t) ↔
      ∃ p ∈ xs.zip ys, m.term s p.1 ≠ m.term t p.2 := by
  rw [ne_eq, m.args_eq_iff hlength]
  simp only [Classical.not_forall, exists_prop]

namespace Bindings

variable {c c' : Bindings} {m : Assignment} {s t : Scope} {a b : Atom} {x y : Term}

/-! ## Making terms equal -/

theorem Forest.wellFormed_unify? (h : c.Forest) (hc : c.unify? s a t b = some c') :
    c'.WellFormed := by
  rw [Bindings.unify?] at hc
  split at hc
  · obtain ⟨d, hd, hc⟩ := Option.bind_eq_some_iff.1 hc
    exact (h.identifyArgs? hd).wellFormed_of_settle? hc
  · cases hc

/-- The models in which two atoms become the same. -/
theorem Forest.models_unify? (h : c.Forest) :
    (∃ c', c.unify? s a t b = some c' ∧ m.Models c') ↔
      m.Models c ∧ m.atom s a = m.atom t b := by
  by_cases hsignature : a.SameSignature b
  · have hargs := h.models_identifyArgs? (m := m) (s := s) (t := t) hsignature.2
    rw [Assignment.atom_eq_atom_iff, and_iff_right hsignature.1, ← hargs, Bindings.unify?,
      if_pos hsignature, models_bind_settle?]
  · rw [unify?_of_not_sameSignature hsignature]
    simp only [reduceCtorEq, false_and, exists_false, false_iff, not_and]
    intro _ heq
    exact hsignature (Atom.sameSignature_of_instantiate_eq heq)

theorem Forest.wellFormed_bind? (h : c.Forest) {v : ScopedVar} {object : String}
    (hc : c.bind? v object = some c') : c'.WellFormed := by
  obtain ⟨d, hd, hc⟩ := Option.bind_eq_some_iff.1 hc
  exact (h.identify? (h.renew_ofVar v) rfl hd).wellFormed_of_settle? hc

theorem Forest.models_bind? (h : c.Forest) {v : ScopedVar} {object : String} :
    (∃ c', c.bind? v object = some c' ∧ m.Models c') ↔ m.Models c ∧ m v = object := by
  have hvalue : (∃ d, c.identify? (c.ofVar v) (.object object) = some d ∧ m.Models d) ↔
      m.Models c ∧ m v = object := by
    rw [h.models_identify? (h.renew_ofVar v) rfl]
    refine and_congr_right fun hm => ?_
    rw [hm.object_ofVar]
    rfl
  rw [← hvalue, Bindings.bind?, models_bind_settle?]

/-! ## Keeping terms apart -/

def withSeparation (c : Bindings) (p : Separation) : Bindings :=
  { c with separations := c.separations.insert p }

theorem separate?_eq_some (hc : c.separate? s x t y = some c') :
    c.denote s x ≠ c.denote t y ∧
      (((c.denote s x).isObject && (c.denote t y).isObject) = true ∧ c' = c ∨
        ((c.denote s x).isObject && (c.denote t y).isObject) = false ∧
          c' = c.withSeparation (.of (c.denote s x) (c.denote t y))) := by
  rw [Bindings.separate?] at hc
  split at hc
  · cases hc
  · next hne =>
    refine ⟨hne, ?_⟩
    split at hc
    · next hobjects => exact .inl ⟨hobjects, (Option.some.inj hc).symm⟩
    · next hobjects => exact .inr ⟨Bool.eq_false_iff.2 hobjects, (Option.some.inj hc).symm⟩

theorem WellFormed.wellFormed_separate? (h : c.WellFormed) (hc : c.separate? s x t y = some c') :
    c'.WellFormed := by
  obtain ⟨hne, ⟨_, rfl⟩ | ⟨hopen, rfl⟩⟩ := separate?_eq_some hc
  · exact h
  · have hx := h.renew_denote s x
    have hy := h.renew_denote t y
    refine ⟨⟨h.lt_of_parent, h.parent_of_value⟩, ?_, ?_, ?_, ?_⟩
    · intro p hp
      rcases SortedSet.mem_insert.1 hp with rfl | hp
      · rcases Separation.of_eq_or (c.denote s x) (c.denote t y) with heq | heq
        · rw [heq]
          exact hx
        · rw [heq]
          exact hy
      · exact h.renew_lesser p hp
    · intro p hp
      rcases SortedSet.mem_insert.1 hp with rfl | hp
      · rcases Separation.of_eq_or (c.denote s x) (c.denote t y) with heq | heq
        · rw [heq]
          exact hy
        · rw [heq]
          exact hx
      · exact h.renew_greater p hp
    · intro p hp
      rcases SortedSet.mem_insert.1 hp with rfl | hp
      · exact Separation.lesser_lt_greater_of hne
      · exact h.lesser_lt_greater p hp
    · intro p hp
      rcases SortedSet.mem_insert.1 hp with rfl | hp
      · rcases Separation.of_eq_or (c.denote s x) (c.denote t y) with heq | heq
        · rw [heq]
          exact hopen
        · rw [heq, Bool.and_comm]
          exact hopen
      · exact h.isObject_eq_false p hp

theorem models_withSeparation {p : Separation} :
    m.Models (c.withSeparation p) ↔ m.Models c ∧ m.object p.lesser ≠ m.object p.greater := by
  constructor
  · intro h
    refine ⟨⟨h.parents, h.values, fun q hq => ?_⟩, ?_⟩
    · exact h.separations q (SortedSet.mem_insert.2 (.inr hq))
    · exact h.separations p (SortedSet.mem_insert.2 (.inl rfl))
  · rintro ⟨h, hp⟩
    refine ⟨h.parents, h.values, fun q hq => ?_⟩
    rcases SortedSet.mem_insert.1 hq with rfl | hq
    · exact hp
    · exact h.separations q hq

theorem models_separate? :
    (∃ c', c.separate? s x t y = some c' ∧ m.Models c') ↔
      m.Models c ∧ m.term s x ≠ m.term t y := by
  constructor
  · rintro ⟨c', hc, hm⟩
    obtain ⟨hne, ⟨hobjects, rfl⟩ | ⟨_, rfl⟩⟩ := separate?_eq_some hc
    · refine ⟨hm, ?_⟩
      rw [← hm.object_denote, ← hm.object_denote]
      cases hd : c'.denote s x with
      | unbound v => simp [hd, Denotation.isObject] at hobjects
      | object a =>
        cases he : c'.denote t y with
        | unbound v => simp [he, Denotation.isObject] at hobjects
        | object b =>
          rw [hd, he] at hne
          exact fun hab => hne (congrArg Denotation.object hab)
    · obtain ⟨hm, hdiffer⟩ := models_withSeparation.1 hm
      rw [Separation.object_of_ne_iff, hm.object_denote, hm.object_denote] at hdiffer
      exact ⟨hm, hdiffer⟩
  · rintro ⟨hm, hdiffer⟩
    have hne : c.denote s x ≠ c.denote t y := by
      intro heq
      rw [← hm.object_denote, heq, hm.object_denote] at hdiffer
      exact hdiffer rfl
    cases hc : c.separate? s x t y with
    | none => exact absurd (separate?_eq_none_iff.1 hc) hne
    | some c' =>
      refine ⟨c', rfl, ?_⟩
      obtain ⟨_, ⟨_, rfl⟩ | ⟨_, rfl⟩⟩ := separate?_eq_some hc
      · exact hm
      · rw [models_withSeparation, Separation.object_of_ne_iff, hm.object_denote,
          hm.object_denote]
        exact ⟨hm, hdiffer⟩

theorem mem_separationsOf :
    c' ∈ c.separationsOf s a t b ↔
      (c.unify? s a t b = none ∧ c' = c) ∨
        ((c.unify? s a t b).isSome = true ∧
          ∃ p ∈ a.args.zip b.args, c.separate? s p.1 t p.2 = some c') := by
  rw [separationsOf]
  split
  · next h =>
    have hne : c.unify? s a t b ≠ none := Option.isSome_iff_ne_none.1 h
    simp [h, hne, List.mem_eraseDups]
  · next h => simp [Option.not_isSome_iff_eq_none.1 h]

theorem WellFormed.wellFormed_of_mem_separationsOf (h : c.WellFormed)
    (hc : c' ∈ c.separationsOf s a t b) : c'.WellFormed := by
  rcases mem_separationsOf.1 hc with ⟨_, rfl⟩ | ⟨_, p, _, hp⟩
  · exact h
  · exact h.wellFormed_separate? hp

/-- The models in which two atoms stay different. -/
theorem Forest.models_separationsOf (h : c.Forest) :
    (∃ c', c' ∈ c.separationsOf s a t b ∧ m.Models c') ↔
      m.Models c ∧ m.atom s a ≠ m.atom t b := by
  constructor
  · rintro ⟨c', hc, hm⟩
    rcases mem_separationsOf.1 hc with ⟨hnone, rfl⟩ | ⟨hsome, p, hp, hc'⟩
    · refine ⟨hm, fun heq => ?_⟩
      obtain ⟨d, hd, _⟩ := h.models_unify?.2 ⟨hm, heq⟩
      rw [hnone] at hd
      cases hd
    · obtain ⟨hm, hdiffer⟩ := models_separate?.1 ⟨c', hc', hm⟩
      refine ⟨hm, fun heq => ?_⟩
      have hlength := (Atom.sameSignature_of_instantiate_eq heq).2
      exact (m.args_ne_iff hlength).2 ⟨p, hp, hdiffer⟩ (Assignment.atom_eq_atom_iff.1 heq).2
  · rintro ⟨hm, hdiffer⟩
    cases hunify : c.unify? s a t b with
    | none => exact ⟨c, mem_separationsOf.2 (.inl ⟨hunify, rfl⟩), hm⟩
    | some d =>
      have hsignature : a.SameSignature b := by
        by_cases hsignature : a.SameSignature b
        · exact hsignature
        · rw [unify?_of_not_sameSignature hsignature] at hunify
          cases hunify
      have hne : a.args.map (m.term s) ≠ b.args.map (m.term t) := fun heq =>
        hdiffer (Assignment.atom_eq_atom_iff.2 ⟨hsignature.1, heq⟩)
      -- Atoms of one signature differ in some argument.
      obtain ⟨p, hp, hpair⟩ := (m.args_ne_iff hsignature.2).1 hne
      obtain ⟨c', hc', hm⟩ := models_separate?.2 ⟨hm, hpair⟩
      refine ⟨c', mem_separationsOf.2 (.inr ⟨?_, p, hp, hc'⟩), hm⟩
      rw [hunify]
      rfl

end Bindings

end LiftedPlanning
