import LiftedPlanning.Proofs.Bindings.Generic
import LiftedPlanning.Action.Interference

/-!
# Interference in models

A model of a binding set reads all literals of a plan as ground literals, so that it is settled
which of them the effects of an instance make true and which false. The tests of interference ask
about all models at once: `Instance.asserts` and `Instance.establishing?` look for an effect that
makes a literal true in all of them, `Instance.clobbers` for a model in which a literal is made
false, and `Instance.protecting` splits the models in which several literals are not.
-/

namespace LiftedPlanning

def Literal.instantiate (ν : String → String) (l : Literal) : Literal :=
  ⟨l.negated, l.atom.instantiate ν⟩

def Assignment.literal (m : Assignment) (l : ScopedLiteral) : Literal :=
  l.literal.instantiate (m.inScope l.scope)

namespace Assignment

variable {m n : Assignment} {l k : ScopedLiteral}

theorem negated_literal : (m.literal l).negated = l.negated := rfl

theorem literal_eq_literal_iff :
    m.literal l = n.literal k ↔
      l.negated = k.negated ∧ (m.literal l).atom = (n.literal k).atom := by
  rw [literal, literal, Literal.instantiate, Literal.instantiate, Literal.mk.injEq]
  rfl

end Assignment

namespace Instance

variable {i : Instance} {l : ScopedLiteral} {c d : Bindings} {m : Assignment} {e : Literal}

def Achieves (m : Assignment) (i : Instance) (l : ScopedLiteral) : Prop :=
  ∃ e ∈ i.effectsOf l.negated, m.atom i.scope e.atom = (m.literal l).atom

def Undoes (m : Assignment) (i : Instance) (l : ScopedLiteral) : Prop :=
  ∃ e ∈ i.effectsOf (!l.negated), m.atom i.scope e.atom = (m.literal l).atom

/-- An instance asserts what is, in all models, the same effect. -/
theorem asserts_iff (h : c.WellFormed) :
    i.asserts l c = true ↔ ∃ e ∈ i.effectsOf l.negated, ∀ m : Assignment, m.Models c →
      m.atom i.scope e.atom = (m.literal l).atom := by
  rw [asserts, List.any_eq_true]
  exact exists_congr fun e => and_congr_right fun _ => h.codesignate_iff

theorem models_unify? (h : c.WellFormed) {a : Atom} :
    (∃ d, i.unify? a l c = some d ∧ m.Models d) ↔
      m.Models c ∧ m.atom i.scope a = (m.literal l).atom :=
  h.models_unify?

theorem wellFormed_establishing? (h : c.WellFormed) (hd : i.establishing? l c = some d) :
    d.WellFormed := by
  obtain ⟨e, _, hunify⟩ := List.exists_of_findSome?_eq_some hd
  exact h.wellFormed_unify? hunify

/-- An instance establishes a literal by narrowing the models to those in which one of its effects
is the literal. -/
theorem models_establishing? (h : c.WellFormed) (hd : i.establishing? l c = some d) :
    ∃ e ∈ i.effectsOf l.negated, ∀ m : Assignment, m.Models d ↔
      m.Models c ∧ m.atom i.scope e.atom = (m.literal l).atom := by
  obtain ⟨e, he, hunify⟩ := List.exists_of_findSome?_eq_some hd
  refine ⟨e, he, fun m => ?_⟩
  rw [← models_unify? h, hunify]
  simp

theorem exists_effect_of_establishing? (h : c.WellFormed) (hd : i.establishing? l c = some d) :
    ∃ e ∈ i.effectsOf l.negated, ∀ m : Assignment, m.Models d →
      m.Models c ∧ m.atom i.scope e.atom = (m.literal l).atom := by
  obtain ⟨e, he, hmodels⟩ := models_establishing? h hd
  exact ⟨e, he, fun m => (hmodels m).1⟩

theorem isSome_establishing?_of_achieves (h : c.WellFormed) (hm : m.Models c)
    (hachieves : i.Achieves m l) : (i.establishing? l c).isSome = true := by
  obtain ⟨e, he, heq⟩ := hachieves
  obtain ⟨d, hd, _⟩ := (models_unify? h).2 ⟨hm, heq⟩
  exact List.findSome?_isSome_iff.2 ⟨e, he, by rw [hd]; rfl⟩

/-- An instance may undo a literal exactly if it does so in some model. -/
theorem undoes_eq_true_iff (h : c.WellFormed) {s : Scope} {k : Literal} :
    i.undoes s k c = true ↔ ∃ m : Assignment, m.Models c ∧
      ∃ e ∈ i.effectsOf (!k.negated), m.atom i.scope e.atom = m.atom s k.atom := by
  rw [undoes, List.any_eq_true]
  constructor
  · rintro ⟨e, he, hsome⟩
    obtain ⟨d, hd⟩ := Option.isSome_iff_exists.1 hsome
    obtain ⟨m, hm⟩ := (h.wellFormed_unify? hd).exists_models
    obtain ⟨hm, heq⟩ := h.models_unify?.1 ⟨d, hd, hm⟩
    exact ⟨m, hm, e, he, heq⟩
  · rintro ⟨m, hm, e, he, heq⟩
    obtain ⟨d, hd, -⟩ := h.models_unify?.2 ⟨hm, heq⟩
    refine ⟨e, he, ?_⟩
    rw [hd]
    rfl

theorem clobbers_eq_true_iff (h : c.WellFormed) :
    i.clobbers l c = true ↔ ∃ m : Assignment, m.Models c ∧ i.Undoes m l :=
  undoes_eq_true_iff h

theorem clobbers_eq_false_iff (h : c.WellFormed) :
    i.clobbers l c = false ↔ ∀ m : Assignment, m.Models c → ¬ i.Undoes m l := by
  rw [Bool.eq_false_iff, ne_eq, clobbers_eq_true_iff h]
  simp only [not_exists, not_and]

/-! ## Protection -/

theorem mem_separating {branches : List Bindings} {q : Literal × ScopedLiteral} :
    d ∈ i.separating branches q ↔
      ∃ c ∈ branches, d ∈ c.separationsOf i.scope q.1.atom q.2.scope q.2.atom := by
  rw [separating, Bindings.mem_collapse, List.mem_flatMap]

theorem wellFormed_of_mem_separating {branches : List Bindings} {q : Literal × ScopedLiteral}
    (h : ∀ c ∈ branches, c.WellFormed) (hd : d ∈ i.separating branches q) : d.WellFormed := by
  obtain ⟨c, hc, hd⟩ := mem_separating.1 hd
  exact (h c hc).wellFormed_of_mem_separationsOf hd

theorem forall_mem_foldl_separating {Q : Bindings → Prop} {qs : List (Literal × ScopedLiteral)}
    {branches : List Bindings} (h : ∀ c ∈ branches, Q c)
    (hkept : ∀ q ∈ qs, ∀ c, Q c →
      ∀ d ∈ c.separationsOf i.scope q.1.atom q.2.scope q.2.atom, Q d) :
    ∀ d ∈ qs.foldl i.separating branches, Q d := by
  induction qs generalizing branches with
  | nil => exact h
  | cons q qs ih =>
    obtain ⟨hq, hqs⟩ := List.forall_mem_cons.1 hkept
    refine ih (fun d hd => ?_) hqs
    obtain ⟨c, hc, hd⟩ := mem_separating.1 hd
    exact hq c (h c hc) d hd

/-- One conflict after the other is ruled out, and no model without a conflict is lost. -/
theorem models_foldl_separating {qs : List (Literal × ScopedLiteral)} {branches : List Bindings}
    (h : ∀ c ∈ branches, c.WellFormed) :
    (∃ d ∈ qs.foldl i.separating branches, m.Models d) ↔
      (∃ c ∈ branches, m.Models c) ∧
        ∀ q ∈ qs, m.atom i.scope q.1.atom ≠ (m.literal q.2).atom := by
  induction qs generalizing branches with
  | nil => simp
  | cons q qs ih =>
    have hwell : ∀ d ∈ i.separating branches q, d.WellFormed := fun _ hd =>
      wellFormed_of_mem_separating h hd
    have hstep : (∃ d ∈ i.separating branches q, m.Models d) ↔
        (∃ c ∈ branches, m.Models c) ∧ m.atom i.scope q.1.atom ≠ (m.literal q.2).atom := by
      simp only [mem_separating]
      constructor
      · rintro ⟨d, ⟨c, hc, hd⟩, hm⟩
        obtain ⟨hm, hne⟩ := (h c hc).models_separationsOf.1 ⟨d, hd, hm⟩
        exact ⟨⟨c, hc, hm⟩, hne⟩
      · rintro ⟨⟨c, hc, hm⟩, hne⟩
        obtain ⟨d, hd, hm⟩ := (h c hc).models_separationsOf.2 ⟨hm, hne⟩
        exact ⟨d, ⟨c, hc, hd⟩, hm⟩
    rw [List.foldl_cons, ih hwell, hstep, List.forall_mem_cons, and_assoc]

theorem forall_mem_conflicts {ls : List ScopedLiteral} :
    (∀ q ∈ i.conflicts ls, m.atom i.scope q.1.atom ≠ (m.literal q.2).atom) ↔
      ∀ l ∈ ls, ¬ i.Undoes m l := by
  simp only [conflicts, List.mem_flatMap, List.mem_map]
  constructor
  · rintro hall l hl ⟨e, he, heq⟩
    exact hall _ ⟨l, hl, e, he, rfl⟩ heq
  · rintro hall _ ⟨l, hl, e, he, rfl⟩ heq
    exact hall l hl ⟨e, he, heq⟩

theorem wellFormed_of_mem_protecting (h : c.WellFormed) {ls : List ScopedLiteral}
    (hd : d ∈ i.protecting ls c) : d.WellFormed :=
  forall_mem_foldl_separating (fun _ hb => List.mem_singleton.1 hb ▸ h)
    (fun _ _ _ hc _ hd => hc.wellFormed_of_mem_separationsOf hd) d hd

/-- The models in which the effects undo none of the literals. -/
theorem models_protecting (h : c.WellFormed) {ls : List ScopedLiteral} :
    (∃ d ∈ i.protecting ls c, m.Models d) ↔ m.Models c ∧ ∀ l ∈ ls, ¬ i.Undoes m l := by
  have hsingle : ∀ b ∈ [c], b.WellFormed := fun _ hb => List.mem_singleton.1 hb ▸ h
  rw [protecting, models_foldl_separating hsingle, forall_mem_conflicts]
  simp only [List.mem_singleton, exists_eq_left]

end Instance

end LiftedPlanning
