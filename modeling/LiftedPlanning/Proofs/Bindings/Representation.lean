import Mathlib.Logic.Relation
import LiftedPlanning.Proofs.Bindings.StoredForm

/-!
# How classes are represented

What every binding set keeps that arises from requests, in terms of what is stored. Whoever follows
the pointers from a variable, for as long as there are any, comes to an end, since each of them
leads to a smaller variable, and the end is the root that `Bindings.root` finds in a bounded number
of steps (`Bindings.Forest.climbs_iff`). The root is the least of the variables that are linked to
each other by pointers (`Bindings.Forest.root_least`).

While the arguments of two atoms are made equal one after the other, nothing more than this can be
relied on, as the separations are read anew only at the end. It is enough: whatever a term denotes
is an object or a root without a value, also if its variable has been met before. Between requests
the separations are up to date as well (`Bindings.Reachable.root_least_and_settled`).
-/

namespace LiftedPlanning

namespace Bindings

variable {c : Bindings} {v w r : ScopedVar}

def Points (c : Bindings) (v w : ScopedVar) : Prop := c.parents.get? v = some w

/-- The variables are linked by pointers, whichever way these lead. -/
def SameClass (c : Bindings) : ScopedVar → ScopedVar → Prop := Relation.EqvGen c.Points

/-- Whoever follows pointers from a variable, for as long as there are any, ends at another one. -/
inductive Climbs (c : Bindings) : ScopedVar → ScopedVar → Prop
  | stop {v : ScopedVar} (last : c.parents.get? v = none) : Climbs c v v
  | step {v w r : ScopedVar} (points : c.Points v w) (rest : Climbs c w r) : Climbs c v r

/-! ## Roots -/

theorem Climbs.sameClass (h : c.Climbs v r) : c.SameClass v r := by
  induction h with
  | stop _ => exact .refl _
  | step hpoints _ ih => exact (Relation.EqvGen.rel _ _ hpoints).trans _ _ _ ih

theorem Forest.climbs_root (h : c.Forest) (v : ScopedVar) : c.Climbs v (c.root v) := by
  -- Each pointer leaves fewer pointers ahead.
  induction hn : (below c.parents v).length using Nat.strongRecOn generalizing v with
  | ind n ih =>
    cases hv : c.parents.get? v with
    | none =>
      rw [root_of_parent_eq_none hv]
      exact .stop hv
    | some w =>
      rw [h.root_of_parent hv]
      exact .step hv (ih _ (hn ▸ h.length_below_lt hv) w rfl)

theorem Forest.climbs_iff (h : c.Forest) : c.Climbs v r ↔ r = c.root v := by
  constructor
  · intro hclimbs
    induction hclimbs with
    | stop hlast => exact (root_of_parent_eq_none hlast).symm
    | step hpoints _ ih => rw [ih, h.root_of_parent hpoints]
  · rintro rfl
    exact h.climbs_root v

theorem Forest.sameClass_iff (h : c.Forest) : c.SameClass v w ↔ c.root v = c.root w := by
  constructor
  · intro hclass
    induction hclass with
    | rel v w hpoints => exact h.root_of_parent hpoints
    | refl v => rfl
    | symm v w _ ih => exact ih.symm
    | trans u v w _ _ ihuv ihvw => exact ihuv.trans ihvw
  · intro hroot
    have hw := (h.climbs_root w).sameClass
    rw [← hroot] at hw
    exact (h.climbs_root v).sameClass.trans _ _ _ (hw.symm _ _)

/-- The root is a member of the class, and the least one. -/
theorem Forest.root_least (h : c.Forest) (v : ScopedVar) :
    c.SameClass v (c.root v) ∧ ∀ w, c.SameClass v w → (compare (c.root v) w).isLE = true := by
  refine ⟨(h.climbs_root v).sameClass, fun w hw => ?_⟩
  rw [h.sameClass_iff.1 hw]
  exact h.follow_isLE _ w

theorem Forest.root_of_value (h : c.Forest) {a : String} (hv : c.values.get? v = some a) :
    c.root v = v :=
  root_of_parent_eq_none (h.parent_of_value v a hv)

/-! ## Between requests -/

/-- Whatever is asked of a binding set, starting with the one in which nothing is known: a pointer
leads to a smaller variable; climbing ends, in the middle of a request as well, at the root, which
is the least variable of the class; only roots have a value; and what is kept apart are two
different denotations, the smaller one first, which are up to date and not both objects. -/
theorem Reachable.root_least_and_settled (h : c.Reachable) :
    (∀ v w, c.Points v w → compare w v = .lt) ∧
    (∀ v r, c.Climbs v r ↔ r = c.root v) ∧
    (∀ v, c.SameClass v (c.root v) ∧
      ∀ w, c.SameClass v w → (compare (c.root v) w).isLE = true) ∧
    (∀ v a, c.values.get? v = some a → c.root v = v) ∧
    (∀ p ∈ c.separations, compare p.lesser p.greater = .lt ∧ p.lesser ≠ p.greater ∧
      c.renew p.lesser = p.lesser ∧ c.renew p.greater = p.greater ∧
      ∃ v, p.lesser = .unbound v ∨ p.greater = .unbound v) ∧
    ∀ s t xs ys d, identifyArgs? s t xs ys c = some d →
      (∀ v r, d.Climbs v r ↔ r = d.root v) ∧
      ∀ s' x, d.renew (d.denote s' x) = d.denote s' x := by
  have hwell := h.wellFormed
  refine ⟨hwell.lt_of_parent, fun v r => hwell.climbs_iff, hwell.root_least,
    fun v a => hwell.root_of_value, fun p hp => ?_, fun s t xs ys d hd => ?_⟩
  · refine ⟨hwell.lesser_lt_greater p hp, hwell.lesser_ne_greater hp, hwell.renew_lesser p hp,
      hwell.renew_greater p hp, ?_⟩
    have hopen := hwell.isObject_eq_false p hp
    cases hlesser : p.lesser with
    | unbound v => exact ⟨v, .inl rfl⟩
    | object a =>
      cases hgreater : p.greater with
      | unbound v => exact ⟨v, .inr rfl⟩
      | object b =>
        rw [hlesser, hgreater] at hopen
        cases hopen
  · have hforest := hwell.identifyArgs? hd
    exact ⟨fun v r => hforest.climbs_iff, hforest.renew_denote⟩

theorem Reachable.climbs_chained :
    let c := (Request.separate (.lifted ⟨3⟩) (.var "z") .facts (.const "B")).after
      ((Request.unify (.lifted ⟨2⟩) ⟨"p", [.var "y"]⟩ (.lifted ⟨1⟩) ⟨"p", [.var "x"]⟩).after
        ((Request.unify (.lifted ⟨2⟩) ⟨"p", [.var "y"]⟩ (.lifted ⟨3⟩) ⟨"p", [.var "z"]⟩).after
          .empty))
    c.Reachable ∧ c.Points ⟨⟨3⟩, "z"⟩ ⟨⟨2⟩, "y"⟩ ∧ c.Points ⟨⟨2⟩, "y"⟩ ⟨⟨1⟩, "x"⟩ ∧
      c.Climbs ⟨⟨3⟩, "z"⟩ ⟨⟨1⟩, "x"⟩ ∧
      (compare (⟨⟨1⟩, "x"⟩ : ScopedVar) ⟨⟨2⟩, "y"⟩).isLE = true ∧ c.separations.size = 1 ∧
      ∀ p ∈ c.separations, p.lesser ≠ p.greater := by
  intro c
  have hreachable : c.Reachable := ((Reachable.empty.after _).after _).after _
  obtain ⟨-, hclimbs, hleast, -, hseparations, -⟩ := hreachable.root_least_and_settled
  have hz : c.parents.get? ⟨⟨3⟩, "z"⟩ = some ⟨⟨2⟩, "y"⟩ := by decide
  have hy : c.parents.get? ⟨⟨2⟩, "y"⟩ = some ⟨⟨1⟩, "x"⟩ := by decide
  have hroot : c.root ⟨⟨3⟩, "z"⟩ = ⟨⟨1⟩, "x"⟩ := by decide
  refine ⟨hreachable, hz, hy, (hclimbs _ _).2 hroot.symm, ?_, by decide,
    fun p hp => (hseparations p hp).2.1⟩
  rw [← hroot]
  exact (hleast _).2 _ (.rel _ _ hz)

end Bindings

end LiftedPlanning
