import LiftedPlanning.Bindings.Unify

/-!
# Classes of variables

The pointers of a binding set form a forest: each leads to a smaller variable, and only variables
without a pointer, the roots, have a value (`Bindings.Forest`). Every variable therefore has a root,
which `Bindings.root` finds, and renewing a denotation twice is the same as renewing it once.

A binding set between two requests is moreover settled: what it keeps apart is given by denotations
that are up to date, in their order, and not by two objects (`Bindings.WellFormed`).
-/

namespace LiftedPlanning

namespace Bindings

variable {c : Bindings} {v w : ScopedVar}

/-- Pointers lead to smaller variables, and only roots have a value. -/
structure Forest (c : Bindings) : Prop where
  lt_of_parent : ∀ v w, c.parents.get? v = some w → compare w v = .lt
  parent_of_value : ∀ v a, c.values.get? v = some a → c.parents.get? v = none

/-- The binding set is a forest, and its separations are up to date. -/
structure WellFormed (c : Bindings) : Prop extends Forest c where
  renew_lesser : ∀ p ∈ c.separations, c.renew p.lesser = p.lesser
  renew_greater : ∀ p ∈ c.separations, c.renew p.greater = p.greater
  lesser_lt_greater : ∀ p ∈ c.separations, compare p.lesser p.greater = .lt
  isObject_eq_false : ∀ p ∈ c.separations, (p.lesser.isObject && p.greater.isObject) = false

theorem WellFormed.lesser_ne_greater (h : c.WellFormed) {p : Separation}
    (hp : p ∈ c.separations) : p.lesser ≠ p.greater := by
  intro heq
  have hlt := h.lesser_lt_greater p hp
  rw [heq, Std.ReflOrd.compare_self] at hlt
  cases hlt

theorem wellFormed_empty : empty.WellFormed where
  lt_of_parent _ _ h := by cases h
  parent_of_value _ _ h := by cases h
  renew_lesser _ h := absurd h (SortedSet.not_mem_empty _)
  renew_greater _ h := absurd h (SortedSet.not_mem_empty _)
  lesser_lt_greater _ h := absurd h (SortedSet.not_mem_empty _)
  isObject_eq_false _ h := absurd h (SortedSet.not_mem_empty _)

/-! ## Roots -/

def below (parents : SortedMap ScopedVar ScopedVar) (v : ScopedVar) :
    List (ScopedVar × ScopedVar) :=
  parents.toList.filter fun e => (compare e.1 v).isLE

theorem length_below_le (parents : SortedMap ScopedVar ScopedVar) (v : ScopedVar) :
    (below parents v).length ≤ parents.size :=
  List.length_filter_le ..

/-- Following a pointer leaves fewer pointers to be followed. -/
theorem Forest.length_below_lt (h : c.Forest) (hv : c.parents.get? v = some w) :
    (below c.parents w).length < (below c.parents v).length := by
  have hlt := h.lt_of_parent v w hv
  have hsub : below c.parents w = (below c.parents v).filter fun e => (compare e.1 w).isLE := by
    rw [below, below, List.filter_filter]
    refine List.filter_congr fun e _ => ?_
    cases hle : (compare e.1 w).isLE with
    | false => rfl
    | true =>
      have : (compare e.1 v).isLE :=
        Std.TransCmp.isLE_trans hle (Ordering.isLE_of_eq_lt hlt)
      simp [this]
  rw [hsub]
  refine List.length_filter_lt_length_iff_exists.2 ⟨(v, w), ?_, ?_⟩
  · refine List.mem_filter.2 ⟨(SortedMap.get?_eq_some_iff _ _ _).1 hv, ?_⟩
    rw [Std.ReflOrd.compare_self]
    rfl
  · rw [Std.OrientedCmp.gt_iff_lt.2 hlt]
    simp

theorem follow_of_root {parents : SortedMap ScopedVar ScopedVar} (h : parents.get? v = none)
    (n : Nat) : follow parents n v = v := by
  cases n with
  | zero => rfl
  | succ n => rw [follow, h]

theorem follow_of_parent {parents : SortedMap ScopedVar ScopedVar} (h : parents.get? v = some w)
    (n : Nat) : follow parents (n + 1) v = follow parents n w := by
  rw [follow, h]

/-- With enough steps a root is reached, and more steps do not lead any further. -/
theorem Forest.follow_reaches (h : c.Forest) {n : Nat} (hn : (below c.parents v).length ≤ n) :
    c.parents.get? (follow c.parents n v) = none ∧
      follow c.parents (n + 1) v = follow c.parents n v := by
  induction n generalizing v with
  | zero =>
    cases hv : c.parents.get? v with
    | none => exact ⟨hv, follow_of_root hv 1⟩
    | some w =>
      have := h.length_below_lt hv
      omega
  | succ n ih =>
    cases hv : c.parents.get? v with
    | none =>
      rw [follow_of_root hv, follow_of_root hv]
      exact ⟨hv, rfl⟩
    | some w =>
      have := h.length_below_lt hv
      rw [follow_of_parent hv, follow_of_parent hv]
      exact ih (by omega)

theorem Forest.parent_root (h : c.Forest) (v : ScopedVar) : c.parents.get? (c.root v) = none :=
  (h.follow_reaches (length_below_le _ v)).1

theorem root_of_parent_eq_none (h : c.parents.get? v = none) : c.root v = v :=
  follow_of_root h _

theorem Forest.root_of_parent (h : c.Forest) (hv : c.parents.get? v = some w) :
    c.root v = c.root w := by
  have hlt := h.length_below_lt hv
  have hle := length_below_le c.parents v
  obtain ⟨n, hn⟩ : ∃ n, c.parents.size = n + 1 := ⟨c.parents.size - 1, by omega⟩
  have hw := (h.follow_reaches (v := w) (n := n) (by omega)).2
  rw [root, root, hn, follow_of_parent hv, hw]

theorem Forest.ofVar_of_parent (h : c.Forest) (hv : c.parents.get? v = some w) :
    c.ofVar v = c.ofVar w := by
  rw [ofVar, ofVar, h.root_of_parent hv]

theorem Forest.ofVar_of_value (h : c.Forest) {a : String} (hv : c.values.get? v = some a) :
    c.ofVar v = .object a := by
  rw [ofVar, root_of_parent_eq_none (h.parent_of_value v a hv), hv]

/-! ## Denotations that are up to date -/

theorem Forest.renew_unbound_iff (h : c.Forest) :
    c.renew (.unbound v) = .unbound v ↔
      c.parents.get? v = none ∧ c.values.get? v = none := by
  rw [renew, ofVar]
  constructor
  · intro heq
    split at heq
    · cases heq
    · next hvalue =>
      have hroot := Denotation.unbound.inj heq
      rw [hroot] at hvalue
      exact ⟨hroot ▸ h.parent_root v, hvalue⟩
  · rintro ⟨hparent, hvalue⟩
    rw [root_of_parent_eq_none hparent, hvalue]

theorem Forest.renew_ofVar (h : c.Forest) (v : ScopedVar) : c.renew (c.ofVar v) = c.ofVar v := by
  cases hv : c.values.get? (c.root v) with
  | some a => simp only [ofVar, hv, renew]
  | none =>
    have : c.ofVar v = .unbound (c.root v) := by simp only [ofVar, hv]
    rw [this]
    exact h.renew_unbound_iff.2 ⟨h.parent_root v, hv⟩

theorem Forest.renew_renew (h : c.Forest) (d : Denotation) : c.renew (c.renew d) = c.renew d := by
  cases d with
  | object a => rfl
  | unbound v => exact h.renew_ofVar v

theorem Forest.renew_denote (h : c.Forest) (s : Scope) (x : Term) :
    c.renew (c.denote s x) = c.denote s x := by
  cases x with
  | const a => rfl
  | var name =>
    rw [denote]
    split
    · rfl
    · exact h.renew_ofVar _

end Bindings

end LiftedPlanning
