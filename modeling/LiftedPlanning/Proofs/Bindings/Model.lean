import LiftedPlanning.Proofs.Bindings.Classes

/-!
# Models of binding sets

An assignment gives an object to every variable of every scope. It is a model of a binding set if it
equates each variable with the one to which it points, gives each root its recorded value, and keeps
apart what is separated.

Each request to a binding set is described by one equivalence: the answer has a given model exactly
if this is a model of the binding set that satisfies the request. As the answer is an option, the
equivalence also says that a refused request is satisfied by no model.
-/

namespace LiftedPlanning

def Term.value (ν : String → String) : Term → String
  | const name => name
  | var name => ν name

namespace Atom

/-- The ground atom in which the variables are replaced by the given objects. -/
def instantiate (ν : String → String) (a : Atom) : Atom :=
  ⟨a.name, a.args.map fun x => .const (x.value ν)⟩

theorem instantiate_eq_instantiate_iff {ν ξ : String → String} {a b : Atom} :
    a.instantiate ν = b.instantiate ξ ↔
      a.name = b.name ∧ a.args.map (Term.value ν) = b.args.map (Term.value ξ) := by
  have hconst : ∀ (ζ : String → String) (xs : List Term),
      (xs.map fun x => Term.const (x.value ζ)) = (xs.map (Term.value ζ)).map Term.const := by
    intro ζ xs
    rw [List.map_map]
    rfl
  rw [instantiate, instantiate, Atom.mk.injEq, hconst, hconst, List.map_inj_right]
  intro x y hxy
  exact Term.const.inj hxy

theorem sameSignature_of_instantiate_eq {ν ξ : String → String} {a b : Atom}
    (h : a.instantiate ν = b.instantiate ξ) : a.SameSignature b := by
  obtain ⟨hname, hargs⟩ := instantiate_eq_instantiate_iff.1 h
  refine ⟨hname, ?_⟩
  simpa [arity] using congrArg List.length hargs

end Atom

/-- An object for every variable of every scope. -/
abbrev Assignment := ScopedVar → String

namespace Assignment

variable {m : Assignment} {c d : Bindings} {v w : ScopedVar}

def inScope (m : Assignment) (s : Scope) : String → String :=
  fun name => (s.value? name).getD (m ⟨s.id, name⟩)

def object (m : Assignment) : Denotation → String
  | .object name => name
  | .unbound v => m v

def term (m : Assignment) (s : Scope) (x : Term) : String := x.value (m.inScope s)

def atom (m : Assignment) (s : Scope) (a : Atom) : Atom := a.instantiate (m.inScope s)

/-- The assignment satisfies all that a binding set records. -/
structure Models (m : Assignment) (c : Bindings) : Prop where
  parents : ∀ v w, c.parents.get? v = some w → m v = m w
  values : ∀ v a, c.values.get? v = some a → m v = a
  separations : ∀ p ∈ c.separations, m.object p.lesser ≠ m.object p.greater

theorem models_empty (m : Assignment) : m.Models .empty where
  parents _ _ h := by cases h
  values _ _ h := by cases h
  separations _ h := absurd h (SortedSet.not_mem_empty _)

theorem atom_eq_atom_iff {s t : Scope} {a b : Atom} :
    m.atom s a = m.atom t b ↔
      a.name = b.name ∧ a.args.map (m.term s) = b.args.map (m.term t) :=
  Atom.instantiate_eq_instantiate_iff

/-! ## Denotations in a model -/

theorem Models.follow (h : m.Models c) (n : Nat) (v : ScopedVar) :
    m (Bindings.follow c.parents n v) = m v := by
  induction n generalizing v with
  | zero => rfl
  | succ n ih =>
    cases hv : c.parents.get? v with
    | none => rw [Bindings.follow_of_root hv]
    | some w => rw [Bindings.follow_of_parent hv, ih, h.parents v w hv]

theorem Models.object_ofVar (h : m.Models c) (v : ScopedVar) : m.object (c.ofVar v) = m v := by
  rw [Bindings.ofVar]
  split
  · next a hvalue => rw [object, ← h.values _ a hvalue, Bindings.root, h.follow]
  · rw [object, Bindings.root, h.follow]

theorem Models.object_renew (h : m.Models c) (d : Denotation) :
    m.object (c.renew d) = m.object d := by
  cases d with
  | object a => rfl
  | unbound v => exact h.object_ofVar v

/-- In every model a term stands for what it denotes. -/
theorem Models.object_denote (h : m.Models c) (s : Scope) (x : Term) :
    m.object (c.denote s x) = m.term s x := by
  cases x with
  | const a => rfl
  | var name =>
    rw [Bindings.denote, term, Term.value, inScope]
    cases s.value? name with
    | some a => rfl
    | none => exact h.object_ofVar _

/-! ## Making terms equal -/

theorem models_insert_value {a : String} (hv : c.values.get? v = none) :
    m.Models { c with values := c.values.insert v a } ↔ m.Models c ∧ m v = a := by
  constructor
  · intro h
    refine ⟨⟨h.parents, ?_, h.separations⟩, ?_⟩
    · intro w b hw
      refine h.values w b ?_
      rw [SortedMap.get?_insert, if_neg ?_]
      · exact hw
      · rintro rfl
        rw [hv] at hw
        cases hw
    · exact h.values v a (SortedMap.get?_insert_self ..)
  · rintro ⟨h, rfl⟩
    refine ⟨h.parents, ?_, h.separations⟩
    intro w b hw
    rw [SortedMap.get?_insert] at hw
    split at hw
    · next heq => exact heq ▸ Option.some.inj hw
    · exact h.values w b hw

theorem models_insert_parent (hv : c.parents.get? v = none) :
    m.Models { c with parents := c.parents.insert v w } ↔ m.Models c ∧ m v = m w := by
  constructor
  · intro h
    refine ⟨⟨?_, h.values, h.separations⟩, ?_⟩
    · intro u r hu
      refine h.parents u r ?_
      rw [SortedMap.get?_insert, if_neg ?_]
      · exact hu
      · rintro rfl
        rw [hv] at hu
        cases hu
    · exact h.parents v w (SortedMap.get?_insert_self ..)
  · rintro ⟨h, hvw⟩
    refine ⟨?_, h.values, h.separations⟩
    intro u r hu
    rw [SortedMap.get?_insert] at hu
    split at hu
    · next heq => rw [heq, hvw, Option.some.inj hu]
    · exact h.parents u r hu

end Assignment

namespace Bindings

variable {c c' : Bindings} {d e : Denotation} {v w : ScopedVar} {m : Assignment}

theorem Forest.insert_value (h : c.Forest) (hv : c.parents.get? v = none) (a : String) :
    Forest { c with values := c.values.insert v a } := by
  refine ⟨h.lt_of_parent, ?_⟩
  intro w b hw
  rw [SortedMap.get?_insert] at hw
  split at hw
  · next heq => exact heq ▸ hv
  · exact h.parent_of_value w b hw

theorem Forest.insert_parent (h : c.Forest) (hv : c.values.get? v = none)
    (hlt : compare w v = .lt) : Forest { c with parents := c.parents.insert v w } := by
  refine ⟨?_, ?_⟩
  · intro u r hu
    rw [SortedMap.get?_insert] at hu
    split at hu
    · next heq => exact heq ▸ Option.some.inj hu ▸ hlt
    · exact h.lt_of_parent u r hu
  · intro u a hu
    change (c.parents.insert v w).get? u = none
    rw [SortedMap.get?_insert, if_neg ?_]
    · exact h.parent_of_value u a hu
    · rintro rfl
      rw [hv] at hu
      cases hu

theorem Forest.identify? (h : c.Forest) (hd : c.renew d = d) (he : c.renew e = e)
    (hc : c.identify? d e = some c') : c'.Forest := by
  cases d with
  | object a =>
    cases e with
    | object b =>
      rw [Bindings.identify?] at hc
      split at hc
      · cases hc
        exact h
      · cases hc
    | unbound w =>
      cases hc
      exact h.insert_value (h.renew_unbound_iff.1 he).1 a
  | unbound v =>
    obtain ⟨hv, hvalue⟩ := h.renew_unbound_iff.1 hd
    cases e with
    | object b =>
      cases hc
      exact h.insert_value hv b
    | unbound w =>
      rw [Bindings.identify?] at hc
      split at hc
      · next hlt =>
        cases hc
        exact h.insert_parent (h.renew_unbound_iff.1 he).2 hlt
      · cases hc
        exact h
      · next hgt =>
        cases hc
        exact h.insert_parent hvalue (Std.OrientedCmp.gt_iff_lt.1 hgt)

/-- Identifying two denotations adds that they stand for the same object. -/
theorem Forest.models_identify? (h : c.Forest) (hd : c.renew d = d) (he : c.renew e = e) :
    (∃ c', c.identify? d e = some c' ∧ m.Models c') ↔ m.Models c ∧ m.object d = m.object e := by
  cases d with
  | object a =>
    cases e with
    | object b =>
      rw [Bindings.identify?]
      by_cases hab : a = b
      · simp [hab]
      · simp [hab, Assignment.object]
    | unbound w =>
      simp only [Bindings.identify?, Option.some.injEq, exists_eq_left', Assignment.object]
      rw [Assignment.models_insert_value (h.renew_unbound_iff.1 he).2, eq_comm (a := a)]
  | unbound v =>
    obtain ⟨hv, hvalue⟩ := h.renew_unbound_iff.1 hd
    cases e with
    | object b =>
      simp only [Bindings.identify?, Option.some.injEq, exists_eq_left', Assignment.object]
      rw [Assignment.models_insert_value hvalue]
    | unbound w =>
      rw [Bindings.identify?]
      simp only [Assignment.object]
      split
      · simp only [Option.some.injEq, exists_eq_left']
        rw [Assignment.models_insert_parent (h.renew_unbound_iff.1 he).1, eq_comm (a := m w)]
      · next heq =>
        cases Std.LawfulEqOrd.eq_of_compare heq
        simp
      · simp only [Option.some.injEq, exists_eq_left']
        rw [Assignment.models_insert_parent hv]

theorem Forest.identifyArgs? (h : c.Forest) {s t : Scope} {xs ys : List Term}
    (hc : identifyArgs? s t xs ys c = some c') : c'.Forest := by
  induction xs generalizing ys c with
  | nil =>
    cases hc
    exact h
  | cons x xs ih =>
    cases ys with
    | nil =>
      cases hc
      exact h
    | cons y ys =>
      rw [identifyArgs?_cons, Option.bind_eq_some_iff] at hc
      obtain ⟨b, hb, hc⟩ := hc
      exact ih (h.identify? (h.renew_denote s x) (h.renew_denote t y) hb) hc

theorem Forest.models_identifyArgs? (h : c.Forest) {s t : Scope} {xs ys : List Term}
    (hlength : xs.length = ys.length) :
    (∃ c', Bindings.identifyArgs? s t xs ys c = some c' ∧ m.Models c') ↔
      m.Models c ∧ xs.map (m.term s) = ys.map (m.term t) := by
  induction xs generalizing ys c with
  | nil =>
    cases List.eq_nil_of_length_eq_zero hlength.symm
    simp [identifyArgs?_nil]
  | cons x xs ih =>
    cases ys with
    | nil => cases hlength
    | cons y ys =>
      have hx := h.renew_denote s x
      have hy := h.renew_denote t y
      -- The pair is read in the models of what was known before it.
      have hpair : (∃ b, c.identify? (c.denote s x) (c.denote t y) = some b ∧ m.Models b) ↔
          m.Models c ∧ m.term s x = m.term t y := by
        rw [h.models_identify? hx hy]
        refine and_congr_right fun hm => ?_
        rw [hm.object_denote, hm.object_denote]
      rw [List.map_cons, List.map_cons, List.cons.injEq, ← and_assoc, ← hpair]
      simp only [identifyArgs?_cons, Option.bind_eq_some_iff]
      constructor
      · rintro ⟨c', ⟨b, hb, hc'⟩, hm⟩
        obtain ⟨hmb, hargs⟩ := (ih (h.identify? hx hy hb) (Nat.succ.inj hlength)).1 ⟨c', hc', hm⟩
        exact ⟨⟨b, hb, hmb⟩, hargs⟩
      · rintro ⟨⟨b, hb, hmb⟩, hargs⟩
        obtain ⟨c', hc', hm⟩ :=
          (ih (h.identify? hx hy hb) (Nat.succ.inj hlength)).2 ⟨hmb, hargs⟩
        exact ⟨c', ⟨b, hb, hc'⟩, hm⟩

end Bindings

end LiftedPlanning
