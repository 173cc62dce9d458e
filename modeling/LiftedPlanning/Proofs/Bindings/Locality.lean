import LiftedPlanning.Proofs.Bindings.Generic

/-!
# Binding sets and the scopes they mention

Requests about terms of the first scopes are answered by binding sets that mention variables of
these scopes only (`Bindings.Within`). Whether an assignment is a model of such a binding set does
not depend on the variables of other scopes (`Bindings.Within.models`), so that these may be given
any values.
-/

namespace LiftedPlanning

namespace Assignment

variable {m m' : Assignment} {n : Nat} {s : Scope}

/-- Both assignments give the same values to the variables of the first scopes. -/
def Agrees (n : Nat) (m m' : Assignment) : Prop :=
  ∀ v : ScopedVar, v.scope.toNat < n → m' v = m v

theorem Agrees.inScope (h : Agrees n m m') (hs : s.id.toNat < n) : m'.inScope s = m.inScope s := by
  funext name
  rw [Assignment.inScope, Assignment.inScope, h ⟨s.id, name⟩ hs]

theorem Agrees.term (h : Agrees n m m') (hs : s.id.toNat < n) (x : Term) :
    m'.term s x = m.term s x := by
  rw [Assignment.term, Assignment.term, h.inScope hs]

def extend (m : Assignment) (id : ScopeId) (ν : String → String) : Assignment :=
  fun v => if v.scope = id then ν v.name else m v

theorem agrees_extend (m : Assignment) (id : ScopeId) (ν : String → String) :
    Agrees id.toNat m (m.extend id ν) := by
  intro v hv
  have hne : v.scope ≠ id := by
    rintro rfl
    exact Nat.lt_irrefl _ hv
  rw [extend, if_neg hne]

theorem inScope_extend (m : Assignment) (id : ScopeId) (ν : String → String) :
    (m.extend id ν).inScope (.lifted id) = ν := by
  funext name
  simp [inScope, extend]

theorem term_extend (m : Assignment) (id : ScopeId) (ν : String → String) (p : String) :
    (m.extend id ν).term (.lifted id) (.var p) = ν p := by
  simp [Assignment.term, Term.value, Assignment.inScope, extend]

end Assignment

namespace Denotation

def vars : Denotation → List ScopedVar
  | object _ => []
  | unbound v => [v]

def Within (n : Nat) (d : Denotation) : Prop := ∀ v ∈ d.vars, v.scope.toNat < n

theorem within_object (n : Nat) (name : String) : (object name).Within n := by simp [Within, vars]

theorem within_unbound {n : Nat} {v : ScopedVar} (hv : v.scope.toNat < n) :
    (unbound v).Within n := by simpa [Within, vars] using hv

theorem Within.scope_lt {n : Nat} {v : ScopedVar} (h : (unbound v).Within n) :
    v.scope.toNat < n :=
  h v (List.mem_singleton_self v)

end Denotation

namespace Bindings

def vars (c : Bindings) : List ScopedVar :=
  c.parents.toList.flatMap (fun e => [e.1, e.2]) ++ c.values.toList.map Prod.fst ++
    c.separations.toList.flatMap fun p => p.lesser.vars ++ p.greater.vars

/-- Only variables of the first scopes are mentioned. -/
structure Within (n : Nat) (c : Bindings) : Prop where
  parents : ∀ v w, c.parents.get? v = some w → v.scope.toNat < n ∧ w.scope.toNat < n
  values : ∀ v a, c.values.get? v = some a → v.scope.toNat < n
  separations : ∀ p ∈ c.separations, p.lesser.Within n ∧ p.greater.Within n

variable {c c' : Bindings} {n k : Nat} {s t : Scope} {a b : Atom} {x y : Term} {v w : ScopedVar}
  {d e : Denotation}

theorem within_iff : c.Within n ↔ ∀ v ∈ c.vars, v.scope.toNat < n := by
  simp only [vars, List.mem_append, List.mem_flatMap, List.mem_map, List.mem_cons,
    List.not_mem_nil, or_false]
  constructor
  · rintro h v ((⟨⟨u, w⟩, he, rfl | rfl⟩ | ⟨⟨u, o⟩, he, rfl⟩) | ⟨p, hp, hv | hv⟩)
    · exact (h.parents _ _ ((SortedMap.get?_eq_some_iff ..).2 he)).1
    · exact (h.parents _ _ ((SortedMap.get?_eq_some_iff ..).2 he)).2
    · exact h.values _ _ ((SortedMap.get?_eq_some_iff ..).2 he)
    · exact (h.separations p hp).1 v hv
    · exact (h.separations p hp).2 v hv
  · intro h
    refine ⟨fun v w hv => ?_, fun v o hv => ?_, fun p hp => ⟨fun v hv => ?_, fun v hv => ?_⟩⟩
    · have he := (SortedMap.get?_eq_some_iff ..).1 hv
      exact ⟨h v (.inl (.inl ⟨_, he, .inl rfl⟩)), h w (.inl (.inl ⟨_, he, .inr rfl⟩))⟩
    · exact h v (.inl (.inr ⟨_, (SortedMap.get?_eq_some_iff ..).1 hv, rfl⟩))
    · exact h v (.inr ⟨p, hp, .inl hv⟩)
    · exact h v (.inr ⟨p, hp, .inr hv⟩)

theorem within_empty (n : Nat) : empty.Within n :=
  within_iff.2 fun _ hv => absurd hv List.not_mem_nil

theorem Within.mono (h : c.Within n) (hk : n ≤ k) : c.Within k :=
  within_iff.2 fun v hv => Nat.lt_of_lt_of_le (within_iff.1 h v hv) hk

/-- The models depend on the variables of the first scopes only. -/
theorem Within.models (h : c.Within n) {m m' : Assignment} (hagrees : Assignment.Agrees n m m')
    (hm : m.Models c) : m'.Models c := by
  have hobject : ∀ d : Denotation, d.Within n → m'.object d = m.object d := by
    rintro (o | v) hd
    · rfl
    · exact hagrees v hd.scope_lt
  refine ⟨fun v w hv => ?_, fun v o hv => ?_, fun p hp => ?_⟩
  · obtain ⟨hvn, hwn⟩ := h.parents v w hv
    rw [hagrees v hvn, hagrees w hwn, hm.parents v w hv]
  · rw [hagrees v (h.values v o hv), hm.values v o hv]
  · obtain ⟨hlesser, hgreater⟩ := h.separations p hp
    rw [hobject _ hlesser, hobject _ hgreater]
    exact hm.separations p hp

/-! ## Denotations -/

theorem Within.follow (h : c.Within n) (hv : v.scope.toNat < n) (fuel : Nat) :
    (Bindings.follow c.parents fuel v).scope.toNat < n := by
  induction fuel generalizing v with
  | zero => exact hv
  | succ fuel ih =>
    cases hparent : c.parents.get? v with
    | none => rwa [follow_of_root hparent]
    | some w =>
      rw [follow_of_parent hparent]
      exact ih (h.parents v w hparent).2

theorem Within.ofVar (h : c.Within n) (hv : v.scope.toNat < n) : (c.ofVar v).Within n := by
  rw [Bindings.ofVar]
  split
  · exact Denotation.within_object n _
  · exact Denotation.within_unbound (h.follow hv _)

theorem Within.renew (h : c.Within n) (hd : d.Within n) : (c.renew d).Within n := by
  cases d with
  | object o => exact Denotation.within_object n o
  | unbound v => exact h.ofVar hd.scope_lt

theorem Within.denote (h : c.Within n) (hs : s.id.toNat < n) (x : Term) :
    (c.denote s x).Within n := by
  cases x with
  | const o => exact Denotation.within_object n o
  | var name =>
    rw [Bindings.denote]
    split
    · exact Denotation.within_object n _
    · exact h.ofVar hs

/-! ## Requests -/

theorem Within.insert_value (h : c.Within n) (hv : v.scope.toNat < n) (o : String) :
    Within n { c with values := c.values.insert v o } := by
  refine ⟨h.parents, fun u a hu => ?_, h.separations⟩
  change (c.values.insert v o).get? u = some a at hu
  rw [SortedMap.get?_insert] at hu
  split at hu
  · next heq => exact heq ▸ hv
  · exact h.values u a hu

theorem Within.insert_parent (h : c.Within n) (hv : v.scope.toNat < n) (hw : w.scope.toNat < n) :
    Within n { c with parents := c.parents.insert v w } := by
  refine ⟨fun u r hu => ?_, h.values, h.separations⟩
  change (c.parents.insert v w).get? u = some r at hu
  rw [SortedMap.get?_insert] at hu
  split at hu
  · next heq => exact ⟨heq ▸ hv, Option.some.inj hu ▸ hw⟩
  · exact h.parents u r hu

theorem Within.identify? (h : c.Within n) (hd : d.Within n) (he : e.Within n)
    (hc : c.identify? d e = some c') : c'.Within n := by
  cases d with
  | object o =>
    cases e with
    | object o' =>
      rw [Bindings.identify?] at hc
      split at hc
      · cases hc
        exact h
      · cases hc
    | unbound w =>
      cases hc
      exact h.insert_value he.scope_lt o
  | unbound v =>
    have hv := hd.scope_lt
    cases e with
    | object o =>
      cases hc
      exact h.insert_value hv o
    | unbound w =>
      have hw := he.scope_lt
      rw [Bindings.identify?] at hc
      split at hc
      · cases hc
        exact h.insert_parent hw hv
      · cases hc
        exact h
      · cases hc
        exact h.insert_parent hv hw

theorem Within.identifyArgs? (h : c.Within n) (hs : s.id.toNat < n) (ht : t.id.toNat < n)
    {xs ys : List Term} (hc : Bindings.identifyArgs? s t xs ys c = some c') : c'.Within n := by
  induction xs generalizing ys c with
  | nil =>
    cases hc
    exact h
  | cons x xs ih =>
    cases ys with
    | nil =>
      cases hc
      exact h
    | cons y ys =>
      rw [identifyArgs?_cons, Option.bind_eq_some_iff] at hc
      obtain ⟨b, hb, hc⟩ := hc
      exact ih (h.identify? (h.denote hs x) (h.denote ht y) hb) hc

theorem within_of {p : Separation} (hd : d.Within n) (he : e.Within n)
    (hp : p = .of d e) : p.lesser.Within n ∧ p.greater.Within n := by
  rcases Separation.of_eq_or d e with heq | heq
  · rw [hp, heq]
    exact ⟨hd, he⟩
  · rw [hp, heq]
    exact ⟨he, hd⟩

theorem Within.settle? (h : c.Within n) (hc : c.settle? = some c') : c'.Within n := by
  obtain ⟨_, rfl⟩ := settle?_eq_some_iff.1 hc
  refine ⟨h.parents, h.values, fun q hq => ?_⟩
  obtain ⟨p, hp, hq, _⟩ := mem_lasting.1 hq
  obtain ⟨hlesser, hgreater⟩ := h.separations p hp
  exact within_of (h.renew hlesser) (h.renew hgreater) hq

theorem Within.unify? (h : c.Within n) (hs : s.id.toNat < n) (ht : t.id.toNat < n)
    (hc : c.unify? s a t b = some c') : c'.Within n := by
  rw [Bindings.unify?] at hc
  split at hc
  · obtain ⟨d, hd, hc⟩ := Option.bind_eq_some_iff.1 hc
    exact (h.identifyArgs? hs ht hd).settle? hc
  · cases hc

theorem Within.separate? (h : c.Within n) (hs : s.id.toNat < n) (ht : t.id.toNat < n)
    (hc : c.separate? s x t y = some c') : c'.Within n := by
  simp only [Bindings.separate?] at hc
  split at hc
  · cases hc
  · split at hc
    · cases hc
      exact h
    · cases hc
      refine ⟨h.parents, h.values, fun q hq => ?_⟩
      rcases SortedSet.mem_insert.1 hq with hq | hq
      · exact within_of (h.denote hs x) (h.denote ht y) hq
      · exact h.separations q hq

theorem Within.of_mem_separationsOf (h : c.Within n) (hs : s.id.toNat < n) (ht : t.id.toNat < n)
    (hc : c' ∈ c.separationsOf s a t b) : c'.Within n := by
  rcases mem_separationsOf.1 hc with ⟨_, rfl⟩ | ⟨_, p, _, hp⟩
  · exact h
  · exact h.separate? hs ht hp

end Bindings

end LiftedPlanning
