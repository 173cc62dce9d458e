import LiftedPlanning.Proofs.Bindings.Answer
import Mathlib.Tactic.ByContra

/-!
# Generic models

A well-formed binding set has models in which nothing is equal that does not have to be: the classes
without a value get fresh names, which differ from each other and from all names that are in use.
Therefore what holds in every model is known already. Two terms are equal in every model exactly if
they denote the same (`Bindings.WellFormed.denote_eq_iff`), and different in every model exactly if
they are separated (`Bindings.WellFormed.separated_iff`).
-/

namespace LiftedPlanning

/-! ## Fresh names -/

/-- A name of more than `n` characters, another one for each variable. -/
def ScopedVar.fresh (n : Nat) (v : ScopedVar) : String :=
  String.ofList (List.replicate (n + v.scope.toNat) 'x' ++ '?' :: v.name.toList)

theorem ScopedVar.fresh_injective {n : Nat} {v w : ScopedVar} (h : v.fresh n = w.fresh n) :
    v = w := by
  have hlists : ∀ (i j : Nat) (xs ys : List Char),
      List.replicate i 'x' ++ '?' :: xs = List.replicate j 'x' ++ '?' :: ys → i = j ∧ xs = ys := by
    intro i
    induction i with
    | zero =>
      intro j xs ys hij
      cases j with
      | zero => simpa using hij
      | succ j => simp [List.replicate_succ] at hij
    | succ i ih =>
      intro j xs ys hij
      cases j with
      | zero => simp [List.replicate_succ] at hij
      | succ j =>
        rw [List.replicate_succ, List.replicate_succ, List.cons_append, List.cons_append,
          List.cons.injEq] at hij
        obtain ⟨heq, hxs⟩ := ih j xs ys hij.2
        exact ⟨congrArg Nat.succ heq, hxs⟩
  obtain ⟨hscope, hname⟩ := hlists _ _ _ _ (String.ofList_injective h)
  cases v
  cases w
  cases ScopeId.toNat_injective (Nat.add_left_cancel hscope)
  cases String.toList_injective hname
  rfl

theorem ScopedVar.lt_length_fresh (n : Nat) (v : ScopedVar) : n < (v.fresh n).length := by
  rw [fresh, String.length_ofList, List.length_append, List.length_replicate, List.length_cons]
  omega

namespace Denotation

def length : Denotation → Nat
  | object name => name.length
  | unbound _ => 0

/-- The name of an object, or a fresh name. -/
def generic (n : Nat) : Denotation → String
  | object name => name
  | unbound v => v.fresh n

/-- Fresh names differ from each other and from short ones. -/
theorem generic_injective {n : Nat} {d e : Denotation} (hd : d.length ≤ n) (he : e.length ≤ n)
    (h : d.generic n = e.generic n) : d = e := by
  cases d with
  | object a =>
    cases e with
    | object b => exact congrArg object h
    | unbound w =>
      have := w.lt_length_fresh n
      have hlength : a.length = (w.fresh n).length := congrArg String.length h
      have : a.length ≤ n := hd
      omega
  | unbound v =>
    cases e with
    | object b =>
      have := v.lt_length_fresh n
      have hlength : (v.fresh n).length = b.length := congrArg String.length h
      have : b.length ≤ n := he
      omega
    | unbound w => exact congrArg unbound (ScopedVar.fresh_injective h)

theorem exists_length_le (ds : List Denotation) : ∃ n, ∀ d ∈ ds, d.length ≤ n :=
  ⟨(ds.map length).max?.getD 0, fun _ hd =>
    List.le_max?_getD_of_mem (List.mem_map.2 ⟨_, hd, rfl⟩)⟩

end Denotation

namespace Bindings

variable {c : Bindings} {d e : Denotation} {s t : Scope} {x y : Term} {a b : Atom}

/-! ## Models by what terms denote -/

def assignment (c : Bindings) (val : Denotation → String) : Assignment := fun v => val (c.ofVar v)

theorem object_assignment {val : Denotation → String} (hobject : ∀ name, val (.object name) = name)
    (d : Denotation) : (c.assignment val).object d = val (c.renew d) := by
  cases d with
  | object name => exact (hobject name).symm
  | unbound v => rfl

/-- The assignment is a model if it keeps separated denotations apart. -/
theorem WellFormed.models_assignment (h : c.WellFormed) {val : Denotation → String}
    (hobject : ∀ name, val (.object name) = name)
    (hseparate : ∀ p ∈ c.separations, val p.lesser ≠ val p.greater) :
    (c.assignment val).Models c := by
  refine ⟨?_, ?_, ?_⟩
  · intro v w hv
    exact congrArg val (h.ofVar_of_parent hv)
  · intro v name hv
    rw [assignment, h.ofVar_of_value hv, hobject]
  · intro p hp
    rw [object_assignment hobject, object_assignment hobject, h.renew_lesser p hp,
      h.renew_greater p hp]
    exact hseparate p hp

def separatedDenotations (c : Bindings) : List Denotation :=
  c.separations.toList.flatMap fun p => [p.lesser, p.greater]

theorem mem_separatedDenotations {p : Separation} (hp : p ∈ c.separations) :
    p.lesser ∈ c.separatedDenotations ∧ p.greater ∈ c.separatedDenotations :=
  ⟨List.mem_flatMap.2 ⟨p, hp, by simp⟩, List.mem_flatMap.2 ⟨p, hp, by simp⟩⟩

/-- Fresh names keep apart what is separated. -/
theorem WellFormed.models_generic (h : c.WellFormed) {n : Nat}
    (hn : ∀ d ∈ c.separatedDenotations, d.length ≤ n) :
    (c.assignment fun d => d.generic n).Models c := by
  refine h.models_assignment (fun _ => rfl) fun p hp heq => ?_
  obtain ⟨hlesser, hgreater⟩ := mem_separatedDenotations hp
  have heq : p.lesser = p.greater := Denotation.generic_injective (hn _ hlesser) (hn _ hgreater) heq
  exact h.lesser_ne_greater hp heq

/-- There is a model in which two denotations are equal only if they are the same. -/
theorem WellFormed.exists_models_ne (h : c.WellFormed) (hd : c.renew d = d) (he : c.renew e = e) :
    ∃ m : Assignment, m.Models c ∧ (m.object d = m.object e → d = e) := by
  obtain ⟨n, hn⟩ := Denotation.exists_length_le (d :: e :: c.separatedDenotations)
  refine ⟨_, h.models_generic (n := n) fun d hd => hn d (by simp [hd]), fun heq => ?_⟩
  rw [object_assignment fun _ => rfl, object_assignment fun _ => rfl, hd, he] at heq
  exact Denotation.generic_injective (hn d (by simp)) (hn e (by simp)) heq

/-- There is a model in which no class without a value stands for one of finitely many objects. -/
theorem WellFormed.exists_models_not_mem (h : c.WellFormed) (names : List String) :
    ∃ m : Assignment, m.Models c ∧
      ∀ s x v, c.denote s x = .unbound v → m.term s x ∉ names := by
  obtain ⟨n, hn⟩ := Denotation.exists_length_le (names.map .object ++ c.separatedDenotations)
  have hm := h.models_generic (n := n) fun d hd => hn d (by simp [hd])
  refine ⟨_, hm, fun s x v hx hmem => ?_⟩
  have hroot : c.renew (.unbound v) = .unbound v := hx ▸ h.renew_denote s x
  rw [← hm.object_denote, hx, object_assignment fun _ => rfl, hroot] at hmem
  have hshort : (v.fresh n).length ≤ n :=
    hn (.object (v.fresh n)) (List.mem_append_left _ (List.mem_map_of_mem hmem))
  exact Nat.not_le_of_lt (v.lt_length_fresh n) hshort

theorem WellFormed.exists_models (h : c.WellFormed) : ∃ m : Assignment, m.Models c := by
  obtain ⟨m, hm, _⟩ := h.exists_models_ne (d := .object "") (e := .object "") rfl rfl
  exact ⟨m, hm⟩

/-- There is a model in which a class without a value stands for the same as another denotation,
unless the two are separated. -/
theorem WellFormed.exists_models_unbound_eq (h : c.WellFormed) {v : ScopedVar}
    (hv : c.renew (.unbound v) = .unbound v) (he : c.renew e = e)
    (hfree : Separation.of (.unbound v) e ∉ c.separations) :
    ∃ m : Assignment, m.Models c ∧ m.object (.unbound v) = m.object e := by
  obtain ⟨n, hn⟩ := Denotation.exists_length_le (e :: c.separatedDenotations)
  -- The class gets the value of `e`, and every other class a name of its own.
  let val : Denotation → String := fun d =>
    if d = .unbound v then e.generic n else d.generic n
  have hobject : ∀ name, val (.object name) = name := by
    intro name
    simp [val, Denotation.generic]
  have hval : ∀ d, d ≠ .unbound v → val d = d.generic n := fun d hd => if_neg hd
  have hvalv : val (.unbound v) = e.generic n := if_pos rfl
  refine ⟨c.assignment val, h.models_assignment hobject ?_, ?_⟩
  · intro p hp heq
    obtain ⟨hlesser, hgreater⟩ := mem_separatedDenotations hp
    have hle₁ := hn p.lesser (by simp [hlesser])
    have hle₂ := hn p.greater (by simp [hgreater])
    have hself := h.lesser_ne_greater hp
    have hpof := Separation.of_lesser_greater (h.lesser_lt_greater p hp)
    by_cases hl : p.lesser = .unbound v
    · have hg : p.greater ≠ .unbound v := fun hg => hself (hl.trans hg.symm)
      rw [hl, hvalv, hval _ hg] at heq
      cases Denotation.generic_injective (hn e (by simp)) hle₂ heq
      rw [hl] at hpof
      exact hfree (hpof.symm ▸ hp)
    · by_cases hg : p.greater = .unbound v
      · rw [hg, hvalv, hval _ hl] at heq
        cases Denotation.generic_injective hle₁ (hn e (by simp)) heq
        rw [Separation.of_comm] at hfree
        rw [hg] at hpof
        exact hfree (hpof.symm ▸ hp)
      · rw [hval _ hl, hval _ hg] at heq
        have hsame := Denotation.generic_injective hle₁ hle₂ heq
        exact hself hsame
  · rw [object_assignment hobject, object_assignment hobject, hv, he, hvalv]
    by_cases hev : e = .unbound v
    · rw [hev, hvalv, hev]
    · rw [hval e hev]

/-! ## What holds in every model -/

/-- Terms that name the same object in every model denote the same. -/
theorem WellFormed.denote_eq_iff (h : c.WellFormed) :
    c.denote s x = c.denote t y ↔
      ∀ m : Assignment, m.Models c → m.term s x = m.term t y := by
  constructor
  · intro heq m hm
    rw [← hm.object_denote, heq, hm.object_denote]
  · intro hall
    obtain ⟨m, hm, hsame⟩ := h.exists_models_ne (h.renew_denote s x) (h.renew_denote t y)
    refine hsame ?_
    rw [hm.object_denote, hm.object_denote]
    exact hall m hm

theorem WellFormed.denote_eq_mono {c' : Bindings} (h : c.WellFormed) (h' : c'.WellFormed)
    (hmodels : ∀ m : Assignment, m.Models c' → m.Models c) (heq : c.denote s x = c.denote t y) :
    c'.denote s x = c'.denote t y :=
  h'.denote_eq_iff.2 fun m hm => h.denote_eq_iff.1 heq m (hmodels m hm)

theorem codesignate_eq_true_iff :
    c.codesignate s a t b = true ↔
      a.SameSignature b ∧ ∀ p ∈ a.args.zip b.args, c.denote s p.1 = c.denote t p.2 := by
  simp [codesignate]

/-- Atoms are known to be the same exactly if they are so in every model. -/
theorem WellFormed.codesignate_iff (h : c.WellFormed) :
    c.codesignate s a t b = true ↔
      ∀ m : Assignment, m.Models c → m.atom s a = m.atom t b := by
  rw [codesignate_eq_true_iff]
  constructor
  · rintro ⟨hsignature, hargs⟩ m hm
    refine Assignment.atom_eq_atom_iff.2 ⟨hsignature.1, ?_⟩
    refine (m.args_eq_iff hsignature.2).2 fun p hp => ?_
    exact h.denote_eq_iff.1 (hargs p hp) m hm
  · intro hall
    obtain ⟨m, hm⟩ := h.exists_models
    have hsignature := Atom.sameSignature_of_instantiate_eq (hall m hm)
    refine ⟨hsignature, fun p hp => h.denote_eq_iff.2 fun n hn => ?_⟩
    have hargs := (Assignment.atom_eq_atom_iff.1 (hall n hn)).2
    exact (n.args_eq_iff hsignature.2).1 hargs p hp

theorem WellFormed.separated_iff (h : c.WellFormed) :
    c.separated s x t y = true ↔
      ∀ m : Assignment, m.Models c → m.term s x ≠ m.term t y := by
  have hx := h.renew_denote s x
  have hy := h.renew_denote t y
  have hmodels : (∀ m : Assignment, m.Models c → m.term s x ≠ m.term t y) ↔
      ∀ m : Assignment, m.Models c → m.object (c.denote s x) ≠ m.object (c.denote t y) := by
    refine forall₂_congr fun m hm => ?_
    rw [hm.object_denote, hm.object_denote]
  rw [hmodels, separated]
  generalize c.denote s x = d at hx
  generalize c.denote t y = e at hy
  have hrecorded : Separation.of d e ∈ c.separations →
      ∀ m : Assignment, m.Models c → m.object d ≠ m.object e := fun hmem m hm =>
    Separation.object_of_ne_iff.1 (hm.separations _ hmem)
  -- Whether two objects differ is known; otherwise a free class could take the other value.
  cases d with
  | object a =>
    cases e with
    | object b =>
      simp only [ne_eq, decide_not, Bool.not_eq_true', decide_eq_false_iff_not, Assignment.object]
      obtain ⟨m, hm⟩ := h.exists_models
      exact ⟨fun hab _ _ => hab, fun hall => hall m hm⟩
    | unbound w =>
      simp only [decide_eq_true_eq]
      refine ⟨hrecorded, fun hall => ?_⟩
      by_contra hfree
      rw [Separation.of_comm] at hfree
      obtain ⟨m, hm, heq⟩ := h.exists_models_unbound_eq hy hx hfree
      exact hall m hm heq.symm
  | unbound v =>
    simp only [decide_eq_true_eq]
    refine ⟨hrecorded, fun hall => ?_⟩
    by_contra hfree
    obtain ⟨m, hm, heq⟩ := h.exists_models_unbound_eq hx hy hfree
    exact hall m hm heq

end Bindings

end LiftedPlanning
