import LiftedPlanning.Proofs.Bindings.Request

/-!
# The stored form of what is known

Well-formed binding sets with the same models read every term alike, since the root of a class is
its least variable (`Bindings.WellFormed.denote_congr`), keep the same denotations apart
(`Bindings.WellFormed.separations_congr`), and bind equally many variables
(`Bindings.WellFormed.size_congr`). They can differ in their pointers, and if they do not then they
are equal (`Bindings.WellFormed.eq_iff_parents_eq`).

The models after accepted requests do not depend on the order of the requests
(`Request.exists_answerAll?_of_perm`), and neither does, therefore, anything but the pointers.
Requests that make no variables equal set no pointers (`Request.parents_answerAll?`). Others keep
their pointers as they were inserted: a pointer may lead to the root by way of other variables, and
variables that have values when they are made equal are not joined by one. So a binding set can
depend on the order in which its variables were made equal (`Request.not_eq_of_perm`).
-/

namespace LiftedPlanning

namespace Bindings

variable {c d : Bindings} {v w r r' : ScopedVar} {s t : Scope} {x y : Term}

/-! ## Roots are least -/

theorem Forest.follow_isLE (h : c.Forest) (n : Nat) (v : ScopedVar) :
    (compare (follow c.parents n v) v).isLE = true := by
  induction n generalizing v with
  | zero =>
    rw [follow, Std.ReflOrd.compare_self]
    rfl
  | succ n ih =>
    cases hv : c.parents.get? v with
    | none =>
      rw [follow_of_root hv, Std.ReflOrd.compare_self]
      rfl
    | some w =>
      rw [follow_of_parent hv]
      exact Std.TransCmp.isLE_trans (ih w) (Ordering.isLE_of_eq_lt (h.lt_of_parent v w hv))

theorem Forest.isLE_of_ofVar (h : c.Forest) (hv : c.ofVar v = .unbound r) :
    (compare r v).isLE = true := by
  rw [ofVar] at hv
  split at hv
  · cases hv
  · cases hv
    exact h.follow_isLE _ v

/-! ## What is bound -/

theorem exists_denote_eq {e : Denotation} (he : c.renew e = e) : ∃ s x, c.denote s x = e := by
  cases e with
  | object name => exact ⟨.facts, .const name, rfl⟩
  | unbound v => exact ⟨.lifted v.scope, .var v.name, he⟩

theorem Forest.denote_root (h : c.Forest) (hx : c.denote s x = .unbound r) :
    c.denote (.lifted r.scope) (.var r.name) = .unbound r := by
  have hrenew := h.renew_denote s x
  rwa [hx] at hrenew

theorem separated_eq_true_iff
    (hopen : ((c.denote s x).isObject && (c.denote t y).isObject) = false) :
    c.separated s x t y = true ↔
      Separation.of (c.denote s x) (c.denote t y) ∈ c.separations := by
  rw [separated]
  generalize c.denote s x = e at hopen
  generalize c.denote t y = f at hopen
  cases e with
  | object a =>
    cases f with
    | object b => cases hopen
    | unbound w => exact decide_eq_true_iff
  | unbound v => exact decide_eq_true_iff

def boundVars (c : Bindings) : List ScopedVar :=
  c.parents.toList.map Prod.fst ++ c.values.toList.map Prod.fst

theorem length_boundVars (c : Bindings) : c.boundVars.length = c.size := by
  rw [boundVars, List.length_append, List.length_map, List.length_map]
  rfl

theorem mem_boundVars_iff : v ∈ c.boundVars ↔
    (∃ w, c.parents.get? v = some w) ∨ ∃ a, c.values.get? v = some a := by
  simp [boundVars, SortedMap.get?_eq_some_iff]

theorem Forest.nodup_boundVars (h : c.Forest) : c.boundVars.Nodup := by
  refine List.nodup_append.2 ⟨c.parents.nodup_keys, c.values.nodup_keys, ?_⟩
  rintro v hv _ hv' rfl
  obtain ⟨⟨_, w⟩, hw, rfl⟩ := List.mem_map.1 hv
  obtain ⟨⟨_, a⟩, ha, rfl⟩ := List.mem_map.1 hv'
  have hnone := h.parent_of_value _ a ((SortedMap.get?_eq_some_iff _ _ _).2 ha)
  rw [(SortedMap.get?_eq_some_iff _ _ _).2 hw] at hnone
  cases hnone

theorem Forest.mem_boundVars (h : c.Forest) : v ∈ c.boundVars ↔ c.ofVar v ≠ .unbound v := by
  rw [mem_boundVars_iff, ← Option.isSome_iff_exists, ← Option.isSome_iff_exists, ne_eq,
    show c.ofVar v = c.renew (.unbound v) from rfl, h.renew_unbound_iff,
    ← Option.not_isSome_iff_eq_none, ← Option.not_isSome_iff_eq_none]
  exact or_iff_not_and_not

theorem Forest.value_eq_some_iff (h : c.Forest) {a : String} :
    c.values.get? v = some a ↔ c.parents.get? v = none ∧ c.ofVar v = .object a := by
  constructor
  · intro hv
    exact ⟨h.parent_of_value v a hv, h.ofVar_of_value hv⟩
  · rintro ⟨hroot, hobject⟩
    rw [ofVar, root_of_parent_eq_none hroot] at hobject
    cases hv : c.values.get? v with
    | none =>
      rw [hv] at hobject
      cases hobject
    | some b =>
      rw [hv] at hobject
      cases hobject
      rfl

/-- Every pointer leads to the root that stands for its class. -/
def Compressed (c : Bindings) : Prop := ∀ v w, c.parents.get? v = some w → c.ofVar v = .unbound w

theorem Forest.parent_eq_some_iff (h : c.Forest) (hc : c.Compressed) :
    c.parents.get? v = some w ↔ c.ofVar v = .unbound w ∧ w ≠ v := by
  constructor
  · intro hv
    refine ⟨hc v w hv, ?_⟩
    rintro rfl
    have hlt := h.lt_of_parent w w hv
    rw [Std.ReflOrd.compare_self] at hlt
    cases hlt
  · rintro ⟨hw, hne⟩
    cases hv : c.parents.get? v with
    | none =>
      rw [ofVar, root_of_parent_eq_none hv] at hw
      split at hw
      · cases hw
      · cases hw
        exact absurd rfl hne
    | some w' =>
      rw [hc v w' hv] at hw
      cases hw
      rfl

/-! ## Binding sets with the same models -/

section Congr

variable (hc : c.WellFormed) (hd : d.WellFormed)
  (hmodels : ∀ m : Assignment, m.Models c ↔ m.Models d)

include hc hd hmodels

theorem WellFormed.denote_eq_congr :
    c.denote s x = c.denote t y ↔ d.denote s x = d.denote t y := by
  simp only [hc.denote_eq_iff, hd.denote_eq_iff, hmodels]

theorem WellFormed.isLE_of_denote_unbound (hx : c.denote s x = .unbound r)
    (hx' : d.denote s x = .unbound r') : (compare r' r).isLE = true := by
  -- The root here is in the class of the root there, which is least in it.
  have hsame := (hc.denote_eq_congr hd hmodels).1 (hx.trans (hc.denote_root hx).symm)
  exact hd.isLE_of_ofVar (hsame.symm.trans hx')

/-- Binding sets with the same models read every term alike. -/
theorem WellFormed.denote_congr (s : Scope) (x : Term) : c.denote s x = d.denote s x := by
  have hobject : ∀ name, c.denote s x = .object name ↔ d.denote s x = .object name := fun name =>
    hc.denote_eq_congr hd hmodels (t := s) (y := .const name)
  cases hx : c.denote s x with
  | object name => exact ((hobject name).1 hx).symm
  | unbound r =>
    cases hx' : d.denote s x with
    | object name =>
      rw [(hobject name).2 hx'] at hx
      cases hx
    | unbound r' =>
      have hle := hd.isLE_of_denote_unbound hc (fun m => (hmodels m).symm) hx' hx
      have hge := hc.isLE_of_denote_unbound hd hmodels hx hx'
      rw [Std.LawfulEqOrd.eq_of_compare (Std.OrientedCmp.isLE_antisymm hle hge)]

theorem WellFormed.ofVar_congr (v : ScopedVar) : c.ofVar v = d.ofVar v :=
  hc.denote_congr hd hmodels (.lifted v.scope) (.var v.name)

theorem WellFormed.separated_congr : c.separated s x t y = d.separated s x t y := by
  rw [Bool.eq_iff_iff, hc.separated_iff, hd.separated_iff]
  simp only [hmodels]

theorem WellFormed.mem_separations_of_mem {p : Separation} (hp : p ∈ c.separations) :
    p ∈ d.separations := by
  obtain ⟨s, x, hx⟩ := exists_denote_eq (hc.renew_lesser p hp)
  obtain ⟨t, y, hy⟩ := exists_denote_eq (hc.renew_greater p hp)
  have hopen := hc.isObject_eq_false p hp
  have hp' := Separation.of_lesser_greater (hc.lesser_lt_greater p hp)
  rw [← hx, ← hy] at hopen hp'
  have hseparated := (separated_eq_true_iff hopen).2 (hp'.symm ▸ hp)
  rw [hc.separated_congr hd hmodels] at hseparated
  rw [hc.denote_congr hd hmodels, hc.denote_congr hd hmodels t] at hopen hp'
  exact hp' ▸ (separated_eq_true_iff hopen).1 hseparated

theorem WellFormed.separations_congr : c.separations = d.separations :=
  SortedSet.ext fun _ => ⟨hc.mem_separations_of_mem hd hmodels,
    hd.mem_separations_of_mem hc fun m => (hmodels m).symm⟩

theorem WellFormed.size_congr : c.size = d.size := by
  rw [← length_boundVars, ← length_boundVars]
  refine List.Perm.length_eq ((List.perm_ext_iff_of_nodup hc.nodup_boundVars
    hd.nodup_boundVars).2 fun v => ?_)
  rw [hc.mem_boundVars, hd.mem_boundVars, hc.ofVar_congr hd hmodels]

/-- Binding sets with the same models are equal if their pointers are. -/
theorem WellFormed.eq_iff_parents_eq : c = d ↔ c.parents = d.parents := by
  refine ⟨congrArg parents, fun hparents => ?_⟩
  have hvalues : c.values = d.values := SortedMap.ext fun v => Option.ext fun a => by
    rw [hc.value_eq_some_iff, hd.value_eq_some_iff, hparents, hc.ofVar_congr hd hmodels]
  have hseparations := hc.separations_congr hd hmodels
  cases c
  cases d
  cases hparents
  cases hvalues
  cases hseparations
  rfl

theorem WellFormed.eq_of_compressed (hc' : c.Compressed) (hd' : d.Compressed) : c = d := by
  refine (hc.eq_iff_parents_eq hd hmodels).2 (SortedMap.ext fun v => Option.ext fun w => ?_)
  rw [hc.parent_eq_some_iff hc', hd.parent_eq_some_iff hd', hc.ofVar_congr hd hmodels]

end Congr

/-! ## Requests that make no variables equal -/

theorem isObject_denote_of_empty (h : (empty.denote s x).isObject = true) :
    (c.denote s x).isObject = true := by
  cases x with
  | const name => rfl
  | var name =>
    rw [denote] at h ⊢
    split
    · rfl
    · next hnone =>
      rw [hnone] at h
      cases h

theorem parents_identify? {e f : Denotation} (hobject : e.isObject = true ∨ f.isObject = true)
    (hd : c.identify? e f = some d) : d.parents = c.parents := by
  cases e with
  | object a =>
    cases f with
    | object b =>
      obtain ⟨-, hcd⟩ := Option.ite_none_right_eq_some.1 hd
      exact Option.some.inj hcd ▸ rfl
    | unbound w =>
      cases hd
      rfl
  | unbound v =>
    cases f with
    | object b =>
      cases hd
      rfl
    | unbound w => rcases hobject with h | h <;> cases h

theorem parents_identifyArgs? {xs ys : List Term}
    (hobject : ∀ p ∈ xs.zip ys,
      (empty.denote s p.1).isObject = true ∨ (empty.denote t p.2).isObject = true)
    (hd : identifyArgs? s t xs ys c = some d) : d.parents = c.parents := by
  induction xs generalizing ys c with
  | nil => exact Option.some.inj hd ▸ rfl
  | cons x xs ih =>
    cases ys with
    | nil => exact Option.some.inj hd ▸ rfl
    | cons y ys =>
      obtain ⟨e, he, hd⟩ := Option.bind_eq_some_iff.1 hd
      obtain ⟨hxy, hrest⟩ := List.forall_mem_cons.1 hobject
      rw [ih hrest hd, parents_identify?
        (hxy.imp isObject_denote_of_empty isObject_denote_of_empty) he]

theorem parents_settle? (hd : c.settle? = some d) : d.parents = c.parents := by
  rw [(settle?_eq_some_iff.1 hd).2]

end Bindings

namespace Request

variable {c d : Bindings} {r : Request} {rs rs' : List Request} {m : Assignment}

/-- Of two terms that the request makes equal, one names an object already. -/
def Assigns : Request → Prop
  | unify s a t b => ∀ p ∈ a.args.zip b.args,
      (Bindings.empty.denote s p.1).isObject = true ∨ (Bindings.empty.denote t p.2).isObject = true
  | bind .. => True
  | separate .. => True

instance : DecidablePred Assigns
  | unify .. => inferInstanceAs (Decidable (∀ _ ∈ _, _))
  | bind .. => inferInstanceAs (Decidable True)
  | separate .. => inferInstanceAs (Decidable True)

theorem parents_answer? (hr : r.Assigns) (hd : r.answer? c = some d) : d.parents = c.parents := by
  cases r with
  | unify s a t b =>
    obtain ⟨-, hd⟩ := Option.ite_none_right_eq_some.1 hd
    obtain ⟨e, he, hd⟩ := Option.bind_eq_some_iff.1 hd
    rw [Bindings.parents_settle? hd, Bindings.parents_identifyArgs? hr he]
  | bind v object =>
    obtain ⟨e, he, hd⟩ := Option.bind_eq_some_iff.1 hd
    rw [Bindings.parents_settle? hd, Bindings.parents_identify? (.inr rfl) he]
  | separate s x t y =>
    obtain ⟨-, ⟨-, rfl⟩ | ⟨-, rfl⟩⟩ := Bindings.separate?_eq_some hd
    · rfl
    · rfl

/-! ## Lists of requests -/

/-- The binding set after requests that are all accepted, in their order. -/
def answerAll? (rs : List Request) (c : Bindings) : Option Bindings := rs.foldlM answer? c

theorem answerAll?_cons (r : Request) (rs : List Request) (c : Bindings) :
    answerAll? (r :: rs) c = (r.answer? c).bind (answerAll? rs) := rfl

theorem wellFormed_answer? (h : c.WellFormed) (hd : r.answer? c = some d) : d.WellFormed :=
  after_of_eq_some hd ▸ wellFormed_after h r

theorem wellFormed_answerAll? (h : c.WellFormed) (hd : answerAll? rs c = some d) :
    d.WellFormed := by
  induction rs generalizing c with
  | nil => exact Option.some.inj hd ▸ h
  | cons r rs ih =>
    rw [answerAll?_cons] at hd
    obtain ⟨e, he, hd⟩ := Option.bind_eq_some_iff.1 hd
    exact ih (wellFormed_answer? h he) hd

/-- The models after a list of requests are those that satisfy all of them. -/
theorem models_answerAll? (h : c.WellFormed) :
    (∃ d, answerAll? rs c = some d ∧ m.Models d) ↔ m.Models c ∧ ∀ r ∈ rs, r.Holds m := by
  induction rs generalizing c with
  | nil => simp [answerAll?]
  | cons r rs ih =>
    rw [List.forall_mem_cons, ← and_assoc, ← models_answer? h]
    simp only [answerAll?_cons, Option.bind_eq_some_iff]
    constructor
    · rintro ⟨d, ⟨e, he, hd⟩, hm⟩
      obtain ⟨hme, hrs⟩ := (ih (wellFormed_answer? h he)).1 ⟨d, hd, hm⟩
      exact ⟨⟨e, he, hme⟩, hrs⟩
    · rintro ⟨⟨e, he, hme⟩, hrs⟩
      obtain ⟨d, hd, hm⟩ := (ih (wellFormed_answer? h he)).2 ⟨hme, hrs⟩
      exact ⟨d, ⟨e, he, hd⟩, hm⟩

theorem models_of_answerAll? (h : c.WellFormed) (hd : answerAll? rs c = some d)
    (hm : m.Models d) : m.Models c :=
  ((models_answerAll? h).1 ⟨d, hd, hm⟩).1

theorem models_iff_of_answerAll? (hd : answerAll? rs .empty = some d) :
    m.Models d ↔ ∀ r ∈ rs, r.Holds m := by
  rw [← and_iff_right (Assignment.models_empty m) (b := ∀ r ∈ rs, r.Holds m),
    ← models_answerAll? Bindings.wellFormed_empty, hd]
  simp

theorem parents_answerAll? (hrs : ∀ r ∈ rs, r.Assigns) (hd : answerAll? rs c = some d) :
    d.parents = c.parents := by
  induction rs generalizing c with
  | nil => exact Option.some.inj hd ▸ rfl
  | cons r rs ih =>
    rw [answerAll?_cons] at hd
    obtain ⟨e, he, hd⟩ := Option.bind_eq_some_iff.1 hd
    obtain ⟨hr, hrs⟩ := List.forall_mem_cons.1 hrs
    rw [ih hrs hd, parents_answer? hr he]

theorem exists_answerAll?_of_perm (hperm : rs.Perm rs') (hc : answerAll? rs .empty = some c) :
    ∃ d, answerAll? rs' .empty = some d ∧ ∀ m : Assignment, m.Models d ↔ m.Models c := by
  obtain ⟨m, hm⟩ := (wellFormed_answerAll? Bindings.wellFormed_empty hc).exists_models
  have hall : ∀ m : Assignment, (∀ r ∈ rs', r.Holds m) ↔ ∀ r ∈ rs, r.Holds m := fun m =>
    forall_congr' fun r => by rw [hperm.mem_iff]
  -- One model of the answer shows that no request is refused in the other order.
  obtain ⟨d, hd, -⟩ := (models_answerAll? Bindings.wellFormed_empty).2
    ⟨Assignment.models_empty m, (hall m).2 ((models_iff_of_answerAll? hc).1 hm)⟩
  refine ⟨d, hd, fun m => ?_⟩
  rw [models_iff_of_answerAll? hd, models_iff_of_answerAll? hc, hall]

/-- Requests that are accepted in one order are accepted in every order, with the same models,
denotations, separations and size; the binding sets are equal if the pointers are, as they are if
they all lead to roots, or if the requests give values and make no variables equal. -/
theorem denote_and_eq_iff_of_perm (hperm : rs.Perm rs') (hc : answerAll? rs .empty = some c) :
    ∃ d, answerAll? rs' .empty = some d ∧
      (∀ m : Assignment, m.Models d ↔ m.Models c) ∧
      (∀ s x, d.denote s x = c.denote s x) ∧ d.separations = c.separations ∧ d.size = c.size ∧
      (d = c ↔ d.parents = c.parents) ∧ (d.Compressed → c.Compressed → d = c) ∧
      ((∀ r ∈ rs, r.Assigns) → d = c) := by
  obtain ⟨d, hd, hmodels⟩ := exists_answerAll?_of_perm hperm hc
  have hcw := wellFormed_answerAll? Bindings.wellFormed_empty hc
  have hdw := wellFormed_answerAll? Bindings.wellFormed_empty hd
  refine ⟨d, hd, hmodels, hdw.denote_congr hcw hmodels, hdw.separations_congr hcw hmodels,
    hdw.size_congr hcw hmodels, hdw.eq_iff_parents_eq hcw hmodels,
    hdw.eq_of_compressed hcw hmodels, fun hrs => ?_⟩
  refine (hdw.eq_iff_parents_eq hcw hmodels).2 ?_
  rw [parents_answerAll? (fun r hr => hrs r (hperm.mem_iff.2 hr)) hd, parents_answerAll? hrs hc]

theorem answerAll?_reverse_stacking :
    let s : Scope := .lifted ⟨1⟩
    let t : Scope := .lifted ⟨2⟩
    let rs : List Request := [
      .unify s ⟨"on", [.var "x", .const "B"]⟩ t ⟨"on", [.const "A", .var "y"]⟩,
      .separate s (.var "x") t (.var "z"), .bind ⟨⟨2⟩, "w"⟩ "C"]
    ∃ c, answerAll? rs .empty = some c ∧ answerAll? rs.reverse .empty = some c := by
  intro s t rs
  have hsome : (answerAll? rs .empty).isSome = true := by decide
  obtain ⟨c, hc⟩ := Option.isSome_iff_exists.1 hsome
  obtain ⟨d, hd, -, -, -, -, -, -, heq⟩ :=
    denote_and_eq_iff_of_perm (List.reverse_perm rs).symm hc
  refine ⟨c, hc, ?_⟩
  rw [hd, heq (by decide)]

/-- Of the variables x, y and z, the third points to the first if y is made equal to x before z is
made equal to y, and to the second if it is the other way round. -/
theorem not_eq_of_perm :
    let first : Request := .unify (.lifted ⟨1⟩) ⟨"p", [.var "x"]⟩ (.lifted ⟨2⟩) ⟨"p", [.var "y"]⟩
    let second : Request := .unify (.lifted ⟨2⟩) ⟨"p", [.var "y"]⟩ (.lifted ⟨3⟩) ⟨"p", [.var "z"]⟩
    (answerAll? [first, second] .empty).isSome = true ∧
      (answerAll? [second, first] .empty).isSome = true ∧
      answerAll? [first, second] .empty ≠ answerAll? [second, first] .empty := by
  decide

end Request

end LiftedPlanning
