import LiftedPlanning.Action.Instance
import LiftedPlanning.Proofs.Bindings.Generic

/-!
# Values of variables

A variable has a value exactly if it stands for one and the same object in every model
(`Bindings.WellFormed.value?_eq_some_iff`). So a value is never lost when more becomes known
(`Bindings.WellFormed.value?_mono`), and variables that are equal in every model have values
together.
-/

namespace LiftedPlanning

namespace Bindings

variable {c d : Bindings} {s t : Scope} {x y o : String} {a b : Atom}

theorem WellFormed.value?_eq_some_iff (h : c.WellFormed) :
    c.value? s x = some o ↔ ∀ m : Assignment, m.Models c → m.term s (.var x) = o := by
  rw [value?, Denotation.object?_eq_some_iff, ← denote_const c s o, h.denote_eq_iff]
  rfl

theorem WellFormed.value?_mono (h : c.WellFormed) (hd : d.WellFormed)
    (hmodels : ∀ m : Assignment, m.Models d → m.Models c) (hx : c.value? s x = some o) :
    d.value? s x = some o :=
  hd.value?_eq_some_iff.2 fun m hm => h.value?_eq_some_iff.1 hx m (hmodels m hm)

theorem WellFormed.isSome_value?_mono (h : c.WellFormed) (hd : d.WellFormed)
    (hmodels : ∀ m : Assignment, m.Models d → m.Models c)
    (hx : (c.value? s x).isSome = true) : (d.value? s x).isSome = true := by
  obtain ⟨o, ho⟩ := Option.isSome_iff_exists.1 hx
  rw [h.value?_mono hd hmodels ho]
  rfl

theorem WellFormed.isSome_value?_of_atom_eq (h : c.WellFormed)
    (hatom : ∀ m : Assignment, m.Models c → m.atom s a = m.atom t b)
    (hb : ∀ y ∈ b.vars, (c.value? t y).isSome = true) (hx : x ∈ a.vars) :
    (c.value? s x).isSome = true := by
  obtain ⟨hsignature, hargs⟩ := codesignate_eq_true_iff.1 (h.codesignate_iff.2 hatom)
  obtain ⟨n, hn, hxn⟩ := List.mem_iff_getElem.1 (Atom.mem_vars.1 hx)
  have hlength : a.args.length = b.args.length := hsignature.2
  have hpair : (a.args[n], b.args[n]) ∈ a.args.zip b.args :=
    List.mem_iff_getElem.2 ⟨n, by simp [hn, ← hlength], by simp⟩
  have hdenote : c.denote s (.var x) = c.denote t b.args[n] := hxn ▸ hargs _ hpair
  have hmem : b.args[n] ∈ b.args := List.getElem_mem _
  rw [value?, hdenote]
  cases hterm : b.args[n] with
  | const o => rfl
  | var y => exact hb y (Atom.mem_vars.2 (hterm ▸ hmem))

theorem WellFormed.isSome_value?_of_isGround (h : c.WellFormed) (hb : b.isGround = true)
    (hatom : ∀ m : Assignment, m.Models c → m.atom s a = m.atom t b) (hx : x ∈ a.vars) :
    (c.value? s x).isSome = true := by
  refine h.isSome_value?_of_atom_eq hatom (fun y hy => ?_) hx
  have hvar := Atom.mem_vars.1 hy
  rw [Atom.isGround, Bool.not_eq_true', List.any_eq_false] at hb
  exact absurd rfl (hb _ hvar)

end Bindings

namespace Instance

variable {i : Instance} {c : Bindings} {p o : String}

/-- Grounding fixes the parameters that have values, and no other variables. -/
theorem value?_ground_eq_some_iff :
    (i.ground c).scope.value? p = some o ↔
      p ∈ i.action.parameters ∧ c.value? i.scope p = some o := by
  have hentry : ∀ o', (p, o') ∈ (i.action.parameters.filterMap fun q =>
      (c.value? i.scope q).map fun o => (q, o)) ↔
        p ∈ i.action.parameters ∧ c.value? i.scope p = some o' := by
    intro o'
    rw [List.mem_filterMap]
    constructor
    · rintro ⟨q, hq, hvalue⟩
      obtain ⟨_, ho, heq⟩ := Option.map_eq_some_iff.1 hvalue
      cases heq
      exact ⟨hq, ho⟩
    · rintro ⟨hp, ho⟩
      exact ⟨p, hp, by rw [ho]; rfl⟩
  constructor
  · intro h
    exact (hentry o).1 (SortedMap.mem_of_get?_ofList h)
  · intro h
    refine SortedMap.get?_ofList_eq_some ((hentry o).2 h) fun o' ho' => ?_
    exact Option.some.inj (((hentry o').1 ho').2.symm.trans h.2)

theorem isSome_value?_ground :
    ((i.ground c).scope.value? p).isSome = true ↔
      p ∈ i.action.parameters ∧ (c.value? i.scope p).isSome = true := by
  simp only [Option.isSome_iff_exists, value?_ground_eq_some_iff, exists_and_left]

theorem scope_value?_ground (hp : p ∈ i.action.parameters) :
    (i.ground c).scope.value? p = c.value? i.scope p :=
  Option.ext fun _ => value?_ground_eq_some_iff.trans (and_iff_right hp)

theorem isGround_ground_iff :
    (i.ground c).isGround = true ↔
      ∀ p ∈ i.action.parameters, (c.value? i.scope p).isSome = true := by
  rw [isGround, List.all_eq_true]
  exact forall₂_congr fun p hp => isSome_value?_ground.trans (and_iff_right hp)

end Instance

end LiftedPlanning
