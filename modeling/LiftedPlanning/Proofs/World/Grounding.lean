import LiftedPlanning.Proofs.Bindings.Value
import LiftedPlanning.Proofs.World.Matching
import LiftedPlanning.Proofs.World.Reading
import LiftedPlanning.World.Grounding

/-!
# The instances that can be executed

The groundings of an action are ground, and all their preconditions are true
(`Situation.isGround_of_mem_groundings`, `Situation.applicable_of_mem_groundings`). Nothing is left
open because a parameter that no precondition binds ranges over the objects. All parameters have
objects of the situation as their values (`Situation.overObjects_of_mem_groundings`), and every use
of the action over these objects that is applicable is a grounding, but for its scope
(`Situation.exists_mem_groundings`). An instance whose scope fixes the parameters only is determined
by the scope's identity and the values (`Instance.SameUse.eq`), so that in a given scope the
groundings are all of these uses (`Situation.groundings_ascending_and_mem_iff`).
-/

namespace LiftedPlanning

theorem Instance.value?_ground_eq {m : Assignment} {c : Bindings} {i : Instance} {p : String}
    (hm : m.Models c) (hp : p ∈ i.action.parameters) (hvalue : (c.value? i.scope p).isSome = true) :
    (i.ground c).scope.value? p = some (m.term i.scope (.var p)) := by
  obtain ⟨o, ho⟩ := Option.isSome_iff_exists.1 (isSome_value?_ground.2 ⟨hp, hvalue⟩)
  rw [ho, value?_ground hm ho]

namespace Situation

variable {S : Situation} {c d : Bindings} {s : Scope} {i : Instance} {a : Action} {id : ScopeId}
  {m n : Assignment}

theorem term_eq_of_open {p : String} (hopen : ¬ (c.value? s p).isSome = true) :
    m.term s (.var p) = m ⟨s.id, p⟩ := by
  have hfixed : s.value? p = none := by
    cases hs : s.value? p with
    | none => rfl
    | some o => simp [Bindings.value?, Bindings.denote, hs, Denotation.object?] at hopen
  rw [Assignment.term, Term.value, Assignment.inScope, hfixed]
  rfl

theorem of_mem_closings {objects ps : List String} (h : c.WellFormed)
    (hd : d ∈ closings objects s ps c) :
    d.WellFormed ∧ (∀ m : Assignment, m.Models d → m.Models c) ∧
      ∀ p ∈ ps, (d.value? s p).isSome = true := by
  induction ps generalizing c with
  | nil =>
    rw [closings, List.mem_singleton] at hd
    simp [hd, h]
  | cons p ps ih =>
    rw [closings] at hd
    split at hd
    · next hvalue =>
      obtain ⟨hwell, hmodels, hps⟩ := ih h hd
      have hp := h.isSome_value?_mono hwell hmodels hvalue
      exact ⟨hwell, hmodels, List.forall_mem_cons.2 ⟨hp, hps⟩⟩
    · next hvalue =>
      obtain ⟨o, _, hd⟩ := List.mem_flatMap.1 hd
      split at hd
      · next c' hc' =>
        have hc : ∀ m : Assignment, m.Models c' → m.Models c ∧ m ⟨s.id, p⟩ = o := fun m hm =>
          h.models_bind?.1 ⟨c', hc', hm⟩
        obtain ⟨hwell, hmodels, hps⟩ := ih (h.wellFormed_bind? hc') hd
        have hp : d.value? s p = some o := by
          refine hwell.value?_eq_some_iff.2 fun m hm => ?_
          rw [term_eq_of_open hvalue]
          exact (hc m (hmodels m hm)).2
        exact ⟨hwell, fun m hm => (hc m (hmodels m hm)).1,
          List.forall_mem_cons.2 ⟨by simp [hp], hps⟩⟩
      · cases hd

/-- A model in which the variables of the list stand for given objects is the model of a closing. -/
theorem exists_mem_closings {objects ps : List String} (h : c.WellFormed) (hm : m.Models c)
    (hobjects : ∀ p ∈ ps, m.term s (.var p) ∈ objects) :
    ∃ d ∈ closings objects s ps c, m.Models d := by
  induction ps generalizing c with
  | nil => exact ⟨c, List.mem_singleton_self c, hm⟩
  | cons p ps ih =>
    obtain ⟨hp, hps⟩ := List.forall_mem_cons.1 hobjects
    rw [closings]
    split
    · exact ih h hm hps
    · next hopen =>
      rw [term_eq_of_open hopen] at hp
      obtain ⟨c', hc', hm⟩ := h.models_bind?.2 ⟨hm, rfl⟩
      obtain ⟨d, hd, hm⟩ := ih (h.wellFormed_bind? hc') hm hps
      refine ⟨d, List.mem_flatMap.2 ⟨_, hp, ?_⟩, hm⟩
      rwa [hc']

theorem models_of_mem_closings {objects ps : List String} (h : c.WellFormed)
    (hd : d ∈ closings objects s ps c) (hm : m.Models d) (hn : n.Models c)
    (hsame : ∀ v, m v ∈ objects → n v = m v) : n.Models d := by
  induction ps generalizing c with
  | nil =>
    rw [closings, List.mem_singleton] at hd
    exact hd ▸ hn
  | cons p ps ih =>
    rw [closings] at hd
    split at hd
    · exact ih h hd hn
    · obtain ⟨o, ho, hd⟩ := List.mem_flatMap.1 hd
      split at hd
      · next c' hc' =>
        have hwell := h.wellFormed_bind? hc'
        obtain ⟨_, hmodels, _⟩ := of_mem_closings hwell hd
        obtain ⟨_, hp⟩ := h.models_bind?.1 ⟨c', hc', hmodels m hm⟩
        have hp' : n ⟨s.id, p⟩ = o := by rw [hsame _ (hp ▸ ho), hp]
        obtain ⟨c'', hc'', hn⟩ := h.models_bind?.2 ⟨hn, hp'⟩
        cases hc'.symm.trans hc''
        exact ih hwell hd hn
      · cases hd

theorem of_mem_groundingBindings (hS : S.Ground) (hc : c ∈ S.groundingBindings i) :
    c.WellFormed ∧ (∀ p ∈ i.action.parameters, (c.value? i.scope p).isSome = true) ∧
      ∀ m : Assignment, m.Models c → ∀ l ∈ i.preconditions, S.holds (m.literal l) = true := by
  obtain ⟨hc, habsent⟩ := List.mem_filter.1 hc
  obtain ⟨d, hd, hc⟩ := List.mem_flatMap.1 hc
  have hempty := Bindings.wellFormed_empty
  obtain ⟨hwell, hmodels, hvalues⟩ := of_mem_closings (wellFormed_of_mem_matchings hempty hd) hc
  refine ⟨hwell, hvalues, fun m hm l hl => ?_⟩
  cases hneg : l.negated with
  | false =>
    obtain ⟨hmempty, hall⟩ := (models_matchings hS hempty).1 ⟨d, hd, hmodels m hm⟩
    refine hall m hmempty (fun _ _ _ => rfl) l ?_
    simp [hl, hneg]
  | true =>
    have hl : l ∈ i.preconditions.filter ScopedLiteral.negated := by simp [hl, hneg]
    have hfact := (absent_iff hS hwell).1 (List.all_eq_true.1 habsent l hl) m hm
    rw [holds_literal_iff, hneg]
    exact iff_of_false hfact Bool.noConfusion

theorem value?_mem_objects (hS : S.Ground) (hc : c ∈ S.groundingBindings i) {p o : String}
    (hscope : i.scope.value? p = none) (hp : c.value? i.scope p = some o) : o ∈ S.objects := by
  obtain ⟨hwell, _, _⟩ := of_mem_groundingBindings hS hc
  have hvalue := hwell.value?_eq_some_iff.1 hp
  obtain ⟨hc, _⟩ := List.mem_filter.1 hc
  obtain ⟨d, hd, hc⟩ := List.mem_flatMap.1 hc
  have hempty := Bindings.wellFormed_empty
  have hdwell := wellFormed_of_mem_matchings hempty hd
  obtain ⟨_, hmodels, _⟩ := of_mem_closings hdwell hc
  obtain ⟨m, hm⟩ := hwell.exists_models
  have hm' := hvalue m hm
  have hopen : ∀ k : Assignment, k.term i.scope (.var p) = k ⟨i.scope.id, p⟩ := fun k => by
    rw [Assignment.term, Term.value, Assignment.inScope, hscope]
    rfl
  by_contra ho
  -- Any other value would do as well for what is not an object of the situation.
  let n : Assignment := fun v => if m v ∈ S.objects then m v else o ++ "'"
  have hsame : ∀ v, m v ∈ S.objects → n v = m v := fun v hv => if_pos hv
  have hn : n.Models c := by
    refine models_of_mem_closings hdwell hc hm ?_ hsame
    exact models_of_mem_matchingsFrom hS hempty hd (hmodels m hm) (Assignment.models_empty n) hsame
  have hn' := hvalue n hn
  rw [hopen] at hm' hn'
  have hother : n ⟨i.scope.id, p⟩ = o ++ "'" := if_neg (hm'.symm ▸ ho)
  rw [hother] at hn'
  have hlength := congrArg String.length hn'
  simp at hlength

theorem action_of_mem_groundings (hi : i ∈ S.groundings a id) : i.action = a := by
  obtain ⟨c, _, rfl⟩ := mem_groundings.1 hi
  rfl

theorem isGround_of_mem_groundings (hS : S.Ground) (hi : i ∈ S.groundings a id) :
    i.isGround = true := by
  obtain ⟨c, hc, rfl⟩ := mem_groundings.1 hi
  exact Instance.isGround_ground_iff.2 (of_mem_groundingBindings hS hc).2.1

theorem applicable_of_mem_groundings (hS : S.Ground) (ha : a.WellFormed)
    (hi : i ∈ S.groundings a id) : S.applicable i = true := by
  have hground := isGround_of_mem_groundings hS hi
  obtain ⟨c, hc, rfl⟩ := mem_groundings.1 hi
  obtain ⟨hwell, _, hholds⟩ := of_mem_groundingBindings hS hc
  obtain ⟨m, hm⟩ := hwell.exists_models
  exact (applicable_ground_iff hm ha rfl hground).2 (hholds m hm)

def OverObjects (S : Situation) (i : Instance) : Prop :=
  ∀ p ∈ i.action.parameters, ∃ o ∈ S.objects, i.scope.value? p = some o

theorem OverObjects.isGround (h : S.OverObjects i) : i.isGround = true := by
  refine List.all_eq_true.2 fun p hp => ?_
  obtain ⟨o, _, ho⟩ := h p hp
  rw [ho]
  rfl

theorem overObjects_of_mem_groundings (hS : S.Ground) (hi : i ∈ S.groundings a id) :
    S.OverObjects i := by
  obtain ⟨c, hc, rfl⟩ := mem_groundings.1 hi
  obtain ⟨hwell, hvalues, _⟩ := of_mem_groundingBindings hS hc
  obtain ⟨m, hm⟩ := hwell.exists_models
  intro p hp
  obtain ⟨o, ho⟩ := Option.isSome_iff_exists.1 (hvalues p hp)
  have hground := Instance.value?_ground_eq (i := .lifted a id) hm hp (hvalues p hp)
  rw [hwell.value?_eq_some_iff.1 ho m hm] at hground
  exact ⟨o, value?_mem_objects hS hc rfl ho, hground⟩

/-- An assignment that makes the preconditions true, with parameters that stand for objects of the
situation, is the model of a grounding binding. -/
theorem exists_mem_groundingBindings (hS : S.Ground) (hlifted : i.scope = .lifted i.scope.id)
    (hwell : i.action.WellFormed)
    (hobjects : ∀ p ∈ i.action.parameters, m.term i.scope (.var p) ∈ S.objects)
    (hholds : ∀ l ∈ i.preconditions, S.holds (m.literal l) = true) :
    ∃ c ∈ S.groundingBindings i, m.Models c := by
  have hempty := Bindings.wellFormed_empty
  have hpositives : ∀ n : Assignment, n.Models .empty →
      (∀ l ∈ i.preconditions.filter fun l => !l.negated, l.negated = false →
        n.literal l = m.literal l) →
      ∀ l ∈ i.preconditions.filter fun l => !l.negated, S.holds (n.literal l) = true := by
    intro n _ hsame l hl
    obtain ⟨hmem, hneg⟩ := List.mem_filter.1 hl
    rw [hsame l hl (by simpa using hneg)]
    exact hholds l hmem
  obtain ⟨d, hd, hmd⟩ :=
    (models_matchings hS hempty).2 ⟨Assignment.models_empty m, hpositives⟩
  have hdwell := wellFormed_of_mem_matchings hempty hd
  obtain ⟨c, hc, hmc⟩ := exists_mem_closings hdwell hmd hobjects
  obtain ⟨hcwell, _, hfixed⟩ := of_mem_closings hdwell hc
  -- The closing fixes all parameters, so that its models agree about the denied preconditions.
  have hagree : ∀ n : Assignment, n.Models c →
      ∀ l ∈ i.preconditions, n.literal l = m.literal l := by
    intro n hn l hl
    obtain ⟨k, hk, rfl⟩ := List.mem_map.1 hl
    refine Assignment.literal_eq_literal_iff.2 ⟨rfl, Atom.instantiate_eq_iff_vars.2 ?_⟩
    intro x hx
    have hx := hwell.mem_parameters k (List.mem_append_left _ hk) x hx
    obtain ⟨o, ho⟩ := Option.isSome_iff_exists.1 (hfixed x hx)
    have hvalue := hcwell.value?_eq_some_iff.1 ho
    rw [hlifted] at hvalue
    exact (hvalue n hn).trans (hvalue m hmc).symm
  refine ⟨c, List.mem_filter.2 ⟨List.mem_flatMap.2 ⟨d, hd, hc⟩, ?_⟩, hmc⟩
  refine List.all_eq_true.2 fun l hl => (absent_iff hS hcwell).2 fun n hn hfact => ?_
  obtain ⟨hl, hneg⟩ := List.mem_filter.1 hl
  rw [hagree n hn l hl] at hfact
  have hasserted := (holds_literal_iff.1 (hholds l hl)).1 hfact
  rw [hneg] at hasserted
  cases hasserted

theorem exists_mem_groundings (hS : S.Ground) (hwell : i.action.WellFormed)
    (hobjects : S.OverObjects i) (happlicable : S.applicable i = true) (id : ScopeId) :
    ∃ i' ∈ S.groundings i.action id, i'.SameUse i := by
  let j := Instance.lifted i.action id
  let m := Assignment.extend default id i.values
  have hreads : m.Reads j i := Assignment.reads_extend _ id hobjects.isGround
  have hvalues : ∀ p ∈ i.action.parameters, m.term j.scope (.var p) ∈ S.objects := by
    intro p hp
    obtain ⟨o, ho, hvalue⟩ := hobjects p hp
    rw [hreads.values p hp] at hvalue
    exact Option.some.inj hvalue ▸ ho
  obtain ⟨c, hc, hm⟩ := exists_mem_groundingBindings (i := j) hS rfl hwell hvalues
    ((hreads.applicable_iff hwell rfl).1 happlicable)
  obtain ⟨_, hfixed, _⟩ := of_mem_groundingBindings hS hc
  refine ⟨j.ground c, mem_groundings.2 ⟨c, hc, rfl⟩, rfl, fun p hp => ?_⟩
  rw [hreads.values p hp]
  exact Instance.value?_ground_eq (i := j) hm hp (hfixed p hp)

end Situation

/-! ## All instances over the objects of a situation -/

namespace Instance

variable {i j : Instance} {c : Bindings}

def FixesParameters (i : Instance) : Prop :=
  ∀ x, x ∉ i.action.parameters → i.scope.value? x = none

theorem fixesParameters_ground : (i.ground c).FixesParameters := by
  intro x hx
  cases hvalue : (i.ground c).scope.value? x with
  | none => rfl
  | some o =>
    exact absurd (value?_ground_eq_some_iff.1 hvalue).1 hx

theorem SameUse.eq (h : i.SameUse j) (hid : i.scope.id = j.scope.id) (hi : i.FixesParameters)
    (hj : j.FixesParameters) : i = j := by
  obtain ⟨⟨_, fixed⟩, action⟩ := i
  obtain ⟨⟨id, fixed'⟩, action'⟩ := j
  obtain rfl : action = action' := h.action
  cases hid
  have hfixed : fixed = fixed' := by
    refine SortedMap.ext fun x => ?_
    by_cases hx : x ∈ action.parameters
    · exact h.values x hx
    · exact (hi x hx).trans (hj x hx).symm
  rw [hfixed]

end Instance

namespace Situation

variable {S : Situation} {a : Action}

/-- The groundings of an action are, in ascending order and each once, the instances in the given
scope that give the parameters, and no other variable, objects of the situation as their values and
are applicable there. -/
theorem groundings_ascending_and_mem_iff (hS : S.Ground) (ha : a.WellFormed) (id : ScopeId) :
    ((S.groundings a id).Pairwise fun i j => compare i j = .lt) ∧ (S.groundings a id).Nodup ∧
      ∀ i : Instance, i ∈ S.groundings a id ↔
        i.action = a ∧ i.scope.id = id ∧ i.FixesParameters ∧ S.OverObjects i ∧
          S.applicable i = true := by
  have hof : ∀ i ∈ S.groundings a id, i.scope.id = id ∧ i.FixesParameters := by
    intro i hi
    obtain ⟨c, _, rfl⟩ := mem_groundings.1 hi
    exact ⟨rfl, Instance.fixesParameters_ground⟩
  refine ⟨SortedSet.ascending _, SortedSet.nodup_toList _, fun i => ⟨fun hi => ?_, ?_⟩⟩
  · obtain ⟨hid, hfixes⟩ := hof i hi
    exact ⟨action_of_mem_groundings hi, hid, hfixes, overObjects_of_mem_groundings hS hi,
      applicable_of_mem_groundings hS ha hi⟩
  · rintro ⟨rfl, rfl, hfixes, hobjects, happlicable⟩
    obtain ⟨j, hj, huse⟩ := exists_mem_groundings hS ha hobjects happlicable i.scope.id
    obtain ⟨hid, hfixes'⟩ := hof j hj
    exact huse.eq hid hfixes' hfixes ▸ hj

def wave : Action :=
  ⟨"wave", ["x", "y"], [.pos ⟨"block", [.var "x"]⟩, .neg ⟨"holding", [.var "y"]⟩], []⟩

def waveWith (x y : String) : Instance := ⟨⟨⟨1⟩, .ofList [("x", x), ("y", y)]⟩, wave⟩

/-- The block that is waved comes from a precondition, and what is waved at is any object. -/
theorem mem_groundings_wave :
    let S := Situation.ofAtoms [⟨"block", [.const "A"]⟩, ⟨"holding", [.const "B"]⟩]
    S.Ground ∧ wave.WellFormed ∧ waveWith "A" "A" ∈ S.groundings wave ⟨1⟩ ∧
      waveWith "A" "B" ∉ S.groundings wave ⟨1⟩ := by
  intro S
  have hS : S.Ground := ground_ofAtoms _
  have hwave : wave.WellFormed := by decide
  obtain ⟨_, _, hmem⟩ := groundings_ascending_and_mem_iff hS hwave ⟨1⟩
  refine ⟨hS, hwave, (hmem _).2 ⟨rfl, rfl, ?_, ?_, by decide⟩, fun hwaving => ?_⟩
  · intro x hx
    cases hvalue : (waveWith "A" "A").scope.value? x with
    | none => rfl
    | some o =>
      rcases List.mem_pair.1 (SortedMap.mem_of_get?_ofList hvalue) with heq | heq
      · cases heq
        exact absurd (by decide) hx
      · cases heq
        exact absurd (by decide) hx
  · intro p hp
    rcases List.mem_pair.1 hp with rfl | rfl
    · exact ⟨"A", by decide, by decide⟩
    · exact ⟨"A", by decide, by decide⟩
  · obtain ⟨_, _, _, _, happlicable⟩ := (hmem _).1 hwaving
    revert happlicable
    decide

end Situation

end LiftedPlanning
