import LiftedPlanning.Proofs.Action.Interference
import LiftedPlanning.Proofs.Bindings.Value
import LiftedPlanning.World.Replay

/-!
# Executing grounded instances

A model of a binding set reads every literal of a plan as a ground literal, which a situation makes
true or false. Grounding an instance under the binding set gives its literals the reading of the
model, so that executing it can be described without its scope: `Situation.applicable_ground_iff`
says when it is applicable, and `Situation.holds_apply_ground` which literals hold afterwards.
-/

namespace LiftedPlanning

/-! ## Ground readings -/

namespace Atom

variable {ν : String → String} {a : Atom}

theorem isGround_iff : a.isGround = true ↔ ∀ x ∈ a.args, x.isVar = false := by
  simp [isGround]

theorem instantiate_of_isGround (h : a.isGround = true) (ν : String → String) :
    a.instantiate ν = a := by
  rw [isGround_iff] at h
  have hargs : (a.args.map fun x => Term.const (x.value ν)) = a.args.map id := by
    refine List.map_congr_left fun x hx => ?_
    cases x with
    | const name => rfl
    | var name => cases h _ hx
  rw [instantiate, hargs, List.map_id]

theorem objects_instantiate : (a.instantiate ν).objects = a.args.map (Term.value ν) := by
  rw [objects, instantiate, List.filterMap_map]
  exact congrFun (List.filterMap_eq_map (f := Term.value ν)) a.args

end Atom

namespace Bindings

variable {c : Bindings} {m : Assignment} {s : Scope} {a b : Atom}

theorem mapM_object?_eq_some_iff {ds : List Denotation} {names : List String} :
    ds.mapM Denotation.object? = some names ↔ ds = names.map Denotation.object := by
  induction ds generalizing names with
  | nil => cases names <;> simp
  | cons d ds ih =>
    cases names with
    | nil => simp [List.mapM_cons, Option.bind_eq_some_iff]
    | cons name names =>
      simp [List.mapM_cons, Option.bind_eq_some_iff, ih, Denotation.object?_eq_some_iff]

theorem ground?_eq_some_iff :
    c.ground? s a = some b ↔
      ∃ names : List String, a.args.map (c.denote s) = names.map Denotation.object ∧
        b = ⟨a.name, names.map Term.const⟩ := by
  have hmap : (a.args.mapM fun x => (c.denote s x).object?) =
      (a.args.map (c.denote s)).mapM Denotation.object? := by
    rw [List.mapM_map]
    rfl
  rw [ground?, hmap, Option.map_eq_some_iff]
  simp only [mapM_object?_eq_some_iff, eq_comm (a := b)]

theorem isGround_of_ground?_eq_some (h : c.ground? s a = some b) : b.isGround = true := by
  obtain ⟨names, _, rfl⟩ := ground?_eq_some_iff.1 h
  rw [Atom.isGround_iff]
  intro x hx
  obtain ⟨name, _, rfl⟩ := List.mem_map.1 hx
  rfl

theorem atom_eq_of_ground?_eq_some (hm : m.Models c) (h : c.ground? s a = some b) :
    m.atom s a = b := by
  obtain ⟨names, hargs, rfl⟩ := ground?_eq_some_iff.1 h
  have hnames : a.args.map (m.term s) = names := by
    have hobjects := congrArg (List.map m.object) hargs
    rw [List.map_map, List.map_map] at hobjects
    have hleft : m.object ∘ c.denote s = m.term s := funext (hm.object_denote s)
    have hright : m.object ∘ Denotation.object = id := rfl
    rwa [hleft, hright, List.map_id] at hobjects
  rw [← hnames, List.map_map]
  rfl

theorem ground?_eq_some_atom {t : Scope}
    (h : ∀ x ∈ a.args, c.denote t x = .object (m.term s x)) :
    c.ground? t a = some (m.atom s a) := by
  refine ground?_eq_some_iff.2 ⟨a.args.map (m.term s), ?_, ?_⟩
  · rw [List.map_map]
    exact List.map_congr_left h
  · rw [List.map_map]
    rfl

/-- An atom is ground if it stands for the same in every model. -/
theorem WellFormed.ground?_eq_some_iff_atom_eq (h : c.WellFormed) :
    c.ground? s a = some b ↔ ∀ m : Assignment, m.Models c → m.atom s a = b := by
  constructor
  · intro hb m hm
    exact atom_eq_of_ground?_eq_some hm hb
  · intro hall
    obtain ⟨m, hm⟩ := h.exists_models
    rw [← hall m hm]
    refine ground?_eq_some_atom fun x hx => ?_
    rw [← denote_const c s (m.term s x), h.denote_eq_iff]
    intro n hn
    have hatoms := (hall n hn).trans (hall m hm).symm
    exact List.map_inj_left.1 (Atom.instantiate_eq_instantiate_iff.1 hatoms).2 x hx

theorem WellFormed.ground?_mono {c' : Bindings} (h : c.WellFormed) (h' : c'.WellFormed)
    (hmodels : ∀ m : Assignment, m.Models c' → m.Models c) (ha : c.ground? s a = some b) :
    c'.ground? s a = some b :=
  h'.ground?_eq_some_iff_atom_eq.2 fun m hm =>
    h.ground?_eq_some_iff_atom_eq.1 ha m (hmodels m hm)

end Bindings

/-! ## Grounded instances -/

namespace Instance

variable {c : Bindings} {m : Assignment} {i : Instance} {l : Literal}

theorem value?_ground {p o : String} (hm : m.Models c)
    (h : (i.ground c).scope.value? p = some o) : o = m.term i.scope (.var p) := by
  obtain ⟨_, ho⟩ := value?_ground_eq_some_iff.1 h
  rw [← hm.object_denote, Denotation.object?_eq_some_iff.1 ho]
  rfl

/-- A scope that fixes the parameters of a schema at the values that they have in a model reads the
literals of the schema as the model does. -/
theorem ground?_eq_some_of_values {a : Action} {s t : Scope} (hwell : a.WellFormed)
    (hvalues : ∀ p ∈ a.parameters, t.value? p = some (m.term s (.var p))) (hl : l ∈ a.literals) :
    Bindings.empty.ground? t l.atom = some (m.atom s l.atom) := by
  refine Bindings.ground?_eq_some_atom fun x hx => ?_
  cases x with
  | const name => rfl
  | var name =>
    have hname := hwell.mem_parameters l hl name (Atom.mem_vars.2 hx)
    rw [Bindings.denote, hvalues name hname]

theorem ground?_ground (hm : m.Models c) (hwell : i.action.WellFormed)
    (hground : (i.ground c).isGround = true) (hl : l ∈ i.action.literals) :
    Bindings.empty.ground? (i.ground c).scope l.atom = some (m.atom i.scope l.atom) := by
  refine ground?_eq_some_of_values hwell (fun p hp => ?_) hl
  obtain ⟨o, ho⟩ := Option.isSome_iff_exists.1 (List.all_eq_true.1 hground p hp)
  rw [ho, value?_ground hm ho]

theorem mem_literals_of_mem_preconditions {a : Action} (h : l ∈ a.preconditions) :
    l ∈ a.literals :=
  List.mem_append_left _ h

theorem mem_literals_of_mem_effectsOf {negated : Bool} (h : l ∈ i.effectsOf negated) :
    l ∈ i.action.literals :=
  List.mem_append_right _ (mem_effectsOf.1 h).1

end Instance

namespace Situation

variable {c : Bindings} {m : Assignment} {i : Instance} {S : Situation} {l : ScopedLiteral}

theorem holds_literal_iff :
    S.holds (m.literal l) = true ↔ ((m.literal l).atom ∈ S.facts ↔ l.negated = false) := by
  rw [holds, Assignment.negated_literal]
  cases l.negated <;> simp

theorem Ground.apply (h : S.Ground) (i : Instance) : (S.apply i).Ground := by
  intro a ha
  rcases mem_facts_apply.1 ha with ⟨ha, _⟩ | ha
  · exact h a ha
  · obtain ⟨_, _, hground⟩ := List.mem_filterMap.1 ha
    exact Bindings.isGround_of_ground?_eq_some hground

/-- A grounded instance is applicable if its preconditions are true in a model. -/
theorem applicable_ground_iff (hm : m.Models c) (hwell : i.action.WellFormed)
    (hlifted : i.scope = .lifted i.scope.id) (hground : (i.ground c).isGround = true) :
    S.applicable (i.ground c) = true ↔ ∀ l ∈ i.preconditions, S.holds (m.literal l) = true := by
  rw [applicable, List.all_eq_true, Instance.preconditions, List.forall_mem_map]
  refine forall_congr' fun l => imp_congr_right fun hl => ?_
  rw [Instance.ground?_ground hm hwell hground (Instance.mem_literals_of_mem_preconditions hl),
    hlifted]
  rfl

theorem mem_groundEffects_ground (hm : m.Models c) (hwell : i.action.WellFormed)
    (hground : (i.ground c).isGround = true) {negated : Bool} {a : Atom} :
    a ∈ groundEffects (i.ground c) negated ↔
      ∃ e ∈ i.effectsOf negated, m.atom i.scope e.atom = a := by
  refine List.mem_filterMap.trans (exists_congr fun e => and_congr_right fun he => ?_)
  have hliteral := Instance.mem_literals_of_mem_effectsOf (i := i) he
  rw [Instance.ground?_ground hm hwell hground hliteral, Option.some.injEq]

/-- The literals that hold after a grounded instance is executed: what it achieves, and what was
true before and is not undone. Of an atom that is both added and deleted, the addition counts. -/
theorem holds_apply_ground (hm : m.Models c) (hwell : i.action.WellFormed)
    (hground : (i.ground c).isGround = true)
    (hreached : S.holds (m.literal l) = true ∨ i.Achieves m l)
    (hkept : (l.negated = false ∧ i.Achieves m l) ∨ ¬ i.Undoes m l) :
    (S.apply (i.ground c)).holds (m.literal l) = true := by
  rw [holds_literal_iff, Instance.Achieves] at hreached
  rw [holds_literal_iff, mem_facts_apply, mem_groundEffects_ground hm hwell hground,
    mem_groundEffects_ground hm hwell hground]
  rw [Instance.Achieves] at hkept
  rw [Instance.Undoes] at hkept
  cases hneg : l.negated with
  | false =>
    rw [hneg] at hreached hkept
    rcases hreached with hbefore | hadded
    · rcases hkept with ⟨_, hadded⟩ | hkept
      · exact iff_of_true (.inr hadded) rfl
      · exact iff_of_true (.inl ⟨hbefore.2 rfl, hkept⟩) rfl
    · exact iff_of_true (.inr hadded) rfl
  | true =>
    rw [hneg] at hreached hkept
    rcases hkept with ⟨hcontra, _⟩ | hkept
    · cases hcontra
    · refine iff_of_false ?_ Bool.noConfusion
      rintro (⟨hbefore, hdeleted⟩ | hadded)
      · rcases hreached with habsent | hreached
        · cases habsent.1 hbefore
        · exact hdeleted hreached
      · exact hkept hadded

end Situation

end LiftedPlanning
