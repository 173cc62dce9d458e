import LiftedPlanning.Proofs.Bindings.Locality
import LiftedPlanning.Proofs.World.Change

/-!
# Lifted instances and the executions they stand for

A model of a plan's bindings reads a lifted instance as the ground one in which the parameters have
the values of the model (`Assignment.Reads`). The two then have the same effects and the same
preconditions, so that statements about executions carry over to plans and back. In particular the
scope of a ground instance does not matter (`Instance.SameUse`).
-/

namespace LiftedPlanning

def Instance.effectsUnder (m : Assignment) (i : Instance) : List Literal :=
  i.action.effects.map (Literal.instantiate (m.inScope i.scope))

def Instance.values (i : Instance) : String → String := fun p => (i.scope.value? p).getD ""

/-- A ground instance fixes the values that the parameters of a lifted one have in a model. -/
structure Assignment.Reads (m : Assignment) (j i : Instance) : Prop where
  action : j.action = i.action
  values : ∀ p ∈ i.action.parameters, i.scope.value? p = some (m.term j.scope (.var p))

namespace Instance

variable {m : Assignment} {i : Instance} {l : ScopedLiteral}

theorem mem_effectsUnder {k : Literal} :
    k ∈ i.effectsUnder m ↔ ∃ e ∈ i.effectsOf k.negated, m.atom i.scope e.atom = k.atom := by
  simp only [effectsUnder, List.mem_map, mem_effectsOf]
  constructor
  · rintro ⟨e, he, rfl⟩
    exact ⟨e, ⟨he, rfl⟩, rfl⟩
  · rintro ⟨e, ⟨he, hneg⟩, hatom⟩
    refine ⟨e, he, ?_⟩
    rw [Literal.instantiate, hneg]
    exact congrArg (Literal.mk k.negated) hatom

theorem achieves_iff : i.Achieves m l ↔ m.literal l ∈ i.effectsUnder m :=
  (mem_effectsUnder (k := m.literal l)).symm

theorem undoes_iff : i.Undoes m l ↔ (m.literal l).negate ∈ i.effectsUnder m :=
  (mem_effectsUnder (k := (m.literal l).negate)).symm

theorem length_effectsUnder : (i.effectsUnder m).length = i.action.effects.length :=
  List.length_map _

end Instance

namespace Assignment

variable {m : Assignment} {i j : Instance} {S : Situation}

theorem Reads.ground? (h : m.Reads j i) (hwell : i.action.WellFormed) {l : Literal}
    (hl : l ∈ i.action.literals) :
    Bindings.empty.ground? i.scope l.atom = some (m.atom j.scope l.atom) :=
  Instance.ground?_eq_some_of_values hwell h.values hl

theorem Reads.effectsUnder_eq (h : m.Reads j i) (hwell : i.action.WellFormed) :
    j.effectsUnder m = Situation.changes i := by
  rw [Instance.effectsUnder, Situation.changes, h.action, ← List.filterMap_eq_map]
  refine List.filterMap_congr fun e he => ?_
  rw [h.ground? hwell (List.mem_append_right _ he)]
  rfl

theorem Reads.applicable_iff (h : m.Reads j i) (hwell : i.action.WellFormed)
    (hlifted : j.scope = .lifted j.scope.id) :
    S.applicable i = true ↔ ∀ l ∈ j.preconditions, S.holds (m.literal l) = true := by
  rw [Situation.applicable, List.all_eq_true, Instance.preconditions, List.forall_mem_map, h.action]
  refine forall_congr' fun l => imp_congr_right fun hl => ?_
  rw [h.ground? hwell (List.mem_append_left _ hl), hlifted]
  rfl

/-- A ground instance is read from its action in any scope, once the variables of the scope have the
values of the instance. -/
theorem reads_extend (m : Assignment) (id : ScopeId) (hground : i.isGround = true) :
    (m.extend id i.values).Reads (.lifted i.action id) i := by
  refine ⟨rfl, fun p hp => ?_⟩
  obtain ⟨o, ho⟩ := Option.isSome_iff_exists.1 (List.all_eq_true.1 hground p hp)
  rw [Instance.lifted, term_extend, Instance.values, ho]
  rfl

end Assignment

/-! ## One use in different scopes -/

structure Instance.SameUse (i j : Instance) : Prop where
  action : i.action = j.action
  values : ∀ p ∈ j.action.parameters, i.scope.value? p = j.scope.value? p

namespace Instance.SameUse

variable {i i' : Instance} {S : Situation}

theorem exists_reads (h : i.SameUse i') (hground : i'.isGround = true) :
    ∃ (m : Assignment) (j : Instance),
      j.scope = .lifted j.scope.id ∧ m.Reads j i ∧ m.Reads j i' := by
  have hreads := Assignment.reads_extend default .goal hground
  refine ⟨_, .lifted i'.action .goal, rfl, ⟨h.action.symm, fun p hp => ?_⟩, hreads⟩
  have hp : p ∈ i'.action.parameters := h.action ▸ hp
  exact (h.values p hp).trans (hreads.values p hp)

theorem applicable_iff (h : i.SameUse i') (hwell : i'.action.WellFormed)
    (hground : i'.isGround = true) : S.applicable i = true ↔ S.applicable i' = true := by
  obtain ⟨m, j, hlifted, hi, hi'⟩ := h.exists_reads hground
  rw [hi.applicable_iff (h.action ▸ hwell) hlifted, hi'.applicable_iff hwell hlifted]

theorem apply_eq (h : i.SameUse i') (hwell : i'.action.WellFormed) (hground : i'.isGround = true) :
    S.apply i = S.apply i' := by
  obtain ⟨m, j, _, hi, hi'⟩ := h.exists_reads hground
  have hchanges : Situation.changes i = Situation.changes i' := by
    rw [← hi.effectsUnder_eq (h.action ▸ hwell), hi'.effectsUnder_eq hwell]
  refine congrArg Situation.mk (SortedSet.ext fun a => ?_)
  change a ∈ (S.apply i).facts ↔ a ∈ (S.apply i').facts
  simp only [Situation.mem_facts_apply, Situation.mem_groundEffects, hchanges]

end Instance.SameUse

/-! ## Scopes -/

theorem Assignment.Agrees.literal {m m' : Assignment} {n : Nat} (h : Assignment.Agrees n m m')
    {l : ScopedLiteral} (hl : l.scopeId.toNat < n) : m'.literal l = m.literal l := by
  rw [Assignment.literal, Assignment.literal, h.inScope (s := l.scope) hl]

namespace Bindings

variable {c d : Bindings} {n : Nat} {i : Instance} {l : ScopedLiteral}

theorem Within.establishing? (h : c.Within n) (hi : i.scope.id.toNat < n)
    (hl : l.scopeId.toNat < n) (hd : i.establishing? l c = some d) : d.Within n := by
  obtain ⟨e, _, hunify⟩ := List.exists_of_findSome?_eq_some hd
  exact h.unify? hi hl hunify

theorem Within.of_mem_protecting (h : c.Within n) (hi : i.scope.id.toNat < n)
    {ls : List ScopedLiteral} (hls : ∀ l ∈ ls, l.scopeId.toNat < n)
    (hd : d ∈ i.protecting ls c) : d.Within n := by
  refine Instance.forall_mem_foldl_separating (fun b hb => List.mem_singleton.1 hb ▸ h)
    (fun q hq b hb e he => ?_) d hd
  obtain ⟨l, hl, hq⟩ := List.mem_flatMap.1 hq
  obtain ⟨e, _, rfl⟩ := List.mem_map.1 hq
  exact hb.of_mem_separationsOf hi (hls l hl) he

end Bindings

end LiftedPlanning
