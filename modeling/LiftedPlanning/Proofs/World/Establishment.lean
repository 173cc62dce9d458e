import LiftedPlanning.Proofs.Bindings.Request
import LiftedPlanning.Proofs.World.Reading

/-!
# What an establishing instance makes true

An instance establishes a literal if one of its effects can be the literal. Executed with the values
that a model gives to its parameters it makes an asserted literal true, because additions win over
deletions. For the same reason a denied literal is true afterwards only if no other effect of the
instance adds its atom in this model (`Assignment.Reads.holds_apply_iff`). So a literal is made true
in all models exactly if it is asserted or the instance does not clobber it under the bindings that
establish it (`Instance.holds_apply_iff_of_establishes`).
-/

namespace LiftedPlanning

def Instance.groundBy (m : Assignment) (i : Instance) : Instance :=
  ⟨⟨i.scope.id, .ofList (i.action.parameters.map fun p => (p, m.term i.scope (.var p)))⟩, i.action⟩

namespace Assignment

variable {m : Assignment} {i j : Instance} {l : ScopedLiteral} {S : Situation}

theorem reads_groundBy : m.Reads i (i.groundBy m) := by
  refine ⟨rfl, fun p hp => SortedMap.get?_ofList_eq_some ?_ fun o ho => ?_⟩
  · exact List.mem_map.2 ⟨p, hp, rfl⟩
  · obtain ⟨q, _, hq⟩ := List.mem_map.1 ho
    cases hq
    rfl

/-- A literal that an instance achieves is true after the execution, unless it is denied and the
instance undoes it as well. -/
theorem Reads.holds_apply_iff (h : m.Reads j i) (hwell : i.action.WellFormed)
    (hachieves : j.Achieves m l) :
    (S.apply i).holds (m.literal l) = true ↔ l.negated = false ∨ ¬ j.Undoes m l := by
  have heffect : m.literal l ∈ Situation.changes i := by
    rw [← h.effectsUnder_eq hwell]
    exact Instance.achieves_iff.1 hachieves
  rw [Instance.undoes_iff, h.effectsUnder_eq hwell, Situation.holds_literal_iff,
    Situation.mem_facts_apply, Situation.mem_groundEffects, Situation.mem_groundEffects]
  cases hneg : l.negated with
  | false =>
    have hadded : (⟨false, (m.literal l).atom⟩ : Literal) ∈ Situation.changes i := hneg ▸ heffect
    simp [hadded]
  | true =>
    have hdeleted : (⟨true, (m.literal l).atom⟩ : Literal) ∈ Situation.changes i := hneg ▸ heffect
    have hnegate : (m.literal l).negate = ⟨false, (m.literal l).atom⟩ := by
      rw [Literal.negate, negated_literal, hneg]
      rfl
    simp [hdeleted, hnegate]

end Assignment

namespace Instance

variable {i : Instance} {l : ScopedLiteral} {c d : Bindings}

/-- A literal that an instance establishes is true after the instance is executed as a model of the
bindings reads it, unless it is denied and another effect undoes it in this model. It is true in
all models exactly if it is asserted or the instance cannot clobber it. -/
theorem holds_apply_iff_of_establishes (hc : c.Reachable) (hwell : i.action.WellFormed)
    (hd : i.establishing? l c = some d) :
    (∀ (m : Assignment) (S : Situation), m.Models d →
      ((S.apply (i.groundBy m)).holds (m.literal l) = true ↔
        l.negated = false ∨ ¬ i.Undoes m l)) ∧
      ((∀ (m : Assignment) (S : Situation), m.Models d → S.Ground →
        (S.apply (i.groundBy m)).holds (m.literal l) = true) ↔
          l.negated = false ∨ i.clobbers l d = false) := by
  have hdwell := wellFormed_establishing? hc.wellFormed hd
  obtain ⟨e, he, hmodels⟩ := exists_effect_of_establishing? hc.wellFormed hd
  have hholds : ∀ (m : Assignment) (S : Situation), m.Models d →
      ((S.apply (i.groundBy m)).holds (m.literal l) = true ↔
        l.negated = false ∨ ¬ i.Undoes m l) := fun m S hm =>
    Assignment.reads_groundBy.holds_apply_iff hwell ⟨e, he, (hmodels m hm).2⟩
  refine ⟨hholds, ?_⟩
  rw [clobbers_eq_false_iff hdwell]
  constructor
  · intro hall
    cases hneg : l.negated with
    | false => exact .inl rfl
    | true =>
      refine .inr fun m hm => ?_
      have htrue := hall m (.ofAtoms []) hm (Situation.ground_ofAtoms _)
      rw [hholds m _ hm, hneg] at htrue
      exact htrue.resolve_left Bool.noConfusion
  · rintro hsafe m S hm -
    exact (hholds m S hm).2 (hsafe.imp_right fun hnone => hnone m hm)

def moving : Instance :=
  .lifted ⟨"move", ["x", "y"], [], [.neg ⟨"at", [.var "x"]⟩, .pos ⟨"at", [.var "y"]⟩]⟩ ⟨1⟩

def leaving : ScopedLiteral := ⟨.goal, .neg ⟨"at", [.const "A"]⟩⟩

def elsewhere : Bindings :=
  (Request.separate moving.scope (.var "y") .facts (.const "A")).after .empty

/-- If the move leads elsewhere, the place is left wherever it leads. -/
theorem holds_apply_moving :
    ∃ d, moving.establishing? leaving elsewhere = some d ∧
      ∀ (m : Assignment) (S : Situation), m.Models d → S.Ground →
        (S.apply (moving.groundBy m)).holds (m.literal leaving) = true := by
  obtain ⟨d, hd⟩ := Option.isSome_iff_exists.1
    (show (moving.establishing? leaving elsewhere).isSome = true by decide)
  have hsafe : ∀ d ∈ moving.establishing? leaving elsewhere,
      moving.clobbers leaving d = false := by decide
  obtain ⟨_, hall⟩ :=
    holds_apply_iff_of_establishes (Bindings.Reachable.empty.after _) (by decide) hd
  exact ⟨d, hd, hall.2 (.inr (hsafe d hd))⟩

def flipping : Instance :=
  .lifted ⟨"flip", [], [], [.neg ⟨"p", [.const "A"]⟩, .pos ⟨"p", [.const "A"]⟩]⟩ ⟨3⟩

/-- What is deleted and added is established as denied, but it holds. -/
theorem not_holds_apply_flipping :
    let l : ScopedLiteral := ⟨⟨2⟩, .neg ⟨"p", [.const "A"]⟩⟩
    let S := Situation.ofAtoms [⟨"p", [.const "A"]⟩]
    ∃ d, flipping.establishing? l .empty = some d ∧ ∃ m : Assignment, m.Models d ∧ S.Ground ∧
      (S.apply (flipping.groundBy m)).holds (m.literal l) = false :=
  ⟨.empty, by decide, fun _ => "A", Assignment.models_empty _, Situation.ground_ofAtoms _,
    by decide⟩

end Instance

end LiftedPlanning
