import LiftedPlanning.Domain
import LiftedPlanning.Proofs.Action.Interference
import LiftedPlanning.Proofs.Bindings.Locality
import LiftedPlanning.Proofs.Bindings.StoredForm

/-!
# Threats in models

The tests whether effects may undo a literal look for an effect that can be unified with it. They
succeed exactly if an effect denies the literal in some model, so that they can only turn from true
to false when more becomes known (`Instance.undoes_of_models`).

A test of two instances knows nothing but what their scopes fix. Unification replaces a fixed
variable by its value wherever the variable is read. If the scopes are different it comes to the
same to give the variable this value (`Assignment.fix`), and an instance threatens another one
exactly if some assignment that has the fixed values turns an effect into the complement of a
precondition (`Instance.threatens_iff_respects`).
-/

namespace LiftedPlanning

theorem Scope.eq_lifted_of_isLifted {s : Scope} (h : s.isLifted = true) : s = .lifted s.id := by
  obtain ⟨id, fixed⟩ := s
  have hfixed : fixed = .empty := SortedMap.toList_injective (List.isEmpty_iff.1 h)
  rw [hfixed, lifted]

theorem Literal.instantiate_eq_negate_iff {ν ξ : String → String} {e p : Literal} :
    e.instantiate ν = (p.instantiate ξ).negate ↔
      e.negated = (!p.negated) ∧ e.atom.instantiate ν = p.atom.instantiate ξ := by
  rw [instantiate, instantiate, negate, Literal.mk.injEq]

namespace Assignment

variable {m : Assignment} {s t : Scope}

/-- The variables that a scope fixes have their fixed values. -/
def Respects (m : Assignment) (s : Scope) : Prop :=
  ∀ name o, s.value? name = some o → m ⟨s.id, name⟩ = o

theorem Respects.inScope (h : m.Respects s) : m.inScope s = fun name => m ⟨s.id, name⟩ := by
  funext name
  rw [Assignment.inScope]
  cases hvalue : s.value? name with
  | none => rfl
  | some o => exact (h name o hvalue).symm

/-- The assignment in which the variables of a scope have the values that are read there. -/
def fix (m : Assignment) (s : Scope) : Assignment := m.extend s.id (m.inScope s)

theorem fix_of_eq (m : Assignment) (s : Scope) (name : String) :
    m.fix s ⟨s.id, name⟩ = m.inScope s name :=
  if_pos rfl

theorem fix_of_ne (h : t.id ≠ s.id) (name : String) : m.fix s ⟨t.id, name⟩ = m ⟨t.id, name⟩ :=
  if_neg h

theorem respects_fix (m : Assignment) (s : Scope) : (m.fix s).Respects s := by
  intro name o hvalue
  rw [fix_of_eq, Assignment.inScope, hvalue, Option.getD_some]

theorem Respects.fix (h : m.Respects t) (hne : t.id ≠ s.id) : (m.fix s).Respects t := by
  intro name o hvalue
  rw [fix_of_ne hne, h name o hvalue]

theorem inScope_fix (m : Assignment) (s : Scope) : (m.fix s).inScope s = m.inScope s := by
  rw [(m.respects_fix s).inScope]
  exact funext (m.fix_of_eq s)

theorem inScope_fix_of_ne (h : t.id ≠ s.id) : (m.fix s).inScope t = m.inScope t := by
  funext name
  rw [Assignment.inScope, Assignment.inScope, fix_of_ne h]

end Assignment

namespace Instance

variable {i j : Instance} {c d : Bindings} {s : Scope} {k : Literal}

theorem undoes_iff_exists_effect (h : c.WellFormed) :
    i.undoes s k c = true ↔ ∃ m : Assignment, m.Models c ∧
      ∃ e ∈ i.action.effects, e.negated = (!k.negated) ∧
        m.atom i.scope e.atom = m.atom s k.atom := by
  simp only [undoes_eq_true_iff h, mem_effectsOf, and_assoc]

theorem undoes_of_models (hc : c.WellFormed) (hd : d.WellFormed)
    (hmodels : ∀ m : Assignment, m.Models d → m.Models c) (h : i.undoes s k d = true) :
    i.undoes s k c = true := by
  obtain ⟨m, hm, heffect⟩ := (undoes_eq_true_iff hd).1 h
  exact (undoes_eq_true_iff hc).2 ⟨m, hmodels m hm, heffect⟩

theorem destroys_iff : i.destroys s k c = true ↔ k.negated = false ∧ i.undoes s k c = true := by
  rw [destroys, Bool.and_eq_true, Bool.not_eq_true']

/-- An instance threatens another one if some assignment, read through the scopes, turns an effect
into the complement of a precondition. -/
theorem threatens_iff_inScope :
    i.threatens j = true ↔ ∃ m : Assignment,
      ∃ e ∈ i.action.effects, ∃ p ∈ j.action.preconditions,
        e.instantiate (m.inScope i.scope) = (p.instantiate (m.inScope j.scope)).negate := by
  simp only [threatens, List.any_eq_true, undoes_iff_exists_effect Bindings.wellFormed_empty,
    Literal.instantiate_eq_negate_iff]
  constructor
  · rintro ⟨p, hp, m, -, e, he, hcomplement⟩
    exact ⟨m, e, he, p, hp, hcomplement⟩
  · rintro ⟨m, e, he, p, hp, hcomplement⟩
    exact ⟨p, hp, m, m.models_empty, e, he, hcomplement⟩

/-- Fixed variables may as well be given their values. -/
theorem threatens_iff_respects (hne : i.scope.id ≠ j.scope.id) :
    i.threatens j = true ↔ ∃ m : Assignment, m.Respects i.scope ∧ m.Respects j.scope ∧
      ∃ e ∈ i.action.effects, ∃ p ∈ j.action.preconditions,
        e.instantiate (fun name => m ⟨i.scope.id, name⟩) =
          (p.instantiate fun name => m ⟨j.scope.id, name⟩).negate := by
  rw [threatens_iff_inScope]
  constructor
  · rintro ⟨m, e, he, p, hp, hcomplement⟩
    have hi : ((m.fix i.scope).fix j.scope).Respects i.scope := (m.respects_fix i.scope).fix hne
    have hj : ((m.fix i.scope).fix j.scope).Respects j.scope := Assignment.respects_fix _ _
    refine ⟨_, hi, hj, e, he, p, hp, ?_⟩
    rwa [← hi.inScope, ← hj.inScope, Assignment.inScope_fix_of_ne hne, Assignment.inScope_fix,
      Assignment.inScope_fix, Assignment.inScope_fix_of_ne hne.symm]
  · rintro ⟨m, hi, hj, e, he, p, hp, hcomplement⟩
    exact ⟨m, e, he, p, hp, by rwa [hi.inScope, hj.inScope]⟩

/-- What may undo a precondition of an instance whose scope fixes no value threatens the
instance. -/
theorem threatens_of_clobbers (hc : c.WellFormed) (hlifted : j.scope.isLifted = true)
    {l : ScopedLiteral} (hl : l ∈ j.preconditions) (h : i.clobbers l c = true) :
    i.threatens j = true := by
  obtain ⟨p, hp, rfl⟩ := List.mem_map.1 hl
  refine List.any_eq_true.2 ⟨p, hp, ?_⟩
  rw [Scope.eq_lifted_of_isLifted hlifted]
  exact undoes_of_models Bindings.wellFormed_empty hc (fun m _ => m.models_empty) h

/-- The tests of interference are exact. They can only turn from true to false when requests are
accepted, and a literal of an instance that fixes no value can be undone only by an instance that
threatens it. -/
theorem clobbers_iff_and_threatens_iff (hc : c.Reachable) (hne : i.scope.id ≠ j.scope.id) :
    (∀ l : ScopedLiteral, i.clobbers l c = true ↔ ∃ m : Assignment, m.Models c ∧
      ∃ e ∈ i.action.effects, e.negated = (!l.negated) ∧
        m.atom i.scope e.atom = m.atom l.scope l.atom) ∧
    (∀ (s : Scope) (k : Literal), i.destroys s k c = true ↔ k.negated = false ∧
      ∃ m : Assignment, m.Models c ∧ ∃ e ∈ i.action.effects, e.negated = (!k.negated) ∧
        m.atom i.scope e.atom = m.atom s k.atom) ∧
    (i.threatens j = true ↔ ∃ m : Assignment, m.Respects i.scope ∧ m.Respects j.scope ∧
      ∃ e ∈ i.action.effects, ∃ p ∈ j.action.preconditions,
        e.instantiate (fun name => m ⟨i.scope.id, name⟩) =
          (p.instantiate fun name => m ⟨j.scope.id, name⟩).negate) ∧
    (∀ (rs : List Request) (d : Bindings), Request.answerAll? rs c = some d →
      (∀ l : ScopedLiteral, i.clobbers l d = true → i.clobbers l c = true) ∧
      ∀ (s : Scope) (k : Literal), i.destroys s k d = true → i.destroys s k c = true) ∧
    (j.scope.isLifted = true →
      ∀ l ∈ j.preconditions, i.clobbers l c = true → i.threatens j = true) := by
  have hwell := hc.wellFormed
  refine ⟨fun l => undoes_iff_exists_effect hwell, fun s k => ?_, threatens_iff_respects hne,
    fun rs d hd => ?_, fun hlifted l => threatens_of_clobbers hwell hlifted⟩
  · rw [destroys_iff, undoes_iff_exists_effect hwell]
  · have hundoes : ∀ (s : Scope) (k : Literal), i.undoes s k d = true → i.undoes s k c = true :=
      fun s k => undoes_of_models hwell (Request.wellFormed_answerAll? hwell hd)
        fun m => Request.models_of_answerAll? hwell hd
    refine ⟨fun l => hundoes l.scope l.literal, fun s k hdestroys => ?_⟩
    exact destroys_iff.2 ((destroys_iff.1 hdestroys).imp_right (hundoes s k))

/-- Taking the block `A` may undo that a block which is not `B` is clear, also when this block turns
out to be `A`, and so threatens to take it. It cannot undo that `B` is clear. -/
theorem clobbers_taken :
    let i : Instance := ⟨⟨⟨1⟩, .ofList [("x", "A")]⟩, Blocks.take⟩
    let j : Instance := .lifted Blocks.take ⟨2⟩
    let c := (Request.separate j.scope (.var "x") j.scope (.const "B")).after .empty
    let l : ScopedLiteral := ⟨⟨2⟩, .pos (Blocks.clear (.var "x"))⟩
    i.scope.id ≠ j.scope.id ∧ c.Reachable ∧ l ∈ j.preconditions ∧ j.scope.isLifted = true ∧
      (∃ m : Assignment, m.Models c ∧ ∃ e ∈ i.action.effects, e.negated = (!l.negated) ∧
        m.atom i.scope e.atom = m.atom l.scope l.atom) ∧
      (∀ m : Assignment, m.Models c → ∀ e ∈ i.action.effects, e.negated = true →
        m.atom i.scope e.atom ≠ Blocks.clear (.const "B")) ∧
      (∃ d, Request.answerAll? [.bind ⟨⟨2⟩, "x"⟩ "A"] c = some d ∧
        i.clobbers l d = true ∧ i.clobbers l c = true) ∧
      i.threatens j = true ∧ ∃ m : Assignment, m.Respects i.scope ∧ m.Respects j.scope ∧
        ∃ e ∈ i.action.effects, ∃ p ∈ j.action.preconditions,
          e.instantiate (fun name => m ⟨i.scope.id, name⟩) =
            (p.instantiate fun name => m ⟨j.scope.id, name⟩).negate := by
  intro i j c l
  have hne : i.scope.id ≠ j.scope.id := by decide
  have hc : c.Reachable := .after .empty _
  have hl : l ∈ j.preconditions := by decide
  have hlifted : j.scope.isLifted = true := rfl
  obtain ⟨hclobbers, hdestroys, hthreatens, hstays, hthreat⟩ :=
    clobbers_iff_and_threatens_iff hc hne
  have hd : (Request.answerAll? [.bind ⟨⟨2⟩, "x"⟩ "A"] c).map (i.clobbers l) = some true := by
    decide
  obtain ⟨d, hd, hclobbersd⟩ := Option.map_eq_some_iff.1 hd
  have hclobbersc : i.clobbers l c = true := (hstays _ d hd).1 l hclobbersd
  have hthreatened : i.threatens j = true := hthreat hlifted l hl hclobbersc
  refine ⟨hne, hc, hl, hlifted, (hclobbers l).1 hclobbersc, ?_, ⟨d, hd, hclobbersd, hclobbersc⟩,
    hthreatened, hthreatens.1 hthreatened⟩
  intro m hm e he hneg hsame
  have hdestroyed : i.destroys j.scope (.pos (Blocks.clear (.const "B"))) c = true :=
    (hdestroys _ _).2 ⟨rfl, m, hm, e, he, hneg, hsame⟩
  exact absurd hdestroyed (by decide)

end Instance

end LiftedPlanning
