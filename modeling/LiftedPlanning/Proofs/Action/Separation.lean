import Mathlib.Data.List.Nodup
import LiftedPlanning.Proofs.Action.Interference
import LiftedPlanning.Proofs.Bindings.StoredForm

/-!
# Ways to keep atoms apart

The ways that `Bindings.separationsOf` lists to keep two atoms apart cover exactly the models in
which they are different, and no model else. None of them lets the atoms become the same, no two of
them have the same models, and there is none exactly if the atoms are the same already. The ways in
which an instance is kept from undoing a literal combine such lists, one for each effect of the
opposite polarity, and cover the models in which no effect undoes it
(`Bindings.Reachable.separations_cover`).
-/

namespace LiftedPlanning

theorem nodup_eraseDups {α : Type} [DecidableEq α] (xs : List α) : xs.eraseDups.Nodup := by
  cases xs with
  | nil => simp
  | cons x xs =>
    rw [List.eraseDups_cons]
    refine List.nodup_cons.2 ⟨?_, nodup_eraseDups _⟩
    simp [List.mem_eraseDups]
termination_by xs.length
decreasing_by exact Nat.lt_succ_of_le (List.length_filter_le ..)

namespace Bindings

variable {c d : Bindings} {s t : Scope} {a b : Atom}

theorem parents_of_mem_separationsOf (hd : d ∈ c.separationsOf s a t b) :
    d.parents = c.parents := by
  rcases mem_separationsOf.1 hd with ⟨-, rfl⟩ | ⟨-, p, -, hp⟩
  · rfl
  · obtain ⟨-, ⟨-, rfl⟩ | ⟨-, rfl⟩⟩ := separate?_eq_some hp
    · rfl
    · rfl

theorem nodup_separationsOf : (c.separationsOf s a t b).Nodup := by
  rw [separationsOf]
  split
  · exact nodup_eraseDups _
  · exact List.nodup_singleton _

theorem WellFormed.pairwise_separationsOf (h : c.WellFormed) :
    (c.separationsOf s a t b).Pairwise fun d e =>
      ∃ m : Assignment, ¬ (m.Models d ↔ m.Models e) := by
  refine nodup_separationsOf.imp_of_mem fun {d e} hd he hne => ?_
  by_contra hall
  have hmodels : ∀ m : Assignment, m.Models d ↔ m.Models e := fun m =>
    not_not.1 fun hm => hall ⟨m, hm⟩
  refine hne ((WellFormed.eq_iff_parents_eq (h.wellFormed_of_mem_separationsOf hd)
    (h.wellFormed_of_mem_separationsOf he) hmodels).2 ?_)
  rw [parents_of_mem_separationsOf hd, parents_of_mem_separationsOf he]

theorem WellFormed.unify?_eq_none_of_mem_separationsOf (h : c.WellFormed)
    (hd : d ∈ c.separationsOf s a t b) : d.unify? s a t b = none := by
  have hwell := h.wellFormed_of_mem_separationsOf hd
  cases hunify : d.unify? s a t b with
  | none => rfl
  | some e =>
    obtain ⟨m, hm⟩ := (hwell.wellFormed_unify? hunify).exists_models
    obtain ⟨hm, hsame⟩ := hwell.models_unify?.1 ⟨e, hunify, hm⟩
    exact absurd hsame (h.models_separationsOf.1 ⟨d, hd, hm⟩).2

/-- Atoms that are the same in all models cannot be kept apart, and all others can. -/
theorem WellFormed.separationsOf_eq_nil_iff (h : c.WellFormed) :
    c.separationsOf s a t b = [] ↔ c.codesignate s a t b = true := by
  rw [h.codesignate_iff, List.eq_nil_iff_forall_not_mem]
  constructor
  · intro hnone m hm
    by_contra hne
    obtain ⟨d, hd, -⟩ := h.models_separationsOf.2 ⟨hm, hne⟩
    exact hnone d hd
  · intro hall d hd
    obtain ⟨m, hm⟩ := (h.wellFormed_of_mem_separationsOf hd).exists_models
    obtain ⟨hm, hne⟩ := h.models_separationsOf.1 ⟨d, hd, hm⟩
    exact hne (hall m hm)

end Bindings

theorem Instance.clobbers_eq_false_of_mem_protecting {i : Instance} {ls : List ScopedLiteral}
    {l : ScopedLiteral} {c d : Bindings} (h : c.WellFormed) (hd : d ∈ i.protecting ls c)
    (hl : l ∈ ls) : i.clobbers l d = false := by
  refine (clobbers_eq_false_iff (wellFormed_of_mem_protecting h hd)).2 fun m hm => ?_
  exact ((models_protecting h).1 ⟨d, hd, hm⟩).2 l hl

namespace Bindings

variable {c : Bindings}

/-- The ways to keep two atoms apart cover the models in which they differ, rule out that they
become the same, have different models, and are missing exactly if the atoms are the same already.
The ways to protect a literal from an instance cover the models in which no effect of the opposite
polarity is the literal, and under each of them the instance cannot undo it. -/
theorem Reachable.separations_cover (h : c.Reachable) :
    (∀ s a t b,
      (∀ m : Assignment, (∃ d ∈ c.separationsOf s a t b, m.Models d) ↔
        m.Models c ∧ m.atom s a ≠ m.atom t b) ∧
      (∀ d ∈ c.separationsOf s a t b, d.unify? s a t b = none) ∧
      ((c.separationsOf s a t b).Pairwise fun d e =>
        d ≠ e ∧ ∃ m : Assignment, ¬ (m.Models d ↔ m.Models e)) ∧
      (c.separationsOf s a t b = [] ↔ c.codesignate s a t b = true)) ∧
    ∀ (i : Instance) (l : ScopedLiteral),
      (∀ m : Assignment, (∃ d ∈ i.protecting [l] c, m.Models d) ↔
        m.Models c ∧ ∀ e ∈ i.action.effects, e.negated ≠ l.negated →
          m.atom i.scope e.atom ≠ m.atom l.scope l.atom) ∧
      ∀ d ∈ i.protecting [l] c, i.clobbers l d = false := by
  have hwell := h.wellFormed
  refine ⟨fun s a t b => ⟨fun m => hwell.models_separationsOf,
    fun d => hwell.unify?_eq_none_of_mem_separationsOf,
    nodup_separationsOf.and hwell.pairwise_separationsOf, hwell.separationsOf_eq_nil_iff⟩, ?_⟩
  refine fun i l => ⟨fun m => ?_, fun d hd => ?_⟩
  · rw [Instance.models_protecting hwell, List.forall_mem_singleton]
    refine and_congr_right fun _ => ?_
    constructor
    · intro hsafe e he hopposite heq
      exact hsafe ⟨e, Instance.mem_effectsOf.2 ⟨he, Bool.eq_not_of_ne hopposite⟩, heq⟩
    · rintro hall ⟨e, he, heq⟩
      obtain ⟨he, hopposite⟩ := Instance.mem_effectsOf.1 he
      exact hall e he (by simp [hopposite]) heq
  · exact Instance.clobbers_eq_false_of_mem_protecting hwell hd (List.mem_singleton_self l)

theorem Reachable.separations_stacking :
    let c := (Request.separate (.lifted ⟨1⟩) (.var "x") .facts (.const "B")).after .empty
    let a : Atom := ⟨"on", [.var "x", .var "y"]⟩
    let b : Atom := ⟨"on", [.const "A", .var "z"]⟩
    let i : Instance := ⟨⟨⟨3⟩, .ofList [("w", "A")]⟩,
      ⟨"take", ["w"], [], [.neg ⟨"clear", [.var "w"]⟩]⟩⟩
    let l : ScopedLiteral := ⟨⟨2⟩, .pos ⟨"clear", [.var "z"]⟩⟩
    c.Reachable ∧ (c.separationsOf (.lifted ⟨1⟩) a (.lifted ⟨2⟩) b).length = 2 ∧
      (∀ d ∈ c.separationsOf (.lifted ⟨1⟩) a (.lifted ⟨2⟩) b,
        d.unify? (.lifted ⟨1⟩) a (.lifted ⟨2⟩) b = none) ∧
      c.codesignate (.lifted ⟨1⟩) a (.lifted ⟨2⟩) b = false ∧
      (i.protecting [l] c).length = 1 ∧ ∀ d ∈ i.protecting [l] c, i.clobbers l d = false := by
  intro c a b i l
  have hreachable : c.Reachable := Reachable.empty.after _
  obtain ⟨hatoms, hliterals⟩ := hreachable.separations_cover
  obtain ⟨-, hrefuse, -, hnone⟩ := hatoms (.lifted ⟨1⟩) a (.lifted ⟨2⟩) b
  have hlength : (c.separationsOf (.lifted ⟨1⟩) a (.lifted ⟨2⟩) b).length = 2 := by decide
  refine ⟨hreachable, hlength, hrefuse, Bool.eq_false_iff.2 fun hsame => ?_, by decide,
    (hliterals i l).2⟩
  rw [hnone.2 hsame] at hlength
  cases hlength

end Bindings

end LiftedPlanning
