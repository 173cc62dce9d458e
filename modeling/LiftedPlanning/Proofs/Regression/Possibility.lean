import LiftedPlanning.Proofs.World.Change
import LiftedPlanning.Proofs.Bindings.Request
import LiftedPlanning.Regression.Subgoal

/-!
# What could hold

A literal could hold under a binding set exactly if it is true in some model
(`Situation.couldHold_iff`). An asserted literal is tried with every fact. A denied literal needs no
trial unless it is ground: an atom with an open argument is no fact in a model that reads this
argument as an object that the situation does not mention.

Literals that could not hold are false in every model. There are therefore never more of them than
are false (`Situation.countP_not_couldHold_le`), and none where all literals can be matched at once
(`Situation.countP_not_couldHold_eq_zero`).
-/

namespace LiftedPlanning

theorem Bindings.WellFormed.exists_unbound_of_ground?_eq_none {c : Bindings} {s : Scope} {a : Atom}
    (h : c.WellFormed) (hnone : c.ground? s a = none) :
    ∃ x ∈ a.args, ∃ v, c.denote s x = .unbound v := by
  by_contra hvalues
  push Not at hvalues
  obtain ⟨m, hm⟩ := h.exists_models
  have hobjects : ∀ x ∈ a.args, c.denote s x = .object (m.term s x) := by
    intro x hx
    rw [← hm.object_denote]
    cases hdenote : c.denote s x with
    | object name => rfl
    | unbound v => exact absurd hdenote (hvalues x hx v)
  rw [Bindings.ground?_eq_some_atom hobjects] at hnone
  cases hnone

namespace Situation

variable {S : Situation} {c : Bindings} {m : Assignment} {l : ScopedLiteral}

theorem exists_models_not_mem_facts (h : c.WellFormed) (hnone : c.ground? l.scope l.atom = none) :
    ∃ m : Assignment, m.Models c ∧ (m.literal l).atom ∉ S.facts := by
  obtain ⟨x, hx, v, hv⟩ := h.exists_unbound_of_ground?_eq_none hnone
  obtain ⟨m, hm, hfresh⟩ := h.exists_models_not_mem S.objects.toList
  refine ⟨m, hm, fun hfact => hfresh l.scope x v hv ?_⟩
  refine SortedSet.mem_toList.2 (mem_objects hfact ?_)
  rw [Assignment.literal, Literal.instantiate, Atom.objects_instantiate]
  exact List.mem_map_of_mem hx

/-- A literal could hold exactly if it is true in some model. -/
theorem couldHold_iff (hS : S.Ground) (h : c.WellFormed) :
    S.couldHold l c = true ↔ ∃ m : Assignment, m.Models c ∧ S.holds (m.literal l) = true := by
  constructor
  · intro hcould
    simp only [holds_literal_iff]
    rw [couldHold] at hcould
    split at hcould
    · next hneg =>
      have habsent : ∃ m : Assignment, m.Models c ∧ (m.literal l).atom ∉ S.facts := by
        split at hcould
        · next a ha =>
          obtain ⟨m, hm⟩ := h.exists_models
          have hatom : (m.literal l).atom = a := Bindings.atom_eq_of_ground?_eq_some hm ha
          exact ⟨m, hm, hatom ▸ of_decide_eq_true hcould⟩
        · next hnone => exact exists_models_not_mem_facts h hnone
      obtain ⟨m, hm, habsent⟩ := habsent
      exact ⟨m, hm, iff_of_false habsent (by simp [hneg])⟩
    · next hneg =>
      obtain ⟨m, hm, hfact⟩ := (unifiable_iff hS h).1 hcould
      exact ⟨m, hm, iff_of_true hfact (Bool.eq_false_iff.2 hneg)⟩
  · rintro ⟨m, hm, hholds⟩
    exact couldHold_of_holds hS h hm hholds

theorem countP_not_couldHold_le (hS : S.Ground) (h : c.WellFormed) (hm : m.Models c)
    (ls : List ScopedLiteral) :
    (ls.countP fun l => !S.couldHold l c) ≤ ls.countP fun l => !S.holds (m.literal l) := by
  refine List.countP_mono_left fun l _ himpossible => ?_
  rw [Bool.not_eq_true'] at himpossible ⊢
  refine Bool.eq_false_iff.2 fun hholds => ?_
  rw [couldHold_of_holds hS h hm hholds] at himpossible
  cases himpossible

theorem countP_not_couldHold_eq_zero (hS : S.Ground) (h : c.WellFormed) {ls : List ScopedLiteral}
    (hmatch : (S.firstMatch? ls c).isSome = true) :
    (ls.countP fun l => !S.couldHold l c) = 0 := by
  obtain ⟨m, d, hd, hm⟩ := (isSome_firstMatch?_iff h).1 hmatch
  obtain ⟨hm, hholds⟩ := holds_of_mem_matchings hS h hd hm
  have htrue : (ls.countP fun l => !S.holds (m.literal l)) = 0 := by
    refine List.countP_eq_zero.2 fun l hl => ?_
    rw [hholds l hl]
    exact Bool.noConfusion
  exact Nat.eq_zero_of_le_zero (htrue ▸ countP_not_couldHold_le hS h hm ls)

/-- What could hold is what some model makes true. The estimates that count impossible literals
never exceed the number of those that are false, and are zero where nothing is missing. -/
theorem couldHold_iff_and_unsatisfied_le (hS : S.Ground) :
    (∀ (c : Bindings) (l : ScopedLiteral), c.Reachable →
      (S.couldHold l c = true ↔ ∃ m : Assignment, m.Models c ∧ S.holds (m.literal l) = true)) ∧
    (∀ (g : Goal) (ν : String → String),
      g.unsatisfied S ≤ g.literals.countP fun l => !S.holds (l.instantiate ν)) ∧
    (∀ g : Goal, g.satisfiedBy S = true → g.unsatisfied S = 0) ∧
    ∀ s : Subgoal, s.bindings.Reachable → s.verifiedBy S = true → s.missing S = 0 := by
  refine ⟨fun c l hc => couldHold_iff hS hc.wellFormed, ?_, ?_, ?_⟩
  · intro g ν
    have hle := countP_not_couldHold_le hS Bindings.wellFormed_empty
      (Assignment.models_empty (Goal.assignment ν)) g.scopedLiterals
    refine Nat.le_trans hle (Nat.le_of_eq ?_)
    rw [Goal.scopedLiterals, List.countP_map]
    rfl
  · intro g hsatisfied
    exact countP_not_couldHold_eq_zero hS Bindings.wellFormed_empty hsatisfied
  · intro s hs hverified
    exact countP_not_couldHold_eq_zero hS hs.wellFormed hverified

theorem couldHold_keptOff :
    let S := ofAtoms [⟨"on", [.const "A", .const "B"]⟩]
    let c := (Request.separate (.lifted ⟨1⟩) (.var "x") (.lifted ⟨1⟩) (.const "A")).after .empty
    let b := (Request.bind ⟨⟨1⟩, "x"⟩ "A").after .empty
    let onB : Atom := ⟨"on", [.var "x", .const "B"]⟩
    let g : Goal := ⟨[.pos onB, .neg ⟨"on", [.var "y", .var "x"]⟩]⟩
    let s : Subgoal := ⟨.ofList [⟨⟨1⟩, .pos onB⟩], b, .initial⟩
    S.Ground ∧ c.Reachable ∧ b.Reachable ∧
      (¬ ∃ m : Assignment, m.Models c ∧ S.holds (m.literal ⟨⟨1⟩, .pos onB⟩) = true) ∧
      (∃ m : Assignment, m.Models c ∧ S.holds (m.literal ⟨⟨1⟩, .neg onB⟩) = true) ∧
      g.unsatisfied S ≤ (g.literals.countP fun l => !S.holds (l.instantiate fun _ => "B")) ∧
      (g.satisfiedBy S = true ∧ g.unsatisfied S = 0) ∧
      (s.verifiedBy S = true ∧ s.missing S = 0) := by
  intro S c b onB g s
  have hS : S.Ground := ground_ofAtoms _
  have hc : c.Reachable := .after .empty _
  have hb : b.Reachable := .after .empty _
  obtain ⟨hcould, hle, hsatisfied, hverified⟩ := couldHold_iff_and_unsatisfied_le hS
  have hg : g.satisfiedBy S = true := by decide
  have hs : s.verifiedBy S = true := by decide
  refine ⟨hS, hc, hb, ?_, ?_, hle g _, ⟨hg, hsatisfied g hg⟩, ⟨hs, hverified s hb hs⟩⟩
  · exact mt (hcould c ⟨⟨1⟩, .pos onB⟩ hc).2 (by decide)
  · exact (hcould c ⟨⟨1⟩, .neg onB⟩ hc).1 (by decide)

end Situation

end LiftedPlanning
