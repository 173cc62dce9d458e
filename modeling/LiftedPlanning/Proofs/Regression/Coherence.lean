import LiftedPlanning.Proofs.Bindings.StoredForm
import LiftedPlanning.Proofs.Regression.Step
import LiftedPlanning.Proofs.World.Coherence

/-!
# Coherence of subgoals

The denoted literals of a subgoal stand for ground literals in every model of its bindings. Where
these are true, so are the patterns of the rules that the subgoal violates
(`Subgoal.holdsIn_of_violatedBy_denoted`), and no literal is required together with its negation: a
subgoal can be true only if it is coherent, as far as the rules are not broken themselves
(`Subgoal.coherent_of_not_holdsIn`).

What a term denotes under an extended binding set is a function of what it denoted before
(`Bindings.WellFormed.renew_denote_of_models`). So the denoted literals are renewed one by one when
more becomes known. An instance of all patterns of a rule is renewed to another one, and literals
that deny each other go on doing so: a subgoal that is incoherent is not made coherent by requests
(`Subgoal.coherent_eq_false_of_models`).
-/

namespace LiftedPlanning

/-! ## Denotations when more becomes known -/

theorem Bindings.WellFormed.renew_denote_of_models {c d : Bindings} (hc : c.WellFormed)
    (hd : d.WellFormed) (hmodels : ∀ m : Assignment, m.Models d → m.Models c) (s : Scope)
    (x : Term) : d.renew (c.denote s x) = d.denote s x := by
  cases hx : c.denote s x with
  | object name =>
    have hconst : c.denote s x = c.denote s (.const name) := hx
    exact (hc.denote_eq_mono hd hmodels hconst).symm
  | unbound v =>
    -- The root of the former class is one of its variables, so it denotes the same now.
    have hroot : c.denote s x = c.denote (.lifted v.scope) (.var v.name) :=
      hx.trans (hc.denote_root hx).symm
    exact (hc.denote_eq_mono hd hmodels hroot).symm

namespace DenotedLiteral

/-- A literal, denoted before the last requests were accepted, as it is denoted now. -/
def renew (d : Bindings) (l : DenotedLiteral) : DenotedLiteral :=
  ⟨l.negated, l.name, l.args.map d.renew⟩

theorem renew_ofScoped {c d : Bindings} (hc : c.WellFormed) (hd : d.WellFormed)
    (hmodels : ∀ m : Assignment, m.Models d → m.Models c) (l : ScopedLiteral) :
    (ofScoped c l).renew d = ofScoped d l := by
  refine congrArg (DenotedLiteral.mk l.negated l.atom.name) ?_
  rw [ofScoped, Bindings.denoteArgs, Bindings.denoteArgs, List.map_map]
  exact List.map_congr_left fun x _ => hc.renew_denote_of_models hd hmodels l.scope x

theorem renew_denotedUnder (d : Bindings) (ν : String → Denotation) (p : Literal) :
    (p.denotedUnder ν).renew d = p.denotedUnder fun name => d.renew (ν name) := by
  refine congrArg (DenotedLiteral.mk p.negated p.atom.name) ?_
  rw [Literal.denotedUnder, List.map_map]
  refine List.map_congr_left fun x _ => ?_
  cases x <;> rfl

end DenotedLiteral

/-! ## Rules -/

namespace Rule

variable {r : Rule} {ls ks : List DenotedLiteral}

theorem violatedBy_mono (hsub : ∀ l ∈ ls, l ∈ ks) (h : r.violatedBy ls = true) :
    r.violatedBy ks = true := by
  obtain ⟨ν, hν⟩ := violatedBy_iff.1 h
  exact violatedBy_iff.2 ⟨ν, fun p hp => hsub _ (hν p hp)⟩

theorem violatedBy_renew (d : Bindings) (h : r.violatedBy ls = true) :
    r.violatedBy (ls.map (DenotedLiteral.renew d)) = true := by
  obtain ⟨ν, hν⟩ := violatedBy_iff.1 h
  refine violatedBy_iff.2 ⟨fun name => d.renew (ν name), fun p hp => ?_⟩
  rw [← DenotedLiteral.renew_denotedUnder]
  exact List.mem_map_of_mem (hν p hp)

end Rule

/-! ## Subgoals -/

namespace Subgoal

variable {s : Subgoal} {m : Assignment} {S : Situation} {d : Bindings} {r : Rule}
  {rules : List Rule}

theorem contradictory_iff : s.contradictory = true ↔
    ∃ l ∈ s.denoted, (⟨!l.negated, l.name, l.args⟩ : DenotedLiteral) ∈ s.denoted := by
  simp [contradictory]

theorem coherent_eq_false_iff : s.coherent rules = false ↔
    s.contradictory = true ∨ ∃ r ∈ rules, r.violatedBy s.denoted = true := by
  rw [coherent, Bool.and_eq_false_iff, Bool.not_eq_false', Bool.not_eq_false', List.any_eq_true]

theorem TrueUnder.holds_read (h : s.TrueUnder m S) (hm : m.Models s.bindings) {l : DenotedLiteral}
    (hl : l ∈ s.denoted) : S.holds (l.read m) = true := by
  obtain ⟨k, hk, rfl⟩ := List.mem_map.1 hl
  rw [DenotedLiteral.read_ofScoped hm]
  exact h k (SortedSet.mem_toList.1 hk)

/-- If a subgoal is true in a situation, as a model reads it, so are the patterns of a rule that it
violates. -/
theorem holdsIn_of_violatedBy_denoted (hm : m.Models s.bindings) (h : s.TrueUnder m S)
    (hviolated : r.violatedBy s.denoted = true) : r.HoldsIn S :=
  Rule.holdsIn_of_violatedBy (fun _ hl => h.holds_read hm hl) hviolated

theorem not_contradictory (hm : m.Models s.bindings) (h : s.TrueUnder m S) :
    ¬ s.contradictory = true := by
  rw [contradictory_iff]
  rintro ⟨l, hl, hopposite⟩
  have hholds := Situation.holds_iff.1 (h.holds_read hm hl)
  have hdenied := Situation.holds_iff.1 (h.holds_read hm hopposite)
  -- Both stand for the same atom, and only one of them can be asserted.
  have hpolarity : l.negated = false ↔ (!l.negated) = false := hholds.symm.trans hdenied
  simp at hpolarity

/-- A subgoal that is true in a situation violates none of the rules that are not. -/
theorem coherent_of_not_holdsIn (hm : m.Models s.bindings) (h : s.TrueUnder m S)
    (hrules : ∀ r ∈ rules, ¬ r.HoldsIn S) : s.coherent rules = true := by
  rw [← Bool.not_eq_false, coherent_eq_false_iff]
  rintro (hcontra | ⟨r, hr, hviolated⟩)
  · exact not_contradictory hm h hcontra
  · exact hrules r hr (holdsIn_of_violatedBy_denoted hm h hviolated)

theorem denoted_of_models (hs : s.bindings.WellFormed) (hd : d.WellFormed)
    (hmodels : ∀ m : Assignment, m.Models d → m.Models s.bindings) :
    denoted { s with bindings := d } = s.denoted.map (DenotedLiteral.renew d) := by
  rw [denoted, denoted, List.map_map]
  exact List.map_congr_left fun l _ => (DenotedLiteral.renew_ofScoped hs hd hmodels l).symm

theorem coherent_eq_false_of_models (hs : s.bindings.WellFormed) (hd : d.WellFormed)
    (hmodels : ∀ m : Assignment, m.Models d → m.Models s.bindings)
    (h : s.coherent rules = false) : coherent { s with bindings := d } rules = false := by
  rw [coherent_eq_false_iff, contradictory_iff, denoted_of_models hs hd hmodels]
  rcases coherent_eq_false_iff.1 h with hcontra | ⟨r, hr, hviolated⟩
  · obtain ⟨l, hl, hneg⟩ := contradictory_iff.1 hcontra
    exact .inl ⟨_, List.mem_map_of_mem hl, List.mem_map_of_mem hneg⟩
  · exact .inr ⟨r, hr, Rule.violatedBy_renew d hviolated⟩

end Subgoal

/-- A rule fires where its patterns have a common instance among the literals. It goes on firing
when literals are added, and an incoherent subgoal stays incoherent when requests to its bindings
are accepted. -/
theorem Rule.violatedBy_iff_and_incoherent_stays :
    (∀ (r : Rule) (ls : List DenotedLiteral), r.violatedBy ls = true ↔
      ∃ ν : String → Denotation, ∀ p ∈ r.patterns, p.denotedUnder ν ∈ ls) ∧
    (∀ (r : Rule) (ls ks : List DenotedLiteral), (∀ l ∈ ls, l ∈ ks) →
      r.violatedBy ls = true → r.violatedBy ks = true) ∧
    ∀ (s : Subgoal) (rules : List Rule) (rs : List Request) (d : Bindings),
      s.bindings.Reachable → Request.answerAll? rs s.bindings = some d →
        s.coherent rules = false → Subgoal.coherent { s with bindings := d } rules = false := by
  refine ⟨fun r ls => violatedBy_iff, fun r ls ks => violatedBy_mono, ?_⟩
  intro s rules rs d hs hd hincoherent
  exact Subgoal.coherent_eq_false_of_models hs.wellFormed
    (Request.wellFormed_answerAll? hs.wellFormed hd)
    (fun m => Request.models_of_answerAll? hs.wellFormed hd) hincoherent

/-- What is held may not lie on the table. Two variables that are the same object break this rule
before and after they are given a value. -/
theorem Rule.incoherent_heldOnTable :
    let c := (Request.unify (.lifted ⟨1⟩) ⟨"same", [.var "x"]⟩
      (.lifted ⟨2⟩) ⟨"same", [.var "y"]⟩).after .empty
    let rs := [Request.bind ⟨⟨2⟩, "y"⟩ "A"]
    let r : Rule := ⟨"held-or-on-table",
      [.pos ⟨"holding", [.var "z"]⟩, .pos ⟨"onTable", [.var "z"]⟩]⟩
    let s : Subgoal := ⟨.ofList [⟨⟨1⟩, .pos ⟨"holding", [.var "x"]⟩⟩,
      ⟨⟨2⟩, .pos ⟨"onTable", [.var "y"]⟩⟩], c, .initial⟩
    let other : DenotedLiteral := ⟨true, "onTable", [.object "B"]⟩
    c.Reachable ∧
      (∃ ν : String → Denotation, ∀ p ∈ r.patterns, p.denotedUnder ν ∈ s.denoted) ∧
      r.violatedBy (other :: s.denoted) = true ∧ s.coherent [r] = false ∧
      ∃ d, Request.answerAll? rs c = some d ∧
        Subgoal.coherent { s with bindings := d } [r] = false := by
  intro c rs r s other
  obtain ⟨hinstance, hmore, hstays⟩ := violatedBy_iff_and_incoherent_stays
  have hc : c.Reachable := .after .empty _
  have hviolated : r.violatedBy s.denoted = true := by decide
  have hsome : (Request.answerAll? rs c).isSome = true := by decide
  obtain ⟨d, hd⟩ := Option.isSome_iff_exists.1 hsome
  have hs : s.coherent [r] = false := by decide
  refine ⟨hc, (hinstance r s.denoted).1 hviolated, ?_, hs, d, hd, hstays s [r] rs d hc hd hs⟩
  exact hmore r s.denoted _ (fun l hl => List.mem_cons_of_mem _ hl) hviolated

end LiftedPlanning
