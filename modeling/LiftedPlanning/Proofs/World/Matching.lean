import LiftedPlanning.Proofs.World.Execution

/-!
# What is matched

A matching of literals has a model exactly if the literals are true in the model and, as the
variables that occur in denied literals only are never bound, stay true however these variables are
read (`Situation.models_matchings`). So a goal is satisfied if some choice of objects makes its
asserted literals true and all choices that agree with it on those make the denied ones true
(`Goal.satisfiedBy_iff_certain`). A choice that makes all literals true is enough if each variable
of the goal occurs in an asserted literal (`Goal.RangeRestricted.certainUnder`).
-/

namespace LiftedPlanning

theorem Atom.instantiate_eq_iff_vars {ν ξ : String → String} {a : Atom} :
    a.instantiate ν = a.instantiate ξ ↔ ∀ name ∈ a.vars, ν name = ξ name := by
  rw [instantiate_eq_instantiate_iff, and_iff_right rfl, List.map_inj_left]
  constructor
  · intro hall name hname
    exact hall _ (mem_vars.1 hname)
  · intro hall x hx
    cases x with
    | const name => rfl
    | var name => exact hall name (mem_vars.2 hx)

namespace Situation

variable {S : Situation} {c c' d : Bindings} {m : Assignment} {l : ScopedLiteral} {fact : Atom}

/-! ## One literal -/

theorem mem_candidates {a : Atom} :
    fact ∈ S.candidates a ↔ fact ∈ S.facts ∧ fact.SameSignature a := by
  rw [candidates, List.mem_filter, SortedSet.mem_toList, decide_eq_true_iff]

theorem models_matchFact? (h : c.WellFormed) (hfact : fact.isGround = true) :
    (∃ d, matchFact? c l fact = some d ∧ m.Models d) ↔ m.Models c ∧ (m.literal l).atom = fact := by
  refine h.models_unify?.trans ?_
  rw [Assignment.atom, Assignment.atom, Atom.instantiate_of_isGround hfact]
  rfl

theorem wellFormed_matchFact? (h : c.WellFormed) (hd : matchFact? c l fact = some d) :
    d.WellFormed :=
  h.wellFormed_unify? hd

theorem mem_candidates_of_literal (hfact : (m.literal l).atom ∈ S.facts) :
    (m.literal l).atom ∈ S.candidates l.atom := by
  refine mem_candidates.2 ⟨hfact, rfl, ?_⟩
  change (l.atom.args.map _).length = l.atom.args.length
  rw [List.length_map]

theorem unifiable_iff (hS : S.Ground) (h : c.WellFormed) :
    S.unifiable c l = true ↔ ∃ m : Assignment, m.Models c ∧ (m.literal l).atom ∈ S.facts := by
  rw [unifiable, List.any_eq_true]
  constructor
  · rintro ⟨fact, hfact, hsome⟩
    have hfact := (mem_candidates.1 hfact).1
    obtain ⟨d, hd⟩ := Option.isSome_iff_exists.1 hsome
    obtain ⟨m, hm⟩ := (wellFormed_matchFact? h hd).exists_models
    obtain ⟨hm, heq⟩ := (models_matchFact? h (hS fact hfact)).1 ⟨d, hd, hm⟩
    exact ⟨m, hm, heq ▸ hfact⟩
  · rintro ⟨m, hm, hfact⟩
    obtain ⟨d, hd, _⟩ := (models_matchFact? h (hS _ hfact)).2 ⟨hm, rfl⟩
    refine ⟨_, mem_candidates_of_literal hfact, ?_⟩
    rw [hd]
    rfl

/-- The atom of a denied literal is absent if it is a fact in no model. -/
theorem absent_iff (hS : S.Ground) (h : c.WellFormed) :
    S.absent c l = true ↔ ∀ m : Assignment, m.Models c → (m.literal l).atom ∉ S.facts := by
  rw [absent]
  split
  · next a ha =>
    have hsame : ∀ m : Assignment, m.Models c → (m.literal l).atom = a := fun m hm =>
      Bindings.atom_eq_of_ground?_eq_some hm ha
    obtain ⟨m, hm⟩ := h.exists_models
    rw [decide_eq_true_iff]
    constructor
    · intro habsent n hn
      rw [hsame n hn]
      exact habsent
    · intro hall
      have habsent := hall m hm
      rwa [hsame m hm] at habsent
  · rw [Bool.not_eq_true', Bool.eq_false_iff, ne_eq, unifiable_iff hS h]
    simp only [not_exists, not_and]

/-! ## Several literals -/

theorem wellFormed_of_mem_matchingsFrom {negatives ls : List ScopedLiteral} (h : c.WellFormed)
    (hd : d ∈ S.matchingsFrom negatives ls c) : d.WellFormed := by
  induction ls generalizing c with
  | nil =>
    rw [matchingsFrom] at hd
    split at hd
    · cases List.mem_singleton.1 hd
      exact h
    · cases hd
  | cons l ls ih =>
    obtain ⟨fact, _, hfact⟩ := List.mem_flatMap.1 hd
    split at hfact
    · next c' hc' => exact ih (wellFormed_matchFact? h hc') hfact
    · cases hfact

theorem mem_matchingsFrom_cons {negatives ls : List ScopedLiteral} :
    d ∈ S.matchingsFrom negatives (l :: ls) c ↔
      ∃ fact ∈ S.candidates l.atom, ∃ c', matchFact? c l fact = some c' ∧
        d ∈ S.matchingsFrom negatives ls c' := by
  rw [matchingsFrom, List.mem_flatMap]
  refine exists_congr fun fact => and_congr_right fun _ => ?_
  cases matchFact? c l fact <;> simp

theorem models_matchingsFrom (hS : S.Ground) (h : c.WellFormed)
    {negatives ls : List ScopedLiteral} :
    (∃ d ∈ S.matchingsFrom negatives ls c, m.Models d) ↔
      m.Models c ∧ (∀ l ∈ ls, (m.literal l).atom ∈ S.facts) ∧
        ∀ n : Assignment, n.Models c → (∀ l ∈ ls, (n.literal l).atom = (m.literal l).atom) →
          ∀ l ∈ negatives, (n.literal l).atom ∉ S.facts := by
  induction ls generalizing c with
  | nil =>
    have hall : negatives.all (S.absent c) = true ↔
        ∀ n : Assignment, n.Models c → ∀ l ∈ negatives, (n.literal l).atom ∉ S.facts := by
      simp only [List.all_eq_true, absent_iff hS h]
      exact ⟨fun hall n hn l hl => hall l hl n hn, fun hall l hl n hn => hall n hn l hl⟩
    rw [matchingsFrom]
    split
    · next habsent => simpa using fun _ => hall.1 habsent
    · next hpresent => simpa using fun _ hn => hpresent (hall.2 hn)
  | cons l ls ih =>
    simp only [mem_matchingsFrom_cons, List.forall_mem_cons]
    constructor
    · rintro ⟨d, ⟨fact, hfact, c', hc', hd⟩, hmd⟩
      have hfact := (mem_candidates.1 hfact).1
      -- Unification with the fact keeps the models in which the literal is this fact.
      have hc := fun n : Assignment => models_matchFact? (m := n) h (hS fact hfact) (l := l)
      obtain ⟨hm, hls, hnegatives⟩ := (ih (wellFormed_matchFact? h hc')).1 ⟨d, hd, hmd⟩
      obtain ⟨hm, heq⟩ := (hc m).1 ⟨c', hc', hm⟩
      refine ⟨hm, ⟨heq ▸ hfact, hls⟩, ?_⟩
      rintro n hn ⟨hl, hls⟩
      obtain ⟨c'', hc'', hn⟩ := (hc n).2 ⟨hn, hl.trans heq⟩
      cases hc'.symm.trans hc''
      exact hnegatives n hn hls
    · rintro ⟨hm, ⟨hfact, hls⟩, hnegatives⟩
      have hc := fun n : Assignment => models_matchFact? (m := n) h (hS _ hfact) (l := l)
      obtain ⟨c', hc', hm⟩ := (hc m).2 ⟨hm, rfl⟩
      have hrest : ∃ d ∈ S.matchingsFrom negatives ls c', m.Models d := by
        refine (ih (wellFormed_matchFact? h hc')).2 ⟨hm, hls, ?_⟩
        intro n hn hls
        obtain ⟨hn, hl⟩ := (hc n).1 ⟨c', hc', hn⟩
        exact hnegatives n hn ⟨hl, hls⟩
      obtain ⟨d, hd, hm⟩ := hrest
      exact ⟨d, ⟨_, mem_candidates_of_literal hfact, c', hc', hd⟩, hm⟩

theorem mem_objects {a : Atom} {o : String} (ha : a ∈ S.facts) (ho : o ∈ a.objects) :
    o ∈ S.objects :=
  SortedSet.mem_ofList.2 (List.mem_flatMap.2 ⟨a, SortedSet.mem_toList.2 ha, ho⟩)

/-- Whether a model of the binding set is one of a matching depends on the facts only that it takes
the literals for. -/
theorem models_of_atoms_eq (hS : S.Ground) (h : c.WellFormed)
    {negatives ls : List ScopedLiteral} (hd : d ∈ S.matchingsFrom negatives ls c) (hm : m.Models d)
    {n : Assignment} (hn : n.Models c)
    (hsame : ∀ l ∈ ls, (n.literal l).atom = (m.literal l).atom) : n.Models d := by
  induction ls generalizing c with
  | nil =>
    rw [matchingsFrom] at hd
    split at hd
    · cases List.mem_singleton.1 hd
      exact hn
    · cases hd
  | cons l ls ih =>
    obtain ⟨fact, hfact, c', hc', hrest⟩ := mem_matchingsFrom_cons.1 hd
    obtain ⟨hatom, hsame⟩ := List.forall_mem_cons.1 hsame
    have hfact := (mem_candidates.1 hfact).1
    have hwell := wellFormed_matchFact? h hc'
    obtain ⟨hmc', _⟩ := (models_matchingsFrom hS hwell).1 ⟨d, hrest, hm⟩
    obtain ⟨_, hl⟩ := (models_matchFact? h (hS fact hfact)).1 ⟨c', hc', hmc'⟩
    obtain ⟨c'', hc'', hn⟩ := (models_matchFact? h (hS fact hfact)).2 ⟨hn, hatom.trans hl⟩
    cases hc'.symm.trans hc''
    exact ih hwell hrest hn hsame

/-- Whether a model of the binding set is one of a matching depends on the variables only that stand
for objects of the situation. -/
theorem models_of_mem_matchingsFrom (hS : S.Ground) (h : c.WellFormed)
    {negatives ls : List ScopedLiteral} (hd : d ∈ S.matchingsFrom negatives ls c) (hm : m.Models d)
    {n : Assignment} (hn : n.Models c) (hsame : ∀ v, m v ∈ S.objects → n v = m v) :
    n.Models d := by
  obtain ⟨_, hfacts, _⟩ := (models_matchingsFrom hS h).1 ⟨d, hd, hm⟩
  refine models_of_atoms_eq hS h hd hm hn fun l hl => ?_
  refine Atom.instantiate_eq_iff_vars.2 fun name hname => hsame ⟨l.scopeId, name⟩ ?_
  refine mem_objects (hfacts l hl) ?_
  rw [Assignment.literal, Literal.instantiate, Atom.objects_instantiate]
  exact List.mem_map_of_mem (Atom.mem_vars.1 hname)

theorem exists_fact_of_mem_matchingsFrom (hS : S.Ground) (h : c.WellFormed)
    {negatives ls : List ScopedLiteral} (hd : d ∈ S.matchingsFrom negatives ls c) (hl : l ∈ ls) :
    ∃ fact ∈ S.facts, ∀ m : Assignment, m.Models d → (m.literal l).atom = fact := by
  induction ls generalizing c with
  | nil => cases hl
  | cons k ks ih =>
    obtain ⟨fact, hfact, c', hc', hrest⟩ := mem_matchingsFrom_cons.1 hd
    have hwell := wellFormed_matchFact? h hc'
    rcases List.mem_cons.1 hl with rfl | hl
    · have hfact := (mem_candidates.1 hfact).1
      refine ⟨fact, hfact, fun m hm => ?_⟩
      obtain ⟨hm, _⟩ := (models_matchingsFrom hS hwell).1 ⟨d, hrest, hm⟩
      exact ((models_matchFact? h (hS fact hfact)).1 ⟨c', hc', hm⟩).2
    · exact ih hwell hrest hl

theorem exists_fact_of_mem_matchings (hS : S.Ground) (h : c.WellFormed) {ls : List ScopedLiteral}
    (hd : d ∈ S.matchings ls c) (hl : l ∈ ls) (hneg : l.negated = false) :
    ∃ fact ∈ S.facts, ∀ m : Assignment, m.Models d → (m.literal l).atom = fact :=
  exists_fact_of_mem_matchingsFrom hS h hd (by simp [hl, hneg])

theorem wellFormed_of_mem_matchings {ls : List ScopedLiteral} (h : c.WellFormed)
    (hd : d ∈ S.matchings ls c) : d.WellFormed :=
  wellFormed_of_mem_matchingsFrom h hd

/-- The models of the matchings of a binding set: all literals stay true as long as the asserted
ones are read alike. -/
theorem models_matchings (hS : S.Ground) (h : c.WellFormed) {ls : List ScopedLiteral} :
    (∃ d ∈ S.matchings ls c, m.Models d) ↔
      m.Models c ∧ ∀ n : Assignment, n.Models c →
        (∀ l ∈ ls, l.negated = false → n.literal l = m.literal l) →
          ∀ l ∈ ls, S.holds (n.literal l) = true := by
  have hread : ∀ (n : Assignment) (l : ScopedLiteral),
      n.literal l = m.literal l ↔ (n.literal l).atom = (m.literal l).atom := by
    intro n l
    rw [Assignment.literal_eq_literal_iff]
    exact and_iff_right rfl
  rw [matchings, models_matchingsFrom hS h]
  simp only [List.mem_filter, Bool.not_eq_true', and_imp, hread, holds_literal_iff]
  refine and_congr_right fun hm => ⟨?_, ?_⟩
  · rintro ⟨hasserted, hdenied⟩ n hn hsame l hl
    cases hneg : l.negated with
    | false =>
      have hfact : (n.literal l).atom ∈ S.facts := by
        rw [hsame l hl hneg]
        exact hasserted l hl hneg
      exact iff_of_true hfact rfl
    | true => exact iff_of_false (hdenied n hn hsame l hl hneg) Bool.noConfusion
  · intro hall
    refine ⟨fun l hl hneg => ((hall m hm fun _ _ _ => rfl) l hl).2 hneg, ?_⟩
    intro n hn hsame l hl hneg hfact
    have hcontra := (hall n hn hsame l hl).1 hfact
    rw [hneg] at hcontra
    cases hcontra

/-! ## The first matching -/

theorem mem_matchings_of_firstMatch? {ls : List ScopedLiteral} (hd : S.firstMatch? ls c = some d) :
    d ∈ S.matchings ls c := by
  rw [firstMatch?_eq_head?] at hd
  exact List.mem_of_head? hd

theorem holds_of_mem_matchings (hS : S.Ground) (h : c.WellFormed) {ls : List ScopedLiteral}
    (hd : d ∈ S.matchings ls c) (hm : m.Models d) :
    m.Models c ∧ ∀ l ∈ ls, S.holds (m.literal l) = true := by
  obtain ⟨hmc, hall⟩ := (models_matchings hS h).1 ⟨d, hd, hm⟩
  exact ⟨hmc, hall m hmc fun _ _ _ => rfl⟩

theorem isSome_firstMatch?_iff (h : c.WellFormed) {ls : List ScopedLiteral} :
    (S.firstMatch? ls c).isSome = true ↔
      ∃ m : Assignment, ∃ d ∈ S.matchings ls c, m.Models d := by
  rw [firstMatch?_eq_head?, List.isSome_head?]
  constructor
  · intro hne
    obtain ⟨d, hd⟩ := List.exists_mem_of_ne_nil _ hne
    obtain ⟨m, hm⟩ := (wellFormed_of_mem_matchings h hd).exists_models
    exact ⟨m, d, hd, hm⟩
  · rintro ⟨_, d, hd, _⟩
    exact List.ne_nil_of_mem hd

/-- Whether literals can be matched depends neither on their order nor on repetitions. -/
theorem isSome_firstMatch?_congr (hS : S.Ground) (h : c.WellFormed) {ls ks : List ScopedLiteral}
    (hmem : ∀ l, l ∈ ls ↔ l ∈ ks) :
    (S.firstMatch? ls c).isSome = true ↔ (S.firstMatch? ks c).isSome = true := by
  simp only [isSome_firstMatch?_iff h, models_matchings hS h, hmem]

theorem isSome_firstMatch?_of_holds (hS : S.Ground) (h : c.WellFormed) {ls : List ScopedLiteral}
    (hall : ∀ m : Assignment, m.Models c → ∀ l ∈ ls, S.holds (m.literal l) = true) :
    (S.firstMatch? ls c).isSome = true := by
  obtain ⟨m, hm⟩ := h.exists_models
  exact (isSome_firstMatch?_iff h).2 ⟨m, (models_matchings hS h).2 ⟨hm, fun n hn _ => hall n hn⟩⟩

end Situation

/-! ## Goals -/

namespace Goal

variable {g : Goal} {S : Situation} {ν : String → String}

def TrueUnder (g : Goal) (ν : String → String) (S : Situation) : Prop :=
  ∀ l ∈ g.literals, S.holds (l.instantiate ν) = true

/-- All literals are true however those variables are read that occur in no asserted literal. -/
def CertainUnder (g : Goal) (ν : String → String) (S : Situation) : Prop :=
  ∀ ξ : String → String,
    (∀ l ∈ g.literals, l.negated = false → l.instantiate ξ = l.instantiate ν) → g.TrueUnder ξ S

/-- Every variable of a denied literal occurs in an asserted literal. -/
def RangeRestricted (g : Goal) : Prop :=
  ∀ l ∈ g.literals, l.negated = true → ∀ name ∈ l.atom.vars,
    ∃ l' ∈ g.literals, l'.negated = false ∧ name ∈ l'.atom.vars

def assignment (ν : String → String) : Assignment := fun v => ν v.name

theorem forall_mem_scopedLiterals {p : ScopedLiteral → Prop} :
    (∀ l ∈ g.scopedLiterals, p l) ↔ ∀ l ∈ g.literals, p ⟨.goal, l⟩ := by
  simp [scopedLiterals]

theorem satisfiedBy_iff_certain (hS : S.Ground) :
    g.satisfiedBy S = true ↔ ∃ ν : String → String, g.CertainUnder ν S := by
  have hcertain : ∀ m : Assignment,
      (∃ d ∈ S.matchings g.scopedLiterals .empty, m.Models d) ↔
        g.CertainUnder (m.inScope (.lifted .goal)) S := by
    intro m
    rw [Situation.models_matchings hS Bindings.wellFormed_empty,
      and_iff_right (Assignment.models_empty m)]
    simp only [forall_mem_scopedLiterals]
    constructor
    · intro hall ξ hsame
      exact hall (assignment ξ) (Assignment.models_empty _) hsame
    · intro hall n _ hsame
      exact hall (n.inScope (.lifted .goal)) hsame
  rw [satisfiedBy, Situation.isSome_firstMatch?_iff Bindings.wellFormed_empty]
  constructor
  · rintro ⟨m, hm⟩
    exact ⟨_, (hcertain m).1 hm⟩
  · rintro ⟨ν, hν⟩
    exact ⟨assignment ν, (hcertain _).2 hν⟩

/-- In a range-restricted goal the asserted literals determine all variables that matter. -/
theorem RangeRestricted.certainUnder (h : g.RangeRestricted) (hν : g.TrueUnder ν S) :
    g.CertainUnder ν S := by
  intro ξ hsame l hl
  have hvars : ∀ name ∈ l.atom.vars, ξ name = ν name := by
    intro name hname
    have hasserted : ∃ l' ∈ g.literals, l'.negated = false ∧ name ∈ l'.atom.vars := by
      cases hneg : l.negated with
      | false => exact ⟨l, hl, hneg, hname⟩
      | true => exact h l hl hneg name hname
    obtain ⟨l', hl', hneg, hname⟩ := hasserted
    have hatom := congrArg Literal.atom (hsame l' hl' hneg)
    exact Atom.instantiate_eq_iff_vars.1 hatom name hname
  rw [Literal.instantiate, Atom.instantiate_eq_iff_vars.2 hvars]
  exact hν l hl

end Goal

end LiftedPlanning
