import LiftedPlanning.Proofs.World.Change
import LiftedPlanning.World.Goal

/-!
# Violated rules

A rule is violated by literals exactly if its variables can be read, as objects or as classes of
variables, so that each pattern is among the literals (`Rule.violatedBy_iff`). The patterns then
have a common instance that is true wherever the literals are, a denied pattern no less than an
asserted one (`Rule.HoldsIn`). The facts of a situation are asserted literals, though: they violate
no rule with a denied pattern (`Rule.violatedBy_facts_iff`), even if its patterns are true there.
-/

namespace LiftedPlanning

theorem Atom.map_const_objects {a : Atom} (h : a.isGround = true) :
    a.objects.map Term.const = a.args := by
  rw [isGround_iff] at h
  rw [objects, List.map_filterMap]
  refine (List.filterMap_congr fun x hx => ?_).trans List.filterMap_some
  cases x with
  | const name => rfl
  | var name => cases h _ hx

/-! ## Readings of patterns -/

def Term.denotedUnder (ν : String → Denotation) : Term → Denotation
  | const name => .object name
  | var name => ν name

def Literal.denotedUnder (ν : String → Denotation) (l : Literal) : DenotedLiteral :=
  ⟨l.negated, l.atom.name, l.atom.args.map (Term.denotedUnder ν)⟩

namespace DenotedLiteral

variable {m : Assignment} {c : Bindings}

def read (m : Assignment) (l : DenotedLiteral) : Literal :=
  ⟨l.negated, l.name, l.args.map fun d => .const (m.object d)⟩

theorem read_ofScoped (hm : m.Models c) (l : ScopedLiteral) :
    (ofScoped c l).read m = m.literal l := by
  have hargs : (c.denoteArgs l.scope l.atom).map (fun d => Term.const (m.object d)) =
      l.atom.args.map fun x => Term.const (m.term l.scope x) := by
    rw [Bindings.denoteArgs, List.map_map]
    refine List.map_congr_left fun x _ => ?_
    rw [Function.comp_apply, hm.object_denote]
  exact congrArg (fun args => (⟨l.negated, l.atom.name, args⟩ : Literal)) hargs

theorem read_denotedUnder (m : Assignment) (ν : String → Denotation) (l : Literal) :
    (l.denotedUnder ν).read m = l.instantiate fun name => m.object (ν name) := by
  have hargs : (l.atom.args.map (Term.denotedUnder ν)).map (fun d => Term.const (m.object d)) =
      l.atom.args.map fun x => Term.const (x.value fun name => m.object (ν name)) := by
    rw [List.map_map]
    refine List.map_congr_left fun x _ => ?_
    cases x <;> rfl
  exact congrArg (fun args => (⟨l.negated, l.atom.name, args⟩ : Literal)) hargs

theorem read_ofFact {a : Atom} (h : a.isGround = true) (m : Assignment) :
    (ofFact a).read m = .pos a := by
  have hargs : (a.objects.map Denotation.object).map (fun d => Term.const (m.object d)) =
      a.args := by
    rw [List.map_map]
    exact Atom.map_const_objects h
  exact congrArg (fun args => (⟨false, a.name, args⟩ : Literal)) hargs

end DenotedLiteral

namespace Rule

variable {ν : String → Denotation} {v : Valuation} {name : String} {d : Denotation}

/-! ## Matching -/

/-- All variables of the valuation are read as it says. -/
def Extends (ν : String → Denotation) (v : Valuation) : Prop :=
  ∀ name d, v.get? name = some d → ν name = d

theorem extends_empty (ν : String → Denotation) : Extends ν .empty := by
  intro name d h
  cases h

theorem exists_extends (v : Valuation) : ∃ ν : String → Denotation, Extends ν v := by
  refine ⟨fun name => (v.get? name).getD default, fun name d h => ?_⟩
  change (v.get? name).getD default = d
  rw [h, Option.getD_some]

theorem extends_insert (hname : v.get? name = none) :
    Extends ν (v.insert name d) ↔ Extends ν v ∧ ν name = d := by
  constructor
  · intro h
    refine ⟨fun other e hother => h other e ?_, h name d (SortedMap.get?_insert_self ..)⟩
    rw [SortedMap.get?_insert, if_neg]
    · exact hother
    · rintro rfl
      rw [hname] at hother
      cases hother
  · rintro ⟨h, rfl⟩ other e hother
    rw [SortedMap.get?_insert] at hother
    split at hother
    · next heq => exact heq ▸ Option.some.inj hother
    · exact h other e hother

/-- The readings that a match of arguments allows: those allowed before, under which the terms stand
for the given denotations. -/
theorem extends_matchArgs? {xs : List Term} {ds : List Denotation}
    (hlength : xs.length = ds.length) :
    (∃ w, matchArgs? xs ds v = some w ∧ Extends ν w) ↔
      Extends ν v ∧ xs.map (Term.denotedUnder ν) = ds := by
  induction xs generalizing ds v with
  | nil =>
    cases List.eq_nil_of_length_eq_zero hlength.symm
    simp [matchArgs?]
  | cons x xs ih =>
    cases ds with
    | nil => cases hlength
    | cons d ds =>
      have ih := fun w : Valuation => ih (v := w) (Nat.succ.inj hlength)
      rw [List.map_cons, List.cons.injEq]
      cases x with
      | const name =>
        rw [matchArgs?, Term.denotedUnder]
        split
        · next hd => rw [ih, hd, and_iff_right rfl]
        · next hd => simp [eq_comm, hd]
      | var name =>
        rw [matchArgs?, Term.denotedUnder]
        split
        · next e he =>
          split
          · next hed =>
            rw [ih]
            exact and_congr_right fun hν => (and_iff_right (hed ▸ hν name e he)).symm
          · next hed =>
            simp only [reduceCtorEq, false_and, exists_false, false_iff]
            rintro ⟨hν, hd, _⟩
            exact hed ((hν name e he).symm.trans hd)
        · next hname => rw [ih, extends_insert hname, and_assoc]

theorem extends_match? {p : Literal} {l : DenotedLiteral} :
    (∃ w, match? p l v = some w ∧ Extends ν w) ↔ Extends ν v ∧ p.denotedUnder ν = l := by
  have heq : p.denotedUnder ν = l ↔ (p.negated = l.negated ∧ p.atom.name = l.name ∧
      p.atom.arity = l.args.length) ∧ p.atom.args.map (Term.denotedUnder ν) = l.args := by
    rw [Literal.denotedUnder]
    constructor
    · rintro rfl
      exact ⟨⟨rfl, rfl, (List.length_map _).symm⟩, rfl⟩
    · rintro ⟨⟨hneg, hname, _⟩, hargs⟩
      rw [hneg, hname, hargs]
  rw [match?, heq]
  split
  · next hsame => rw [extends_matchArgs? hsame.2.2, and_iff_right hsame]
  · next hdiffer => simp [hdiffer]

theorem matchesAll_cons {ls : List DenotedLiteral} {p : Literal} {ps : List Literal} :
    matchesAll ls (p :: ps) v = true ↔
      ∃ l ∈ ls, ∃ w, match? p l v = some w ∧ matchesAll ls ps w = true := by
  rw [matchesAll, List.any_eq_true]
  refine exists_congr fun l => and_congr_right fun _ => ?_
  cases match? p l v <;> simp

theorem matchesAll_iff {ls : List DenotedLiteral} {ps : List Literal} :
    matchesAll ls ps v = true ↔
      ∃ ν : String → Denotation, Extends ν v ∧ ∀ p ∈ ps, p.denotedUnder ν ∈ ls := by
  induction ps generalizing v with
  | nil => simpa [matchesAll] using exists_extends v
  | cons p ps ih =>
    simp only [matchesAll_cons, ih, List.forall_mem_cons]
    constructor
    · rintro ⟨l, hl, w, hw, ν, hν, hps⟩
      obtain ⟨hv, rfl⟩ := extends_match?.1 ⟨w, hw, hν⟩
      exact ⟨ν, hv, hl, hps⟩
    · rintro ⟨ν, hv, hp, hps⟩
      obtain ⟨w, hw, hν⟩ := extends_match?.2 ⟨hv, rfl⟩
      exact ⟨_, hp, w, hw, ν, hν, hps⟩

variable {r : Rule} {S : Situation}

/-- Literals violate a rule if, under one reading of its variables, all patterns are among them. -/
theorem violatedBy_iff {ls : List DenotedLiteral} :
    r.violatedBy ls = true ↔
      ∃ ν : String → Denotation, ∀ p ∈ r.patterns, p.denotedUnder ν ∈ ls := by
  rw [violatedBy, matchesAll_iff]
  exact exists_congr fun ν => and_iff_right (extends_empty ν)

/-! ## Rules and situations -/

/-- All patterns are true together for some choice of objects. -/
def HoldsIn (r : Rule) (S : Situation) : Prop :=
  ∃ ν : String → String, ∀ p ∈ r.patterns, S.holds (p.instantiate ν) = true

def HasDenied (r : Rule) : Prop := ∃ p ∈ r.patterns, p.negated = true

/-- If literals are true in a situation, as a model reads them, the patterns of a rule that they
violate are true there. -/
theorem holdsIn_of_violatedBy {m : Assignment} {ls : List DenotedLiteral}
    (hls : ∀ l ∈ ls, S.holds (l.read m) = true) (h : r.violatedBy ls = true) : r.HoldsIn S := by
  obtain ⟨ν, hν⟩ := violatedBy_iff.1 h
  refine ⟨fun name => m.object (ν name), fun p hp => ?_⟩
  rw [← DenotedLiteral.read_denotedUnder]
  exact hls _ (hν p hp)

theorem violatedBy_facts_iff (hS : S.Ground) :
    r.violatedBy (S.facts.toList.map DenotedLiteral.ofFact) = true ↔
      ¬ r.HasDenied ∧ r.HoldsIn S := by
  constructor
  · intro h
    refine ⟨?_, ?_⟩
    · rintro ⟨p, hp, hneg⟩
      obtain ⟨ν, hν⟩ := violatedBy_iff.1 h
      obtain ⟨a, _, ha⟩ := List.mem_map.1 (hν p hp)
      have hasserted : p.negated = false := (congrArg DenotedLiteral.negated ha).symm
      rw [hneg] at hasserted
      cases hasserted
    · refine holdsIn_of_violatedBy (m := default) (fun l hl => ?_) h
      obtain ⟨a, ha, rfl⟩ := List.mem_map.1 hl
      have ha := SortedSet.mem_toList.1 ha
      rw [DenotedLiteral.read_ofFact (hS a ha), Situation.holds_pos, decide_eq_true_iff]
      exact ha
  · rintro ⟨hasserted, ν, hν⟩
    refine violatedBy_iff.2 ⟨fun name => .object (ν name), fun p hp => ?_⟩
    have hneg : p.negated = false := Bool.eq_false_iff.2 fun hneg => hasserted ⟨p, hp, hneg⟩
    have hfact : p.atom.instantiate ν ∈ S.facts := (Situation.holds_iff.1 (hν p hp)).2 hneg
    refine List.mem_map.2 ⟨_, SortedSet.mem_toList.2 hfact, ?_⟩
    rw [DenotedLiteral.ofFact, Literal.denotedUnder, hneg, Atom.objects_instantiate, List.map_map]
    refine congrArg (DenotedLiteral.mk false p.atom.name) (List.map_congr_left fun x _ => ?_)
    cases x <;> rfl

end Rule

/-- A situation is coherent unless a rule without denied patterns is true in it. -/
theorem Situation.coherent_iff {S : Situation} (hS : S.Ground) {rules : List Rule} :
    S.coherent rules = true ↔ ∀ r ∈ rules, r.HoldsIn S → r.HasDenied := by
  rw [coherent, Bool.not_eq_true', List.any_eq_false]
  refine forall₂_congr fun r _ => ?_
  rw [Rule.violatedBy_facts_iff hS, not_and, not_imp_not]

end LiftedPlanning
