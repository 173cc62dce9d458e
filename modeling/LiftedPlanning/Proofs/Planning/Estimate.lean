import LiftedPlanning.Proofs.Planning.Forward
import LiftedPlanning.Proofs.Planning.SkeletonPath
import LiftedPlanning.Proofs.Planning.SubgoalPath
import LiftedPlanning.Proofs.World.Reading
import Mathlib.Data.List.Dedup

/-!
# How good the estimate is

The estimate divides the number of missing literals by the number of effects of the widest action.
A plan makes each missing literal true by an effect of one of its instances. But an effect makes one
ground literal true, and missing literals with variables may stand for the same one. So what every
plan costs at least is the estimate for the different readings of the missing literals, in all three
search spaces, and the estimate itself is admissible where no two of these literals can become the
same (`PlanningProblem.costsReadings_and_admissibleAt`). If two of them can, it need not be
(`PlanningProblem.not_admissibleAt_sharing`).
-/

namespace LiftedPlanning

def Assignment.readings (m : Assignment) (ls : List ScopedLiteral) : List Literal :=
  (ls.map m.literal).dedup

/-- No two literals of a list can become the same. -/
def Bindings.KeepsApart (c : Bindings) (ls : List ScopedLiteral) : Prop :=
  ls.Pairwise fun l k => l.negated = k.negated → c.unify? l.scope l.atom k.scope k.atom = none

instance (c : Bindings) (ls : List ScopedLiteral) : Decidable (c.KeepsApart ls) :=
  inferInstanceAs (Decidable (ls.Pairwise _))

/-- Whether a literal is asserted, or denies an atom that is known to be ground. -/
def Bindings.settles (c : Bindings) (l : ScopedLiteral) : Bool :=
  !l.negated || (c.ground? l.scope l.atom).isSome

theorem Bindings.KeepsApart.length_readings {c : Bindings} {ls : List ScopedLiteral}
    {m : Assignment} (h : c.KeepsApart ls) (hwell : c.WellFormed) (hm : m.Models c) :
    (m.readings ls).length = ls.length := by
  have hnodup : (ls.map m.literal).Nodup := by
    refine List.pairwise_map.2 (h.imp fun {l k} hlk heq => ?_)
    obtain ⟨hneg, hatom⟩ := Assignment.literal_eq_literal_iff.1 heq
    obtain ⟨d, hd, _⟩ := hwell.models_unify?.2 ⟨hm, hatom⟩
    cases (hlk hneg).symm.trans hd
  rw [Assignment.readings, hnodup.dedup, List.length_map]

/-- No path from the state to a final one costs less than is estimated. -/
def SearchSpace.AdmissibleAt {σ ο : Type} (P : SearchSpace σ ο Nat) (s : σ) : Prop :=
  ∀ os t, P.Path s os t → P.isFinal t = true → P.estimate s ≤ P.totalCost os

/-! ## What is counted -/

def Goal.unsatisfiedLiterals (g : Goal) (S : Situation) : List ScopedLiteral :=
  g.scopedLiterals.filter fun l => !S.couldHold l .empty

def Subgoal.missingLiterals (s : Subgoal) (S : Situation) : List ScopedLiteral :=
  s.literals.toList.filter fun l => !S.couldHold l s.bindings

def Skeleton.lacks (s : Skeleton) (S : Situation) (o : OpenCondition) : Bool :=
  !s.deniedInitially S o.proposition &&
    !s.steps.toList.any fun a =>
      decide (a ≠ o.step) && (a.establishing? o.proposition s.bindings).isSome

def Skeleton.unsupportedLiterals (s : Skeleton) (S : Situation) : List ScopedLiteral :=
  (s.openConditions.filter (s.lacks S)).map OpenCondition.proposition

theorem Goal.length_unsatisfiedLiterals (g : Goal) (S : Situation) :
    (g.unsatisfiedLiterals S).length = g.unsatisfied S :=
  List.countP_eq_length_filter.symm

theorem Subgoal.length_missingLiterals (s : Subgoal) (S : Situation) :
    (s.missingLiterals S).length = s.missing S :=
  List.countP_eq_length_filter.symm

theorem Skeleton.length_unsupportedLiterals (s : Skeleton) (S : Situation) :
    (s.unsupportedLiterals S).length = s.unsupported S := by
  rw [unsupportedLiterals, List.length_map]
  exact List.countP_eq_length_filter.symm

namespace PlanningProblem

variable {p : PlanningProblem} {m : Assignment} {ls : List ScopedLiteral} {c : Bindings}

/-- Every path from a state to a final one costs at least the estimate for the different readings of
a list of literals in some model of the bindings. -/
def CostsReadings {σ ο : Type} (p : PlanningProblem) (P : SearchSpace σ ο Nat) (s : σ)
    (c : Bindings) (ls : List ScopedLiteral) : Prop :=
  ∀ os t, P.Path s os t → P.isFinal t = true →
    ∃ m : Assignment, m.Models c ∧ p.estimate (m.readings ls).length ≤ P.totalCost os

theorem CostsReadings.admissibleAt {σ ο : Type} {P : SearchSpace σ ο Nat} {s : σ}
    (h : p.CostsReadings P s c ls) (hestimate : P.estimate s = p.estimate ls.length)
    (hwell : c.WellFormed) (hapart : c.KeepsApart ls) : P.AdmissibleAt s := by
  intro os t hpath hfinal
  obtain ⟨m, hm, hle⟩ := h os t hpath hfinal
  rwa [hestimate, ← hapart.length_readings hwell hm]

/-- If each literal of a list is made true by an effect of one of several instances, these are at
least as many as is estimated for the different readings of the literals. -/
theorem estimate_le_length {α : Type} {as : List α} {f : α → List Literal}
    (hmem : ∀ l ∈ ls, ∃ a ∈ as, m.literal l ∈ f a)
    (hwidth : ∀ a ∈ as, (f a).length ≤ Heuristic.widestEffect p.actions) :
    p.estimate (m.readings ls).length ≤ as.length := by
  rw [estimate]
  cases p.heuristic with
  | blind => exact Nat.zero_le _
  | goalCount =>
    refine Heuristic.estimate_goalCount_le_iff.2
      (length_le_length_mul (f := f) (List.nodup_dedup _) ?_ ?_)
    · intro k hk
      obtain ⟨l, hl, rfl⟩ := List.mem_map.1 (List.mem_dedup.1 hk)
      exact hmem l hl
    · exact fun a ha => Nat.le_trans (hwidth a ha) (Nat.le_max_left _ _)

/-! ## The three search spaces -/

theorem costsReadings_forward (hinitial : p.initial.Ground) {S : Situation}
    (hS : p.forward.Reachable S) :
    p.CostsReadings p.forward S .empty (p.goal.unsatisfiedLiterals S) := by
  intro is T hpath hfinal
  have hground := ground_of_reachable hinitial hS
  obtain rfl := eq_after_of_path hpath
  obtain ⟨ν, hν⟩ := (Goal.satisfiedBy_iff_certain (hground.after is)).1 hfinal
  have htrue : ∀ l ∈ p.goal.scopedLiterals,
      (S.after is).holds ((Goal.assignment ν).literal l) = true :=
    Goal.forall_mem_scopedLiterals.2 (hν ν fun _ _ _ => rfl)
  refine ⟨Goal.assignment ν, Assignment.models_empty _, ?_⟩
  rw [SearchSpace.totalCost_eq_length fun _ => rfl]
  refine estimate_le_length (f := Situation.changes) (fun l hl => ?_) fun i hi => ?_
  · obtain ⟨hl, hmissing⟩ := List.mem_filter.1 hl
    refine Situation.exists_mem_changes (Bool.eq_false_iff.2 fun hholds => ?_) (htrue l hl)
    have hcould := Situation.couldHold_of_holds hground Bindings.wellFormed_empty
      (Assignment.models_empty _) hholds
    simp [hcould] at hmissing
  · have haction := action_mem_of_path hpath i hi
    exact Nat.le_trans (Situation.length_changes_le i)
      (Heuristic.length_effects_le_widestEffect haction)

theorem costsReadings_backward (hinitial : p.initial.Ground) {s : Subgoal}
    (hs : p.backward.Reachable s) :
    p.CostsReadings p.backward s s.bindings (s.missingLiterals p.initial) := by
  intro rs t hpath hfinal
  have hwell := wellFormed_of_reachable hs
  obtain ⟨c, hverify⟩ := Option.isSome_iff_exists.1 hfinal
  obtain ⟨m, _, hmt, htrue⟩ :=
    exists_models_of_verification? hinitial (wellFormed_of_path hpath hwell) hverify
  have hms := models_of_path hpath hwell hmt
  refine ⟨m, hms, ?_⟩
  rw [SearchSpace.totalCost_eq_length fun _ => rfl]
  refine estimate_le_length (f := fun r => r.inst.effectsUnder m) (fun l hl => ?_)
    fun r hr => ?_
  · obtain ⟨hl, hmissing⟩ := List.mem_filter.1 hl
    rcases mem_or_achieves_of_path hpath hwell (SortedSet.mem_toList.1 hl) with hl | ⟨r, hr, hl⟩
    · have hcould := Situation.couldHold_of_holds hinitial hwell hms (htrue l hl)
      simp [hcould] at hmissing
    · exact ⟨r, hr, Instance.achieves_iff.1 (hl m hmt)⟩
  · rw [Instance.length_effectsUnder]
    exact Heuristic.length_effects_le_widestEffect (action_mem_of_subgoalPath hpath hwell hr)

theorem lacks_eq_false_of_achieves {s : Skeleton} {S : Situation} {o : OpenCondition}
    {a : Instance} (hwell : s.bindings.WellFormed) (hm : m.Models s.bindings) (ha : a ∈ s.steps)
    (hne : a ≠ o.step) (hachieves : a.Achieves m o.proposition) : s.lacks S o = false := by
  have hsome := Instance.isSome_establishing?_of_achieves hwell hm hachieves
  have hany : (s.steps.toList.any fun b =>
      decide (b ≠ o.step) && (b.establishing? o.proposition s.bindings).isSome) = true :=
    List.any_eq_true.2 ⟨a, SortedSet.mem_toList.2 ha, by simp [hne, hsome]⟩
  rw [Skeleton.lacks, hany]
  simp

theorem lacks_eq_false_of_denied {s : Skeleton} {S : Situation} {o : OpenCondition}
    (hm : m.Models s.bindings) (hsettled : s.bindings.settles o.proposition = true)
    (hneg : o.proposition.negated = true) (habsent : (m.literal o.proposition).atom ∉ S.facts) :
    s.lacks S o = false := by
  simp only [Bindings.settles, hneg, Bool.not_true, Bool.false_or] at hsettled
  obtain ⟨a, ha⟩ := Option.isSome_iff_exists.1 hsettled
  have hatom : (m.literal o.proposition).atom = a := Bindings.atom_eq_of_ground?_eq_some hm ha
  rw [hatom] at habsent
  simp [Skeleton.lacks, Skeleton.deniedInitially, hneg, ha, habsent]

theorem isComplete_of_extends {root s t : Skeleton} (hextends : t.Extends s)
    (hs : (p.refinement root).isFinal s = false) (ht : (p.refinement root).isFinal t = true) :
    t.isComplete = true := by
  have hempty : t.properSteps.isEmpty = true → s.properSteps.isEmpty = true := by
    simp only [List.isEmpty_iff, Skeleton.properSteps, List.filter_eq_nil_iff, Skeleton.isProper,
      SortedSet.mem_toList, hextends.start, hextends.finish]
    exact fun h a ha => h a (hextends.steps a ha)
  rcases Bool.or_eq_true_iff.1 ht with hcomplete | hfree
  · exact hcomplete
  · obtain ⟨hsatisfied, hnone⟩ := Bool.and_eq_true_iff.1 hfree
    have hfinal : (s.isComplete || (p.goal.satisfiedBy p.initial && s.properSteps.isEmpty)) =
        true := by
      rw [hsatisfied, hempty hnone]
      simp
    cases hs.symm.trans hfinal

theorem costsReadings_refinement (hactions : ∀ a ∈ p.actions, a.WellFormed) {root s : Skeleton}
    (hroot : Skeleton.ofGoal p.initial p.goal = .ok root) (hs : (p.refinement root).Reachable s)
    (hopen : (p.refinement root).isFinal s = false) :
    p.CostsReadings (p.refinement root) s s.bindings
      ((s.unsupportedLiterals p.initial).filter s.bindings.settles) := by
  intro rs t hpath hfinal
  have h := invariant_of_reachable hactions hroot hs
  have ht := invariant_of_reachable hactions hroot (hpath.reachable hs)
  have hextends := extends_of_path hactions h hpath
  have hcomplete := isComplete_of_extends hextends hopen hfinal
  obtain ⟨m, hm⟩ := ht.wellFormed.exists_models
  have hms := hextends.models m hm
  refine ⟨m, hms, ?_⟩
  rw [totalCost_refinement]
  refine estimate_le_length (f := Instance.effectsUnder m) (fun l hl => ?_) fun a ha => ?_
  · obtain ⟨hl, hsettled⟩ := List.mem_filter.1 hl
    obtain ⟨o, ho, rfl⟩ := List.mem_map.1 hl
    obtain ⟨ho, hlacks⟩ := List.mem_filter.1 ho
    obtain ⟨hstep, hrequired⟩ := h.required o ho
    rcases ht.provided o.step (hextends.steps _ hstep) _ hrequired with hcondition | ⟨k, hk, rest⟩
    · rw [(Skeleton.isComplete_iff.1 hcomplete).1] at hcondition
      cases hcondition
    · obtain ⟨hconsumer, hproposition⟩ := rest
      have hlink := ht.orderly _ (ht.ordered k hk)
      rcases ht.supplied k hk m hm with hachieves | ⟨_, hneg, habsent⟩
      · rw [hproposition] at hachieves
        rcases (mem_steps_of_path hpath).1 hlink.first_mem with hold | hnew
        · have hne : k.producer ≠ o.step := hconsumer ▸ hlink.first_ne_second
          rw [lacks_eq_false_of_achieves h.wellFormed hms hold hne hachieves] at hlacks
          cases hlacks
        · exact ⟨k.producer, hnew, Instance.achieves_iff.1 hachieves⟩
      · rw [hproposition] at hneg habsent
        rw [lacks_eq_false_of_denied hms hsettled hneg habsent] at hlacks
        cases hlacks
  · rw [Instance.length_effectsUnder]
    exact Heuristic.length_effects_le_widestEffect (action_mem_of_added hpath a ha)

/-- In all three search spaces a path to a final state costs at least the estimate for the different
readings of the literals that are counted, and if no two of these can become the same, at least the
estimate. Of a skeleton this is so unless it is final, with the open preconditions that are asserted
or known to be ground: the first step may deny any other one as soon as it is ground. -/
theorem costsReadings_and_admissibleAt (hinitial : p.initial.Ground)
    (hactions : ∀ a ∈ p.actions, a.WellFormed) :
    (∀ S, p.forward.Reachable S →
      p.CostsReadings p.forward S .empty (p.goal.unsatisfiedLiterals S) ∧
        (Bindings.empty.KeepsApart (p.goal.unsatisfiedLiterals S) → p.forward.AdmissibleAt S)) ∧
    (∀ s, p.backward.Reachable s →
      p.CostsReadings p.backward s s.bindings (s.missingLiterals p.initial) ∧
        (s.bindings.KeepsApart (s.missingLiterals p.initial) → p.backward.AdmissibleAt s)) ∧
    ∀ root, Skeleton.ofGoal p.initial p.goal = .ok root → ∀ s, (p.refinement root).Reachable s →
      (p.refinement root).isFinal s = false →
        p.CostsReadings (p.refinement root) s s.bindings
          ((s.unsupportedLiterals p.initial).filter s.bindings.settles) ∧
        ((∀ l ∈ s.unsupportedLiterals p.initial, s.bindings.settles l = true) →
          s.bindings.KeepsApart (s.unsupportedLiterals p.initial) →
            (p.refinement root).AdmissibleAt s) := by
  refine ⟨fun S hS => ?_, fun s hs => ?_, fun root hroot s hs hopen => ?_⟩
  · have hcosts := costsReadings_forward hinitial hS
    refine ⟨hcosts, hcosts.admissibleAt ?_ Bindings.wellFormed_empty⟩
    rw [Goal.length_unsatisfiedLiterals]
    rfl
  · have hcosts := costsReadings_backward hinitial hs
    refine ⟨hcosts, hcosts.admissibleAt ?_ (wellFormed_of_reachable hs)⟩
    rw [Subgoal.length_missingLiterals]
    rfl
  · have hcosts := costsReadings_refinement hactions hroot hs hopen
    refine ⟨hcosts, fun hsettled => ?_⟩
    rw [List.filter_eq_self.2 hsettled] at hcosts
    refine hcosts.admissibleAt ?_ (invariant_of_reachable hactions hroot hs).wellFormed
    rw [Skeleton.length_unsupportedLiterals]
    rfl

def marking : PlanningProblem where
  initial := .ofAtoms [⟨"q", [.const "A"]⟩, ⟨"q", [.const "B"]⟩]
  actions := [⟨"mark", ["x"], [.pos ⟨"q", [.var "x"]⟩], [.pos ⟨"p", [.var "x"]⟩]⟩]
  goal := ⟨[.pos ⟨"p", [.const "A"]⟩, .pos ⟨"p", [.const "B"]⟩]⟩
  rules := []
  heuristic := .goalCount

def markingRoot : Skeleton :=
  .frame (.lifted ⟨"start", [], [], [.pos ⟨"q", [.const "A"]⟩, .pos ⟨"q", [.const "B"]⟩]⟩ ⟨1⟩)
    (.lifted ⟨"finish", [], marking.goal.literals, []⟩ ⟨2⟩)

theorem admissibleAt_marking :
    (marking.forward.AdmissibleAt marking.initial ∧
      marking.forward.estimate marking.initial = 2) ∧
    (marking.backward.AdmissibleAt (.ofGoal marking.goal) ∧
      marking.backward.estimate (.ofGoal marking.goal) = 2) ∧
    (marking.refinement markingRoot).AdmissibleAt markingRoot ∧
      (marking.refinement markingRoot).estimate markingRoot = 2 := by
  obtain ⟨hforward, hbackward, hrefinement⟩ :=
    costsReadings_and_admissibleAt (p := marking) (Situation.ground_ofAtoms _) (by decide)
  have hroot : Skeleton.ofGoal marking.initial marking.goal = .ok markingRoot := by rfl
  have hopen : (marking.refinement markingRoot).isFinal markingRoot = false := by decide
  refine ⟨⟨(hforward _ .initial).2 (by decide), by decide⟩,
    ⟨(hbackward _ .initial).2 (by decide), by decide⟩, ?_, by decide⟩
  exact (hrefinement _ hroot _ .initial hopen).2 (by decide) (by decide)

/-- One object has to be marked, and some object. One instance marks both if they are the same. -/
def sharing : PlanningProblem where
  initial := .ofAtoms []
  actions := [⟨"mark", [], [], [.pos ⟨"p", [.const "A"]⟩]⟩]
  goal := ⟨[.pos ⟨"p", [.const "A"]⟩, .pos ⟨"p", [.var "y"]⟩]⟩
  rules := []
  heuristic := .goalCount

/-- Where missing literals can become the same, the estimate may be more than a plan costs. -/
theorem not_admissibleAt_sharing :
    ¬ sharing.forward.AdmissibleAt sharing.initial ∧
      ¬ sharing.backward.AdmissibleAt (.ofGoal sharing.goal) := by
  constructor
  · intro h
    have hpath : sharing.forward.Path sharing.initial
        [(Instance.lifted ⟨"mark", [], [], [.pos ⟨"p", [.const "A"]⟩]⟩ ⟨1⟩).ground .empty]
        (.ofAtoms [⟨"p", [.const "A"]⟩]) :=
      .cons (by decide) (by decide) (.nil _)
    exact absurd (h _ _ hpath (by decide)) (by decide)
  · intro h
    let r : Regression :=
      ⟨.lifted ⟨"mark", [], [], [.pos ⟨"p", [.const "A"]⟩]⟩ ⟨1⟩,
        .ofList sharing.goal.scopedLiterals,
        ⟨.empty, SortedMap.empty.insert ⟨.goal, "y"⟩ "A", .empty⟩⟩
    have hpath : sharing.backward.Path (.ofGoal sharing.goal) [r]
        ((Subgoal.ofGoal sharing.goal).regress r) :=
      .cons (by decide) (by decide) (.nil _)
    exact absurd (h _ _ hpath (by decide)) (by decide)

end PlanningProblem

end LiftedPlanning
