import LiftedPlanning.Proofs.World.Execution
import LiftedPlanning.Regression.Subgoal

/-!
# One regression

In every model of its bindings, a regression of a subgoal achieves the literals that it is said to
achieve and undoes none of the others (`Subgoal.supports_of_mem_regressions`). If the regressed
subgoal is true in a situation, the grounded instance is therefore applicable there, and after it
the subgoal is true (`Subgoal.TrueUnder.of_regress`).
-/

namespace LiftedPlanning

namespace Subgoal

variable {s : Subgoal} {r : Regression} {i : Instance} {m : Assignment} {S : Situation}
  {target : ScopedLiteral} {effect : Literal}

/-- All literals of a subgoal are true in a situation, as a model reads them. -/
def TrueUnder (s : Subgoal) (m : Assignment) (S : Situation) : Prop :=
  ∀ l ∈ s.literals, S.holds (m.literal l) = true

/-- What the bindings of a regression ensure. -/
structure Supports (s : Subgoal) (r : Regression) : Prop where
  wellFormed : r.bindings.WellFormed
  models : ∀ m : Assignment, m.Models r.bindings → m.Models s.bindings
  achieves : ∀ m : Assignment, m.Models r.bindings → ∀ l ∈ r.achieved, r.inst.Achieves m l
  keeps : ∀ m : Assignment, m.Models r.bindings → ∀ l ∈ s.literals,
    l ∉ r.achieved ∨ l.negated = true → ¬ r.inst.Undoes m l

def achievedBy (s : Subgoal) (i : Instance) (target : ScopedLiteral) (c : Bindings) :
    SortedSet ScopedLiteral :=
  s.literals.filter fun l => decide (l = target) || i.asserts l c

def exposed (s : Subgoal) (achieved : SortedSet ScopedLiteral) : List ScopedLiteral :=
  s.literals.toList.filter fun l => decide (l ∉ achieved) || l.negated

theorem mem_achievedBy {c : Bindings} {l : ScopedLiteral} :
    l ∈ s.achievedBy i target c ↔ l ∈ s.literals ∧ (l = target ∨ i.asserts l c = true) := by
  rw [achievedBy, SortedSet.mem_filter, Bool.or_eq_true, decide_eq_true_iff]

theorem mem_exposed {achieved : SortedSet ScopedLiteral} {l : ScopedLiteral} :
    l ∈ s.exposed achieved ↔ l ∈ s.literals ∧ (l ∉ achieved ∨ l.negated = true) := by
  rw [exposed, List.mem_filter, SortedSet.mem_toList, Bool.or_eq_true, decide_eq_true_iff]

theorem mem_regressionsVia :
    r ∈ s.regressionsVia i target effect ↔
      ∃ c, i.unify? effect.atom target s.bindings = some c ∧
        ∃ d ∈ i.protecting (s.exposed (s.achievedBy i target c)) c,
          r = ⟨i, s.achievedBy i target c, d⟩ := by
  rw [regressionsVia]
  cases i.unify? effect.atom target s.bindings with
  | none => simp
  | some c =>
    simp only [Option.some.injEq, exists_eq_left', List.mem_map]
    exact exists_congr fun d => and_congr_right fun _ => eq_comm

theorem mem_regressions {actions : List Action} :
    r ∈ s.regressions actions ↔
      ∃ action ∈ actions, ∃ target ∈ s.literals,
        ∃ effect ∈ (Instance.lifted action s.supply.next).effectsOf target.negated,
          r ∈ s.regressionsVia (.lifted action s.supply.next) target effect := by
  simp only [regressions, List.mem_eraseDups, List.mem_flatMap, SortedSet.mem_toList]

theorem exists_effect_of_mem_regressionsVia (h : s.bindings.WellFormed)
    (heffect : effect ∈ i.effectsOf target.negated) (hr : r ∈ s.regressionsVia i target effect)
    {l : ScopedLiteral} (hl : l ∈ r.achieved) :
    ∃ e ∈ i.effectsOf l.negated, ∀ m : Assignment, m.Models r.bindings →
      m.atom i.scope e.atom = (m.literal l).atom := by
  obtain ⟨c, hc, d, hd, rfl⟩ := mem_regressionsVia.1 hr
  have hwell : c.WellFormed := h.wellFormed_unify? hc
  have hmodels : ∀ m : Assignment, m.Models d → m.Models c := fun m hm =>
    ((Instance.models_protecting hwell).1 ⟨d, hd, hm⟩).1
  rcases (mem_achievedBy.1 hl).2 with rfl | hasserts
  · refine ⟨effect, heffect, fun m hm => ?_⟩
    exact ((Instance.models_unify? h).1 ⟨c, hc, hmodels m hm⟩).2
  · obtain ⟨e, he, hsame⟩ := List.any_eq_true.1 hasserts
    exact ⟨e, he, fun m hm => hwell.codesignate_iff.1 hsame m (hmodels m hm)⟩

theorem supports_of_mem_regressionsVia (h : s.bindings.WellFormed)
    (heffect : effect ∈ i.effectsOf target.negated) (hr : r ∈ s.regressionsVia i target effect) :
    r.inst = i ∧ s.Supports r := by
  have hachieves := fun l => exists_effect_of_mem_regressionsVia h heffect hr (l := l)
  obtain ⟨c, hc, d, hd, rfl⟩ := mem_regressionsVia.1 hr
  have hwell : c.WellFormed := h.wellFormed_unify? hc
  refine ⟨rfl, Instance.wellFormed_of_mem_protecting hwell hd, ?_, ?_, ?_⟩
  · intro m hm
    obtain ⟨hm, _⟩ := (Instance.models_protecting hwell).1 ⟨d, hd, hm⟩
    exact ((Instance.models_unify? h).1 ⟨c, hc, hm⟩).1
  · intro m hm l hl
    obtain ⟨e, he, hsame⟩ := hachieves l hl
    exact ⟨e, he, hsame m hm⟩
  · intro m hm l hl hexposed
    exact ((Instance.models_protecting hwell).1 ⟨d, hd, hm⟩).2 l (mem_exposed.2 ⟨hl, hexposed⟩)

theorem supports_of_mem_regressions (h : s.bindings.WellFormed) {actions : List Action}
    (hr : r ∈ s.regressions actions) :
    (∃ action ∈ actions, r.inst = .lifted action s.supply.next) ∧ s.Supports r := by
  obtain ⟨action, haction, target, _, effect, heffect, hr⟩ := mem_regressions.1 hr
  obtain ⟨hinst, hsupports⟩ := supports_of_mem_regressionsVia h heffect hr
  exact ⟨⟨action, haction, hinst⟩, hsupports⟩

theorem exists_effect_of_mem_regressions (h : s.bindings.WellFormed) {actions : List Action}
    (hr : r ∈ s.regressions actions) {l : ScopedLiteral} (hl : l ∈ r.achieved) :
    ∃ e ∈ r.inst.effectsOf l.negated, ∀ m : Assignment, m.Models r.bindings →
      m.atom r.inst.scope e.atom = (m.literal l).atom := by
  obtain ⟨action, _, target, _, effect, heffect, hr⟩ := mem_regressions.1 hr
  obtain ⟨hinst, _⟩ := supports_of_mem_regressionsVia h heffect hr
  rw [hinst]
  exact exists_effect_of_mem_regressionsVia h heffect hr hl

/-! ## Required literals -/

variable {c : Bindings} {ls : SortedSet ScopedLiteral} {l : ScopedLiteral}

theorem mem_require_of_mem (hl : l ∈ ls) (p : ScopedLiteral) : l ∈ require c ls p := by
  rw [require]
  split
  · exact hl
  · exact SortedSet.mem_insert.2 (.inr hl)

/-- A required literal is in the set, or another one that stands for the same in all models. -/
theorem exists_mem_require (h : c.WellFormed) (ls : SortedSet ScopedLiteral) (p : ScopedLiteral) :
    ∃ l ∈ require c ls p, ∀ m : Assignment, m.Models c → m.literal l = m.literal p := by
  rw [require]
  split
  · next hsame =>
    obtain ⟨l, hl, hsame⟩ := List.any_eq_true.1 hsame
    rw [Bool.and_eq_true, decide_eq_true_iff] at hsame
    refine ⟨l, hl, fun m hm => Assignment.literal_eq_literal_iff.2 ⟨hsame.1, ?_⟩⟩
    exact h.codesignate_iff.1 hsame.2 m hm
  · exact ⟨p, SortedSet.mem_insert.2 (.inl rfl), fun _ _ => rfl⟩

theorem mem_foldl_require_of_mem {ps : List ScopedLiteral} (hl : l ∈ ls) :
    l ∈ ps.foldl (require c) ls := by
  induction ps generalizing ls with
  | nil => exact hl
  | cons p ps ih => exact ih (mem_require_of_mem hl p)

theorem exists_mem_foldl_require (h : c.WellFormed) {ps : List ScopedLiteral} {p : ScopedLiteral}
    (hp : p ∈ ps) :
    ∃ l ∈ ps.foldl (require c) ls, ∀ m : Assignment, m.Models c → m.literal l = m.literal p := by
  induction ps generalizing ls with
  | nil => cases hp
  | cons q qs ih =>
    rw [List.foldl_cons]
    rcases List.mem_cons.1 hp with rfl | hp
    · obtain ⟨l, hl, hsame⟩ := exists_mem_require h ls p
      exact ⟨l, mem_foldl_require_of_mem hl, hsame⟩
    · exact ih hp

/-! ## The step -/

theorem TrueUnder.holds_preconditions (h : (s.regress r).TrueUnder m S) (hsupports : s.Supports r)
    (hm : m.Models r.bindings) :
    ∀ l ∈ r.inst.preconditions, S.holds (m.literal l) = true := by
  intro p hp
  have hrequired : ∃ l ∈ (s.regress r).literals,
      ∀ m : Assignment, m.Models r.bindings → m.literal l = m.literal p :=
    exists_mem_foldl_require hsupports.wellFormed hp
  obtain ⟨l, hl, hsame⟩ := hrequired
  rw [← hsame m hm]
  exact h l hl

/-- Executing the instance of a regression where the regressed subgoal is true makes the subgoal
true. -/
theorem TrueUnder.of_regress {d : Bindings} (h : (s.regress r).TrueUnder m S)
    (hsupports : s.Supports r) (hmd : m.Models d) (hm : m.Models r.bindings)
    (hwell : r.inst.action.WellFormed) (hground : (r.inst.ground d).isGround = true) :
    s.TrueUnder m (S.apply (r.inst.ground d)) := by
  intro l hl
  refine Situation.holds_apply_ground hmd hwell hground ?_ ?_
  · by_cases hachieved : l ∈ r.achieved
    · exact .inr (hsupports.achieves m hm l hachieved)
    · refine .inl (h l (mem_foldl_require_of_mem ?_))
      exact SortedSet.mem_diff.2 ⟨hl, hachieved⟩
  · by_cases hachieved : l ∈ r.achieved
    · cases hneg : l.negated with
      | false => exact .inl ⟨rfl, hsupports.achieves m hm l hachieved⟩
      | true => exact .inr (hsupports.keeps m hm l hl (.inr hneg))
    · exact .inr (hsupports.keeps m hm l hl (.inl hachieved))

end Subgoal

end LiftedPlanning
