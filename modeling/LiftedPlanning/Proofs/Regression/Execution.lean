import LiftedPlanning.Proofs.Bindings.Value
import LiftedPlanning.Proofs.Regression.Step
import LiftedPlanning.Proofs.World.Reading

/-!
# Regressing an execution

An instance that makes a subgoal true can be regressed, if one of the literals that it achieves can
be chosen so that the others are then known to be achieved (`Subgoal.exists_regression`): the
regressed subgoal is true before. A subgoal that is true in some model is verified if its asserted
literals determine its denied ones (`Subgoal.verifiedBy_of_trueUnder`).
-/

namespace LiftedPlanning

namespace Subgoal

variable {s : Subgoal} {r : Regression} {i j : Instance} {m m' : Assignment} {S : Situation}
  {target l : ScopedLiteral} {e : Literal} {c d : Bindings} {actions : List Action}

/-- The scopes of the supply are still unused. -/
structure Fresh (s : Subgoal) : Prop where
  bindings : s.bindings.Within s.supply.next.toNat
  literals : ∀ l ∈ s.literals, l.scopeId.toNat < s.supply.next.toNat

/-- In a model of its bindings, executing an instance makes a subgoal true. -/
structure MadeTrue (s : Subgoal) (m : Assignment) (S : Situation) (i : Instance) : Prop where
  models : m.Models s.bindings
  after : s.TrueUnder m (S.apply i)
  before : ¬ s.TrueUnder m S

/-- One of the literals that an instance achieves in a model can be chosen so that, once it is
achieved, all the others are known to be achieved. -/
def Outright (s : Subgoal) (m : Assignment) (i : Instance) : Prop :=
  ∃ target ∈ s.literals, ∃ e ∈ i.effectsOf target.negated,
    e.atom.instantiate i.values = (m.literal target).atom ∧
      ∀ c, (Instance.lifted i.action s.supply.next).unify? e.atom target s.bindings = some c →
        ∀ l ∈ s.literals, m.literal l ∈ Situation.changes i →
          (Instance.lifted i.action s.supply.next).asserts l c = true

/-- Whichever effect achieves whichever literal, each other literal that the instance could achieve
as well is then known to be achieved. -/
def Unambiguous (s : Subgoal) (actions : List Action) : Prop :=
  ∀ action ∈ actions, ∀ target ∈ s.literals,
    ∀ e ∈ (Instance.lifted action s.supply.next).effectsOf target.negated, ∀ c,
      (Instance.lifted action s.supply.next).unify? e.atom target s.bindings = some c →
        ∀ l ∈ s.literals, ((Instance.lifted action s.supply.next).establishing? l c).isSome = true →
          (Instance.lifted action s.supply.next).asserts l c = true

/-- Each variable of a denied literal has a value, or stands for the same as a variable of an
asserted literal. -/
def RangeRestricted (s : Subgoal) : Prop :=
  ∀ l ∈ s.literals, l.negated = true → ∀ x ∈ l.atom.vars,
    (s.bindings.value? l.scope x).isSome = true ∨
      ∃ k ∈ s.literals, k.negated = false ∧ ∃ y ∈ k.atom.vars,
        s.bindings.denote l.scope (.var x) = s.bindings.denote k.scope (.var y)

instance (s : Subgoal) (actions : List Action) : Decidable (s.Unambiguous actions) :=
  inferInstanceAs (Decidable (∀ action ∈ actions, ∀ target ∈ s.literals.toList,
    ∀ e ∈ (Instance.lifted action s.supply.next).effectsOf target.negated,
      ∀ c ∈ (Instance.lifted action s.supply.next).unify? e.atom target s.bindings,
        ∀ l ∈ s.literals.toList, _ → _))

instance (s : Subgoal) : Decidable s.RangeRestricted :=
  inferInstanceAs (Decidable (∀ l ∈ s.literals.toList, l.negated = true → ∀ x ∈ l.atom.vars,
    (s.bindings.value? l.scope x).isSome = true ∨ ∃ k ∈ s.literals.toList, _))

theorem mem_require {ls : SortedSet ScopedLiteral} {p : ScopedLiteral} (hl : l ∈ require c ls p) :
    l = p ∨ l ∈ ls := by
  rw [require] at hl
  split at hl
  · exact .inr hl
  · exact SortedSet.mem_insert.1 hl

theorem mem_foldl_require {ls : SortedSet ScopedLiteral} {ps : List ScopedLiteral}
    (hl : l ∈ ps.foldl (require c) ls) : l ∈ ps ∨ l ∈ ls := by
  induction ps generalizing ls with
  | nil => exact .inr hl
  | cons p ps ih =>
    rcases ih hl with hps | hrequire
    · exact .inl (List.mem_cons_of_mem _ hps)
    · rcases mem_require hrequire with rfl | hls
      · exact .inl (List.mem_cons_self ..)
      · exact .inr hls

/-- The literals of a regressed subgoal are preconditions, or were not achieved. -/
theorem mem_literals_regress (hl : l ∈ (s.regress r).literals) :
    l ∈ r.inst.preconditions ∨ (l ∈ s.literals ∧ l ∉ r.achieved) :=
  (mem_foldl_require hl).imp_right SortedSet.mem_diff.1

/-! ## The regression -/

theorem fresh_ofGoal (g : Goal) : (Subgoal.ofGoal g).Fresh := by
  refine ⟨Bindings.within_empty _, fun l hl => ?_⟩
  obtain ⟨k, _, rfl⟩ := List.mem_map.1 (SortedSet.mem_ofList.1 hl)
  exact Nat.zero_lt_one

theorem Fresh.regress (h : s.Fresh) (hscope : r.inst.scope.id = s.supply.next)
    (hwithin : r.bindings.Within s.supply.next.succ.toNat) : (s.regress r).Fresh := by
  refine ⟨hwithin, fun l hl => ?_⟩
  rcases mem_literals_regress hl with hl | ⟨hl, _⟩
  · obtain ⟨p, _, rfl⟩ := List.mem_map.1 hl
    rw [hscope]
    exact Nat.lt_succ_self _
  · exact Nat.lt_succ_of_lt (h.literals l hl)

theorem Fresh.of_mem_regressionsVia {action : Action} (h : s.Fresh) (htarget : target ∈ s.literals)
    (hr : r ∈ s.regressionsVia (.lifted action s.supply.next) target e) : (s.regress r).Fresh := by
  obtain ⟨c, hc, d, hd, rfl⟩ := mem_regressionsVia.1 hr
  have hnext : s.supply.next.toNat < s.supply.next.succ.toNat := Nat.lt_succ_self _
  have hliterals : ∀ l ∈ s.literals, l.scopeId.toNat < s.supply.next.succ.toNat := fun l hl =>
    Nat.lt_succ_of_lt (h.literals l hl)
  have hwithin : c.Within s.supply.next.succ.toNat :=
    (h.bindings.mono (Nat.le_succ _)).unify? hnext (hliterals target htarget) hc
  refine h.regress rfl (hwithin.of_mem_protecting hnext (fun l hl => ?_) hd)
  exact hliterals l (mem_exposed.1 hl).1

theorem Fresh.of_mem_regressions (h : s.Fresh) (hr : r ∈ s.regressions actions) :
    (s.regress r).Fresh := by
  obtain ⟨_, _, target, htarget, _, _, hr⟩ := mem_regressions.1 hr
  exact h.of_mem_regressionsVia htarget hr

theorem exists_mem_regressionsVia (hwell : s.bindings.WellFormed) (hm : m.Models s.bindings)
    (heffect : m.atom i.scope e.atom = (m.literal target).atom)
    (hunharmed : ∀ c, i.unify? e.atom target s.bindings = some c → m.Models c →
      ∀ l ∈ s.exposed (s.achievedBy i target c), ¬ i.Undoes m l) :
    ∃ c, i.unify? e.atom target s.bindings = some c ∧ m.Models c ∧
      ∃ r ∈ s.regressionsVia i target e, r.achieved = s.achievedBy i target c ∧
        m.Models r.bindings := by
  obtain ⟨c, hc, hmc⟩ := (Instance.models_unify? hwell).2 ⟨hm, heffect⟩
  obtain ⟨d, hd, hmd⟩ := (Instance.models_protecting (hwell.wellFormed_unify? hc)).2
    ⟨hmc, hunharmed c hc hmc⟩
  exact ⟨c, hc, hmc, _, mem_regressionsVia.2 ⟨c, hc, d, hd, rfl⟩, rfl, hmd⟩

/-- What is true after an execution is achieved by the lifted instance, or was true before and is
not undone by it. -/
theorem holds_or_achieves (hreads : m.Reads j i) (hwell : i.action.WellFormed)
    (hafter : (S.apply i).holds (m.literal l) = true) :
    j.Achieves m l ∨ (S.holds (m.literal l) = true ∧ ¬ j.Undoes m l) := by
  rw [Instance.achieves_iff, Instance.undoes_iff, hreads.effectsUnder_eq hwell]
  by_cases hchanged : m.literal l ∈ Situation.changes i
  · exact .inl hchanged
  · exact .inr (Situation.holds_before hafter hchanged)

theorem not_undoes_of_negated (hreads : m.Reads j i) (hwell : i.action.WellFormed)
    (hafter : (S.apply i).holds (m.literal l) = true) (hneg : l.negated = true) :
    ¬ j.Undoes m l := by
  rw [Instance.undoes_iff, hreads.effectsUnder_eq hwell]
  intro hadded
  rw [Situation.holds_literal_iff, Situation.mem_facts_apply, Situation.mem_groundEffects,
    Situation.mem_groundEffects, hneg] at hafter
  have hpresent : (⟨false, (m.literal l).atom⟩ : Literal) ∈ Situation.changes i := by
    have hnegate : (m.literal l).negate = ⟨false, (m.literal l).atom⟩ := by
      rw [Literal.negate, Assignment.negated_literal, hneg]
      rfl
    rwa [← hnegate]
  exact Bool.noConfusion (hafter.1 (.inr hpresent))

/-- The next scope is unused, so a model can be changed to read a new instance as a ground one. -/
theorem Fresh.exists_reads (hs : s.Fresh) (hm : m.Models s.bindings) (hground : i.isGround = true) :
    ∃ m' : Assignment, m'.Reads (.lifted i.action s.supply.next) i ∧ m'.Models s.bindings ∧
      (∀ l ∈ s.literals, m'.literal l = m.literal l) ∧
        m'.inScope (.lifted s.supply.next) = i.values := by
  have hagrees := Assignment.agrees_extend m s.supply.next i.values
  exact ⟨m.extend s.supply.next i.values, Assignment.reads_extend m s.supply.next hground,
    hs.bindings.models hagrees hm, fun l hl => hagrees.literal (hs.literals l hl),
    Assignment.inScope_extend m s.supply.next i.values⟩

/-- If executing an instance makes a subgoal true, some regression through its action leads to a
subgoal that is true before. -/
theorem exists_regression (hs : s.Fresh) (hwell : s.bindings.WellFormed)
    (haction : i.action ∈ actions) (hschema : i.action.WellFormed) (hground : i.isGround = true)
    (happlicable : S.applicable i = true) (hmade : s.MadeTrue m S i) (houtright : s.Outright m i) :
    ∃ r ∈ s.regressions actions, ∃ m' : Assignment, m'.Models r.bindings ∧
      (s.regress r).TrueUnder m' S := by
  let j := Instance.lifted i.action s.supply.next
  obtain ⟨m', hreads, hm', hliteral, hscope⟩ := hs.exists_reads hmade.models hground
  have hafter : ∀ l ∈ s.literals, (S.apply i).holds (m'.literal l) = true := fun l hl =>
    hliteral l hl ▸ hmade.after l hl
  obtain ⟨target, htarget, e, he, hvalue, hknown⟩ := houtright
  have he : e ∈ j.effectsOf target.negated := he
  have heq : m'.atom j.scope e.atom = (m'.literal target).atom := by
    rw [hliteral target htarget, ← hvalue, Assignment.atom]
    exact congrArg e.atom.instantiate hscope
  -- Whatever else the instance achieves, the regression is said to achieve.
  have hothers : ∀ c, j.unify? e.atom target s.bindings = some c →
      ∀ l ∈ s.literals, j.Achieves m' l → l ∈ s.achievedBy j target c := by
    intro c hc l hl hachieves
    rw [Instance.achieves_iff, hreads.effectsUnder_eq hschema, hliteral l hl] at hachieves
    exact mem_achievedBy.2 ⟨hl, .inr (hknown c hc l hl hachieves)⟩
  obtain ⟨c, hc, hmc, r, hr, hachieved, hmr⟩ :=
    exists_mem_regressionsVia (e := e) hwell hm' heq fun c hc hmc l hl => by
      obtain ⟨hl, hexposed⟩ := mem_exposed.1 hl
      rcases hexposed with hmissed | hneg
      · rcases holds_or_achieves hreads hschema (hafter l hl) with hachieves | ⟨_, hkept⟩
        · exact absurd (hothers c hc l hl hachieves) hmissed
        · exact hkept
      · exact not_undoes_of_negated hreads hschema (hafter l hl) hneg
  have hinst : r.inst = j := (supports_of_mem_regressionsVia hwell he hr).1
  refine ⟨r, mem_regressions.2 ⟨_, haction, target, htarget, e, he, hr⟩, m', hmr, fun l hl => ?_⟩
  rcases mem_literals_regress hl with hl | ⟨hl, hmissed⟩
  · rw [hinst] at hl
    exact (hreads.applicable_iff hschema rfl).1 happlicable l hl
  · rcases holds_or_achieves hreads hschema (hafter l hl) with hachieves | ⟨hholds, _⟩
    · exact absurd (hachieved ▸ hothers c hc l hl hachieves) hmissed
    · exact hholds

theorem Unambiguous.outright (h : s.Unambiguous actions) (hs : s.Fresh)
    (hwell : s.bindings.WellFormed) (haction : i.action ∈ actions)
    (hschema : i.action.WellFormed) (hground : i.isGround = true) (hmade : s.MadeTrue m S i) :
    s.Outright m i := by
  let j := Instance.lifted i.action s.supply.next
  obtain ⟨m', hreads, hm', hliteral, hscope⟩ := hs.exists_reads hmade.models hground
  -- Some literal becomes true. It is the one to choose.
  obtain ⟨target, htarget, hfalse⟩ : ∃ l ∈ s.literals, ¬ S.holds (m.literal l) = true := by
    by_contra hnone
    refine hmade.before fun l hl => ?_
    by_contra hl'
    exact hnone ⟨l, hl, hl'⟩
  have hchanged : m.literal target ∈ Situation.changes i := by
    by_contra hunchanged
    exact hfalse (Situation.holds_before (hmade.after target htarget) hunchanged).1
  obtain ⟨e, he, heq⟩ : j.Achieves m' target := by
    rw [Instance.achieves_iff, hreads.effectsUnder_eq hschema, hliteral target htarget]
    exact hchanged
  refine ⟨target, htarget, e, he, ?_, fun c hc l hl hl' => ?_⟩
  · rw [← hliteral target htarget, ← heq, Assignment.atom]
    exact congrArg e.atom.instantiate hscope.symm
  · obtain ⟨c', hc', hmc⟩ := (Instance.models_unify? hwell).2 ⟨hm', heq⟩
    cases hc.symm.trans hc'
    have hachieves : j.Achieves m' l := by
      rw [Instance.achieves_iff, hreads.effectsUnder_eq hschema, hliteral l hl]
      exact hl'
    exact h _ haction target htarget e he c hc l hl
      (Instance.isSome_establishing?_of_achieves (hwell.wellFormed_unify? hc) hmc hachieves)

/-! ## Subgoals that are true in a model -/

theorem verifiedBy_of_trueUnder (hS : S.Ground) (hwell : s.bindings.WellFormed)
    (hm : m.Models s.bindings) (h : s.TrueUnder m S) (hrestricted : s.RangeRestricted) :
    s.verifiedBy S = true := by
  have hmatching : ∃ d ∈ S.matchings s.literals.toList s.bindings, m.Models d := by
    refine (Situation.models_matchings hS hwell).2 ⟨hm, fun n hn hsame l hl => ?_⟩
    have hl := SortedSet.mem_toList.1 hl
    -- Models that read the asserted literals alike read the variables of the denied ones alike.
    have hread : n.literal l = m.literal l := by
      cases hneg : l.negated with
      | false => exact hsame l (SortedSet.mem_toList.2 hl) hneg
      | true =>
        refine Assignment.literal_eq_literal_iff.2 ⟨rfl, Atom.instantiate_eq_iff_vars.2 ?_⟩
        intro x hx
        rcases hrestricted l hl hneg x hx with hvalue | ⟨k, hk, hkneg, y, hy, hdenote⟩
        · obtain ⟨o, ho⟩ := Option.isSome_iff_exists.1 hvalue
          have hterm := hwell.value?_eq_some_iff.1 ho
          exact (hterm n hn).trans (hterm m hm).symm
        · have hterm := hwell.denote_eq_iff.1 hdenote
          have hatom := (Assignment.literal_eq_literal_iff.1
            (hsame k (SortedSet.mem_toList.2 hk) hkneg)).2
          have hvalue := Atom.instantiate_eq_iff_vars.1 hatom y hy
          exact (hterm n hn).trans (hvalue.trans (hterm m hm).symm)
    rw [hread]
    exact h l hl
  exact (Situation.isSome_firstMatch?_iff hwell).2 ⟨m, hmatching⟩

end Subgoal

end LiftedPlanning
