import LiftedPlanning.Proofs.Skeleton.Extension
import LiftedPlanning.Proofs.Skeleton.Guide

/-!
# Following an execution

The flaw that is repaired next has a repair after which the execution still guides the skeleton, and
by which it comes closer to being complete (`Skeleton.Guide.progresses`): there are fewer
instances without a step, or as many and fewer open preconditions, or as many of both and fewer
threats. A step that provides an open precondition in the execution has to be linked to it under
bindings that agree with the execution (`Skeleton.Serves`). It is where it provides the precondition
in one way only, and where what the first step denies is ground (`Skeleton.Decided.serves`).
-/

namespace LiftedPlanning

namespace Skeleton

variable {S : Situation} {g : Goal} {s : Skeleton} {is : List Instance} {m : Assignment}
  {position : Instance → Nat} {a : Instance} {o : OpenCondition} {os : List OpenCondition}
  {t : Threat} {ts : List Threat} {q : Nat} {actions : List Action}

/-- The steps that provide a precondition in a model are linked to it under bindings of the model.
-/
def Serves (s : Skeleton) (S : Situation) (m : Assignment) (o : OpenCondition) : Prop :=
  ∀ a ∈ s.steps,
    a.Achieves m o.proposition ∨ a = s.start ∧ S.holds (m.literal o.proposition) = true →
      ∃ c, s.support? S a o.proposition = some c ∧ m.Models c

/-- The effects by which a step can provide a precondition do so under the same bindings, and a
denied precondition is ground. -/
structure Decided (s : Skeleton) (o : OpenCondition) : Prop where
  effects : ∀ a ∈ s.steps, ∀ e ∈ a.effectsOf o.proposition.negated,
    ∀ e' ∈ a.effectsOf o.proposition.negated, ∀ c c',
      a.unify? e.atom o.proposition s.bindings = some c →
        a.unify? e'.atom o.proposition s.bindings = some c' → c = c'
  ground : o.proposition.negated = true →
    (s.bindings.ground? o.proposition.scope o.proposition.atom).isSome = true

theorem decided_iff :
    s.Decided o ↔
      (∀ a ∈ s.steps.toList, ∀ e ∈ a.effectsOf o.proposition.negated,
        ∀ e' ∈ a.effectsOf o.proposition.negated,
          ∀ c ∈ a.unify? e.atom o.proposition s.bindings,
            ∀ c' ∈ a.unify? e'.atom o.proposition s.bindings, c = c') ∧
      (o.proposition.negated = true →
        (s.bindings.ground? o.proposition.scope o.proposition.atom).isSome = true) := by
  constructor
  · intro h
    exact ⟨fun a ha e he e' he' c hc c' hc' => h.effects a ha e he e' he' c c' hc hc', h.ground⟩
  · rintro ⟨heffects, hground⟩
    exact ⟨fun a ha e he e' he' c c' hc hc' => heffects a ha e he e' he' c hc c' hc', hground⟩

instance (s : Skeleton) (o : OpenCondition) : Decidable (s.Decided o) :=
  decidable_of_iff _ decided_iff.symm

/-! ## What is left to do -/

/-- The numbers of instances without a step, open preconditions and threats. -/
def toDo (s : Skeleton) (is : List Instance) : Nat × Nat × Nat :=
  (is.length - s.properSteps.length, s.openConditions.length, s.threatCount)

def Less : Nat × Nat × Nat → Nat × Nat × Nat → Prop :=
  Prod.Lex (· < ·) (Prod.Lex (· < ·) (· < ·))

theorem wellFounded_less : WellFounded Less :=
  WellFounded.prod_lex Nat.lt_wfRel.wf (WellFounded.prod_lex Nat.lt_wfRel.wf Nat.lt_wfRel.wf)

theorem Guide.length_properSteps_le (h : s.Guide S is m position) :
    s.properSteps.length ≤ is.length := by
  have hinjective : (s.properSteps.map position).Nodup := by
    refine List.Nodup.map_on (fun a ha b hb hab => ?_) s.nodup_properSteps
    exact h.injective a (mem_properSteps.1 ha).1 b (mem_properSteps.1 hb).1 hab
  have hplaces : s.properSteps.map position ⊆ List.range' 1 is.length := by
    refine List.forall_mem_map.2 fun a ha => ?_
    obtain ⟨q, i, hi, hq, _⟩ := h.proper a ha
    have hlt := (List.getElem?_eq_some_iff.1 hi).1
    exact List.mem_range'_1.2 ⟨by omega, by omega⟩
  simpa using (hinjective.subperm hplaces).length_le

/-- A refinement is offered after which the execution still guides the skeleton, and there is less
to do. -/
def Progresses (s : Skeleton) (S : Situation) (actions : List Action) (is : List Instance) : Prop :=
  ∃ r ∈ s.refinements S actions, (∃ m position, (s.refine r).Guide S is m position) ∧
    Less ((s.refine r).toDo is) (s.toDo is)

/-! ## Threats -/

theorem Guide.repair (h : s.Guide S is m position) {r : Refinement} (hr : r ∈ s.repairs t)
    (hascends : (s.refine r).Ascends position) (hm : m.Models (s.refine r).bindings) :
    (s.refine r).Guide S is m position := by
  rcases mem_repairs.1 hr with ⟨rfl, _⟩ | ⟨rfl, _⟩ | ⟨c, _, rfl⟩
  · exact ⟨hm, h.start, h.finish, h.proper, h.injective, hascends, h.goal, h.kept⟩
  · exact ⟨hm, h.start, h.finish, h.proper, h.injective, hascends, h.goal, h.kept⟩
  · exact ⟨hm, h.start, h.finish, h.proper, h.injective, hascends, h.goal, h.kept⟩

/-- An execution that passes a step between the ends of a link shows that it does not undo what the
link provides. -/
theorem Guide.not_undoes (h : s.Guide S is m position) (hs : s.Invariant S g)
    (hexecuted : Executed actions S is) {step : Instance} {k : CausalLink} (hstep : step ∈ s.steps)
    (hlink : k ∈ s.links) (hafter : position k.producer < position step)
    (hbefore : position step < position k.consumer) : ¬ step.Undoes m k.proposition := by
  have hconsumer := (hs.orderly _ (hs.ordered _ hlink)).second_mem
  have hlast : position k.consumer ≤ is.length + 1 := h.position_le hconsumer
  obtain ⟨q, hq⟩ := Nat.exists_eq_succ_of_ne_zero (Nat.ne_of_gt (Nat.zero_lt_of_lt hafter))
  obtain ⟨i, hi⟩ : ∃ i, is[q]? = some i := ⟨_, List.getElem?_eq_getElem (by omega)⟩
  obtain ⟨_, hreads⟩ := h.reads_of_position hstep hi hq
  rw [Instance.undoes_iff,
    hreads.effectsUnder_eq (hexecuted.wellFormed i (List.mem_of_getElem? hi))]
  exact h.kept _ hlink q i hi (by omega) (by omega)

theorem Guide.progresses_of_threat (h : s.Guide S is m position) (hs : s.Invariant S g)
    (hexecuted : Executed actions S is) (hthreats : s.threats = t :: ts) :
    s.Progresses S actions is := by
  have ht : t ∈ s.threats := hthreats ▸ List.mem_cons_self ..
  obtain ⟨hlink, hstep, _⟩ := mem_threats.1 ht
  have hsafe : ¬ (position t.link.producer < position t.step ∧
      position t.step < position t.link.consumer) ∨ ¬ t.step.Undoes m t.link.proposition := by
    by_cases hbetween : position t.link.producer < position t.step ∧
        position t.step < position t.link.consumer
    · exact .inr (h.not_undoes hs hexecuted hstep hlink hbetween.1 hbetween.2)
    · exact .inl hbetween
  obtain ⟨r, hrepair, hascends, hm⟩ :=
    (hs.exists_repair_iff ht h.ascends h.injective h.models).2 hsafe
  have hr : r ∈ s.refinements S actions := by rwa [refinements_of_threats hthreats]
  refine ⟨r, hr, ⟨m, position, h.repair hrepair hascends hm⟩, ?_⟩
  have hlt := hs.threatCount_refine_lt hthreats hr
  rcases mem_repairs.1 hrepair with ⟨rfl, _⟩ | ⟨rfl, _⟩ | ⟨c, _, rfl⟩
  · exact .right _ (.right _ hlt)
  · exact .right _ (.right _ hlt)
  · exact .right _ (.right _ hlt)

/-! ## Open preconditions -/

theorem Decided.exists_establishing? (h : s.Decided o) (hwell : s.bindings.WellFormed)
    (hm : m.Models s.bindings) (ha : a ∈ s.steps) (hachieves : a.Achieves m o.proposition) :
    ∃ c, a.establishing? o.proposition s.bindings = some c ∧ m.Models c := by
  obtain ⟨c, hc⟩ := Option.isSome_iff_exists.1
    (Instance.isSome_establishing?_of_achieves hwell hm hachieves)
  obtain ⟨e, he, heq⟩ := hachieves
  obtain ⟨d, hd, hmd⟩ := (Instance.models_unify? hwell).2 ⟨hm, heq⟩
  obtain ⟨e', he', hc'⟩ := List.exists_of_findSome?_eq_some hc
  rw [h.effects a ha e he e' he' d c hd hc'] at hmd
  exact ⟨c, hc, hmd⟩

theorem Invariant.exists_support?_start (hs : s.Invariant S g) (hS : S.Ground)
    (hdecided : s.Decided o) (hm : m.Models s.bindings)
    (hholds : S.holds (m.literal o.proposition) = true) :
    ∃ c, s.support? S s.start o.proposition = some c ∧ m.Models c := by
  rw [Situation.holds_literal_iff] at hholds
  cases hneg : o.proposition.negated with
  | false =>
    have hfact := hholds.2 hneg
    have hachieves : s.start.Achieves m o.proposition := by
      refine ⟨.pos (m.literal o.proposition).atom, Instance.mem_effectsOf.2 ⟨?_, hneg.symm⟩, ?_⟩
      · rw [hs.start_effects]
        exact List.mem_map_of_mem (SortedSet.mem_toList.2 hfact)
      · exact Atom.instantiate_of_isGround (hS _ hfact) _
    obtain ⟨c, hc, hmc⟩ := hdecided.exists_establishing? hs.wellFormed hm hs.start_mem hachieves
    refine ⟨c, ?_, hmc⟩
    rw [support?, if_neg (by simp [deniedInitially, hneg]), hc]
  | true =>
    obtain ⟨atom, hground⟩ := Option.isSome_iff_exists.1 (hdecided.ground hneg)
    have hatom : (m.literal o.proposition).atom = atom :=
      Bindings.atom_eq_of_ground?_eq_some hm hground
    have habsent : atom ∉ S.facts := by
      intro hfact
      cases hneg.symm.trans (hholds.1 (hatom ▸ hfact))
    refine ⟨s.bindings, ?_, hm⟩
    rw [support?, if_pos]
    simp [deniedInitially, hneg, hground, habsent]

theorem Decided.serves (h : s.Decided o) (hs : s.Invariant S g) (hS : S.Ground)
    (hm : m.Models s.bindings) : s.Serves S m o := by
  rintro a ha (hachieves | ⟨rfl, hholds⟩)
  · rw [support?]
    split
    · exact ⟨s.bindings, rfl, hm⟩
    · exact h.exists_establishing? hs.wellFormed hm ha hachieves
  · exact hs.exists_support?_start hS h hm hholds

/-- A link from the step after which nothing undoes an open precondition agrees with the
execution. -/
theorem Guide.progresses_of_link (h : s.Guide S is m position) (hthreats : s.threats = [])
    (hopen : s.openConditions = o :: os) (ha : a ∈ s.steps)
    (hbefore : position a < position o.step) {c : Bindings}
    (hc : s.support? S a o.proposition = some c) (hm : m.Models c)
    (hkept : ∀ q i, is[q]? = some i → position a < q + 1 → q + 1 < position o.step →
      (m.literal o.proposition).negate ∉ Situation.changes i) :
    s.Progresses S actions is := by
  have ho : o ∈ s.openConditions := hopen ▸ List.mem_cons_self ..
  refine ⟨.link a o c, ?_, ⟨m, position, h.link hm hbefore hkept⟩, .right _ (.left _ _ ?_)⟩
  · rw [refinements, hthreats, hopen]
    refine List.mem_append_left _ (List.mem_filterMap.2 ⟨a, List.mem_filter.2 ⟨?_, ?_⟩, ?_⟩)
    · exact SortedSet.mem_toList.2 ha
    · exact h.ascends.canOrder hbefore
    · rw [hc]
      rfl
  · exact Nat.lt_of_succ_le (length_openConditions_link ho).le

theorem Guide.progresses_of_addition (h : s.Guide S is m position) (hs : s.Invariant S g)
    (hfresh : s.Fresh) (hexecuted : Executed actions S is) (hthreats : s.threats = [])
    (hopen : s.openConditions = o :: os) {i : Instance} (hi : is[q]? = some i)
    (hfree : ∀ a ∈ s.steps, position a ≠ q + 1) (hbefore : q + 1 < position o.step)
    (hchanges : m.literal o.proposition ∈ Situation.changes i)
    (hkept : ∀ q' i, is[q']? = some i → q + 1 < q' + 1 → q' + 1 < position o.step →
      (m.literal o.proposition).negate ∉ Situation.changes i) :
    s.Progresses S actions is := by
  have ho : o ∈ s.openConditions := hopen ▸ List.mem_cons_self ..
  have hmem := List.mem_of_getElem? hi
  have hschema := hexecuted.wellFormed i hmem
  -- The scope of the new step is fresh, so the model can be changed to read it as the instance.
  let step := Instance.lifted i.action s.supply.next
  let m' := m.extend s.supply.next i.values
  have hreads : m'.Reads step i :=
    Assignment.reads_extend m s.supply.next (hexecuted.isGround i hmem)
  have hagrees : Assignment.Agrees s.supply.next.toNat m m' := Assignment.agrees_extend m _ _
  have hliteral : m'.literal o.proposition = m.literal o.proposition :=
    hagrees.literal (hs.scopeId_lt ho)
  have hguide := h.extend hs hfresh hagrees rfl hi hreads hfree
  have hachieves : step.Achieves m' o.proposition := by
    rw [Instance.achieves_iff, hreads.effectsUnder_eq hschema, hliteral]
    exact hchanges
  obtain ⟨e, he, heq⟩ := hachieves
  obtain ⟨c, hc, hmc⟩ := (Instance.models_unify? hs.wellFormed).2 ⟨hguide.models, heq⟩
  have hne : step ≠ o.step := (hs.ne_of_next rfl (hs.required o ho).1).symm
  have hplace : Function.update position step (q + 1) o.step = position o.step :=
    Function.update_of_ne hne.symm _ _
  have hoffered : .addStep step o c ∈ s.refinements S actions := by
    rw [refinements, hthreats, hopen]
    refine List.mem_append_right _ (List.mem_flatMap.2 ⟨i.action, hexecuted.action_mem i hmem, ?_⟩)
    exact List.mem_map.2 ⟨c, List.mem_eraseDups.2 (List.mem_filterMap.2 ⟨e, he, hc⟩), rfl⟩
  have hguide' : (s.addStep step o c).Guide S is m' (Function.update position step (q + 1)) := by
    rw [addStep_eq hne ho]
    refine hguide.link hmc ?_ ?_
    · rw [Function.update_self, hplace]
      exact hbefore
    · rw [Function.update_self, hplace, hliteral]
      exact hkept
  have hadded : (s.addStep step o c).properSteps.length = s.properSteps.length + 1 :=
    (hs.perm_properSteps_refine hoffered).length_eq
  have hplaces := hguide'.length_properSteps_le
  refine ⟨_, hoffered, ⟨m', _, hguide'⟩, .left _ _ ?_⟩
  change is.length - (s.addStep step o c).properSteps.length < is.length - s.properSteps.length
  omega

theorem Guide.progresses_of_open (h : s.Guide S is m position) (hs : s.Invariant S g)
    (hfresh : s.Fresh) (hexecuted : Executed actions S is) (hthreats : s.threats = [])
    (hopen : s.openConditions = o :: os) (hserves : s.Serves S m o) :
    s.Progresses S actions is := by
  have ho : o ∈ s.openConditions := hopen ▸ List.mem_cons_self ..
  obtain ⟨hstep, hrequired⟩ := hs.required o ho
  obtain ⟨q, hq, hplace, hholds⟩ := h.holds_precondition hs hexecuted hstep hrequired
  obtain ⟨n, hn, hrest, hsettled⟩ := Situation.exists_settled hholds
  rw [List.length_take_of_le hq] at hn
  -- From place `n` on no instance undoes the literal.
  have hkept : ∀ q' i, is[q']? = some i → n < q' + 1 → q' + 1 < position o.step →
      (m.literal o.proposition).negate ∉ Situation.changes i := by
    intro q' i hi hafter hbefore
    refine hrest q' i (Nat.le_of_lt_succ hafter) ?_
    rw [List.getElem?_take_of_lt (by omega)]
    exact hi
  have hlink : ∀ a ∈ s.steps, position a = n →
      (∃ c, s.support? S a o.proposition = some c ∧ m.Models c) →
        s.Progresses S actions is := by
    rintro a ha rfl ⟨c, hc, hmc⟩
    exact h.progresses_of_link hthreats hopen ha (by omega) hc hmc hkept
  rcases hsettled with ⟨rfl, hinitial⟩ | ⟨q', i, rfl, hi, hchanges⟩
  · exact hlink s.start hs.start_mem h.start
      (hserves s.start hs.start_mem (.inr ⟨rfl, hinitial⟩))
  · have hi : is[q']? = some i := by
      rwa [List.getElem?_take_of_lt (by omega)] at hi
    -- The instance that made the literal true has a step already, or it becomes one.
    by_cases hoccupied : ∃ a ∈ s.steps, position a = q' + 1
    · obtain ⟨a, ha, haq⟩ := hoccupied
      obtain ⟨_, hreads⟩ := h.reads_of_position ha hi haq
      have hachieves : a.Achieves m o.proposition := by
        rw [Instance.achieves_iff,
          hreads.effectsUnder_eq (hexecuted.wellFormed i (List.mem_of_getElem? hi))]
        exact hchanges
      exact hlink a ha haq (hserves a ha (.inl hachieves))
    · have hfree : ∀ a ∈ s.steps, position a ≠ q' + 1 := fun a ha haq =>
        hoccupied ⟨a, ha, haq⟩
      exact h.progresses_of_addition hs hfresh hexecuted hthreats hopen hi hfree (by omega) hchanges
        hkept

/-- A skeleton that an execution guides is complete, or one of its refinements comes closer to
that. -/
theorem Guide.progresses (h : s.Guide S is m position) (hs : s.Invariant S g) (hfresh : s.Fresh)
    (hexecuted : Executed actions S is)
    (hserves : s.threats = [] → ∀ o os, s.openConditions = o :: os →
      ∃ m position, s.Guide S is m position ∧ s.Serves S m o)
    (hincomplete : s.isComplete = false) : s.Progresses S actions is := by
  cases hthreats : s.threats with
  | cons t ts => exact h.progresses_of_threat hs hexecuted hthreats
  | nil =>
    cases hopen : s.openConditions with
    | nil => simp [isComplete, hthreats, hopen] at hincomplete
    | cons o os =>
      obtain ⟨m', position', hguide, hserves⟩ := hserves hthreats o os hopen
      exact hguide.progresses_of_open hs hfresh hexecuted hthreats hopen hserves

end Skeleton

end LiftedPlanning
