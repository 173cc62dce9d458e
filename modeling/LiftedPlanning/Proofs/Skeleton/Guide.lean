import LiftedPlanning.Proofs.Skeleton.Fresh
import LiftedPlanning.Proofs.Skeleton.Threats
import LiftedPlanning.Proofs.Skeleton.Value
import Mathlib.Order.WellFounded

/-!
# Skeletons that an execution guides

An execution guides a skeleton if it contains it (`Skeleton.Guide`): a model of the bindings reads
each proper step as an instance of the execution, precedences lead to later places, and between the
ends of a link no instance undoes what the link provides. The execution then shows how to repair
each flaw. A threat is ordered as in the execution, or the model separates it; an open precondition
is provided by whatever last made it true, which is the first step, another step, or an instance
that becomes a new one (`Skeleton.Guide.progresses`).
-/

namespace LiftedPlanning

namespace Skeleton

variable {S : Situation} {g : Goal} {s : Skeleton} {is : List Instance} {m m' : Assignment}
  {position : Instance → Nat} {a b i step producer : Instance} {o : OpenCondition}
  {c : Bindings} {l : ScopedLiteral} {q : Nat} {actions : List Action}

structure Executed (actions : List Action) (S : Situation) (is : List Instance) : Prop where
  action_mem : ∀ i ∈ is, i.action ∈ actions
  wellFormed : ∀ i ∈ is, i.action.WellFormed
  isGround : ∀ i ∈ is, i.isGround = true
  applicable : ∀ q i, is[q]? = some i → (S.after (is.take q)).applicable i = true

/-- An execution contains a skeleton: each step has a place in it, the first step comes before all
instances and the last one after them. -/
structure Guide (S : Situation) (is : List Instance) (s : Skeleton) (m : Assignment)
    (position : Instance → Nat) : Prop where
  models : m.Models s.bindings
  start : position s.start = 0
  finish : position s.finish = is.length + 1
  proper : ∀ a ∈ s.properSteps, ∃ q i, is[q]? = some i ∧ position a = q + 1 ∧ m.Reads a i
  injective : ∀ a ∈ s.steps, ∀ b ∈ s.steps, position a = position b → a = b
  ascends : s.Ascends position
  goal : ∀ l ∈ s.finish.preconditions, (S.after is).holds (m.literal l) = true
  kept : ∀ k ∈ s.links, ∀ q i, is[q]? = some i → position k.producer < q + 1 →
    q + 1 < position k.consumer → (m.literal k.proposition).negate ∉ Situation.changes i

/-! ## Places -/

theorem Guide.position_le (h : s.Guide S is m position) (ha : a ∈ s.steps) :
    position a ≤ is.length + 1 := by
  by_cases hstart : a = s.start
  · rw [hstart, h.start]
    exact Nat.zero_le _
  · by_cases hfinish : a = s.finish
    · rw [hfinish, h.finish]
    · obtain ⟨q, i, hi, hq, _⟩ := h.proper a (mem_properSteps.2 ⟨ha, hstart, hfinish⟩)
      have hlt := (List.getElem?_eq_some_iff.1 hi).1
      omega

theorem Guide.reads_of_position (h : s.Guide S is m position) (ha : a ∈ s.steps)
    (hi : is[q]? = some i) (hq : position a = q + 1) : a ≠ s.start ∧ m.Reads a i := by
  have hlt := (List.getElem?_eq_some_iff.1 hi).1
  have hstart : a ≠ s.start := by
    rintro rfl
    have hzero := h.start
    omega
  have hfinish : a ≠ s.finish := by
    rintro rfl
    have hlast := h.finish
    omega
  obtain ⟨q', i', hi', hq', hreads⟩ := h.proper a (mem_properSteps.2 ⟨ha, hstart, hfinish⟩)
  obtain rfl : q = q' := by omega
  cases hi.symm.trans hi'
  exact ⟨hstart, hreads⟩

theorem Guide.holds_precondition (h : s.Guide S is m position) (hs : s.Invariant S g)
    (hexecuted : Executed actions S is) (ha : a ∈ s.steps) (hl : l ∈ a.preconditions) :
    ∃ q ≤ is.length, position a = q + 1 ∧ (S.after (is.take q)).holds (m.literal l) = true := by
  have hstart : a ≠ s.start := by
    rintro rfl
    rw [Instance.preconditions, hs.start_preconditions] at hl
    cases hl
  by_cases hfinish : a = s.finish
  · subst hfinish
    refine ⟨is.length, Nat.le_refl _, h.finish, ?_⟩
    rw [List.take_length]
    exact h.goal l hl
  · obtain ⟨q, i, hi, hq, hreads⟩ := h.proper a (mem_properSteps.2 ⟨ha, hstart, hfinish⟩)
    refine ⟨q, Nat.le_of_lt (List.getElem?_eq_some_iff.1 hi).1, hq, ?_⟩
    have happlicable := hexecuted.applicable q i hi
    rw [hreads.applicable_iff (hexecuted.wellFormed i (List.mem_of_getElem? hi))
      (hs.lifted a ha)] at happlicable
    exact happlicable l hl

/-! ## Changes -/

theorem Guide.order (h : s.Guide S is m position) (hab : position a < position b) :
    (s.order ⟨a, b⟩).Guide S is m position := by
  have hascends : (s.order ⟨a, b⟩).Ascends position := ascends_order_iff.2 ⟨hab, h.ascends⟩
  exact ⟨h.models, h.start, h.finish, h.proper, h.injective, hascends, h.goal, h.kept⟩

theorem Guide.rebind (h : s.Guide S is m position) (hm : m.Models c) :
    (s.rebind c).Guide S is m position :=
  ⟨hm, h.start, h.finish, h.proper, h.injective, h.ascends, h.goal, h.kept⟩

theorem Guide.close (h : s.Guide S is m position)
    (hkept : ∀ q i, is[q]? = some i → position producer < q + 1 → q + 1 < position o.step →
      (m.literal o.proposition).negate ∉ Situation.changes i) :
    (s.close producer o).Guide S is m position := by
  refine ⟨h.models, h.start, h.finish, h.proper, h.injective, h.ascends, h.goal, fun k hk => ?_⟩
  rcases SortedSet.mem_insert.1 hk with rfl | hk
  · exact hkept
  · exact h.kept k hk

theorem Guide.link (h : s.Guide S is m position) (hm : m.Models c)
    (hbefore : position producer < position o.step)
    (hkept : ∀ q i, is[q]? = some i → position producer < q + 1 → q + 1 < position o.step →
      (m.literal o.proposition).negate ∉ Situation.changes i) :
    (s.link producer o c).Guide S is m position := by
  have hne : producer ≠ o.step := fun heq => Nat.ne_of_lt hbefore (congrArg position heq)
  rw [link_eq hne]
  exact ((h.rebind hm).order hbefore).close hkept

/-- An instance whose place is free can become a new step. -/
theorem Guide.extend (h : s.Guide S is m position) (hs : s.Invariant S g) (hfresh : s.Fresh)
    (hagrees : Assignment.Agrees s.supply.next.toNat m m')
    (hid : step.scope.id = s.supply.next) (hi : is[q]? = some i) (hreads : m'.Reads step i)
    (hfree : ∀ a ∈ s.steps, position a ≠ q + 1) :
    (s.extend step).Guide S is m' (Function.update position step (q + 1)) := by
  have hold : ∀ a ∈ s.steps, Function.update position step (q + 1) a = position a :=
    fun a ha => Function.update_of_ne (hs.ne_of_next hid ha) _ _
  have hstart := hold _ hs.start_mem
  have hfinish := hold _ hs.finish_mem
  have hlt := (List.getElem?_eq_some_iff.1 hi).1
  have hscope : ∀ a ∈ s.steps, a.scope.id.toNat < s.supply.next.toNat := hs.id_lt
  refine ⟨hfresh.bindings.models hagrees h.models, hstart.trans h.start, hfinish.trans h.finish,
    fun a ha => ?proper, fun a ha b hb hab => ?injective, fun p hp => ?ascends,
    fun l hl => ?goal, fun k hk => ?kept⟩
  case proper =>
    obtain ⟨ha, hproper⟩ := mem_properSteps.1 ha
    rcases SortedSet.mem_insert.1 ha with rfl | ha
    · exact ⟨q, i, hi, Function.update_self .., hreads⟩
    · obtain ⟨q', i', hi', hq', hreads'⟩ := h.proper a (mem_properSteps.2 ⟨ha, hproper⟩)
      refine ⟨q', i', hi', (hold a ha).trans hq', hreads'.action, fun p hp => ?_⟩
      rw [hagrees.term (hscope a ha)]
      exact hreads'.values p hp
  case injective =>
    rcases SortedSet.mem_insert.1 ha with rfl | ha'
    · rcases SortedSet.mem_insert.1 hb with rfl | hb'
      · rfl
      · rw [Function.update_self, hold b hb'] at hab
        exact absurd hab.symm (hfree b hb')
    · rcases SortedSet.mem_insert.1 hb with rfl | hb'
      · rw [Function.update_self, hold a ha'] at hab
        exact absurd hab (hfree a ha')
      · rw [hold a ha', hold b hb'] at hab
        exact h.injective a ha' b hb' hab
  case ascends =>
    rcases SortedSet.mem_insert.1 hp with rfl | hp
    · rw [Function.update_self, hfinish, h.finish]
      exact Nat.succ_lt_succ hlt
    · rcases SortedSet.mem_insert.1 hp with rfl | hp
      · rw [Function.update_self, hstart, h.start]
        exact Nat.succ_pos _
      · have horderly := hs.orderly p hp
        rw [hold _ horderly.first_mem, hold _ horderly.second_mem]
        exact h.ascends p hp
  case goal =>
    have hbelow : l.scopeId.toNat < s.supply.next.toNat := by
      rw [Instance.scopeId_of_mem_preconditions hl]
      exact hscope _ hs.finish_mem
    rw [hagrees.literal hbelow]
    exact h.goal l hl
  case kept =>
    have horderly := hs.orderly _ (hs.ordered k hk)
    rw [hold _ horderly.first_mem, hold _ horderly.second_mem, hagrees.literal (hfresh.links k hk)]
    exact h.kept k hk

end Skeleton

end LiftedPlanning
