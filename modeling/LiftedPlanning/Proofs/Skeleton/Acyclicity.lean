import LiftedPlanning.Proofs.Skeleton.Value

/-!
# Refinements close no cycle

A precedence is added only where no chain leads back. A new step comes between the first step of the
frame, to which nothing leads, and steps to which it did not lead before: the skeleton can be laid
out with the first step in front, the new step behind it, and all others after these two in the
order of their depth (`Skeleton.Assembled.ascends_extend`). So no refinement that is offered closes
a cycle (`Skeleton.Assembled.acyclic_refine`).
-/

namespace LiftedPlanning

namespace Skeleton

variable {S : Situation} {g : Goal} {s : Skeleton} {a b step : Instance} {r : Refinement}
  {actions : List Action}

/-- It is enough to ask the steps whether they precede themselves. -/
theorem Assembled.isAcyclic_iff (h : s.Assembled S g) :
    s.isAcyclic = true ↔ Chain.Acyclic s.pairs := by
  rw [isAcyclic_iff_forall_mem_steps]
  refine ⟨fun hall a ha => ?_, fun hacyclic a _ => hacyclic a⟩
  obtain ⟨b, hab, _⟩ := Relation.TransGen.head'_iff.1 ha
  exact hall a (h.orderly _ (mem_pairs.1 hab)).first_mem ha

theorem acyclic_ofGoal (h : ofGoal S g = .ok s) : Chain.Acyclic s.pairs := by
  have hs := (invariant_ofGoal h).toAssembled
  obtain ⟨first, last, _, _, _, _, _, _, rfl⟩ := ofGoal_eq_ok h
  have hascends : (frame (.lifted first ⟨1⟩) (.lifted last ⟨2⟩)).Ascends
      fun a => a.scope.id.toNat := by
    intro q hq
    cases mem_precedences_frame.1 hq
    exact Nat.lt_succ_self _
  exact hs.isAcyclic_iff.1 hascends.isAcyclic

theorem acyclic_order (hacyclic : Chain.Acyclic s.pairs) (hab : s.canOrder a b = true) :
    Chain.Acyclic (s.order ⟨a, b⟩).pairs := by
  obtain ⟨hne, hfree⟩ := canOrder_iff.1 hab
  exact hacyclic.insert (fun p hp => mem_pairs_order.1 hp) hne hfree

/-- The place of a step when a new one is put right behind the first one. -/
def placed (s : Skeleton) (step a : Instance) : Nat :=
  if a = s.start then 0 else if a = step then 1 else s.depth a + 2

theorem placed_start (s : Skeleton) (step : Instance) : s.placed step s.start = 0 := if_pos rfl

theorem placed_new (hne : step ≠ s.start) : s.placed step step = 1 := by
  rw [placed, if_neg hne, if_pos rfl]

theorem placed_of_ne (hstart : a ≠ s.start) (hstep : a ≠ step) :
    s.placed step a = s.depth a + 2 := by
  rw [placed, if_neg hstart, if_neg hstep]

theorem Assembled.ascends_extend (h : s.Assembled S g) (hacyclic : s.isAcyclic = true)
    (hid : step.scope.id = s.supply.next) : (s.extend step).Ascends (s.placed step) := by
  have hnew : step ≠ s.start := (h.ne_of_next hid h.start_mem).symm
  have hfinish : s.finish ≠ step := h.ne_of_next hid h.finish_mem
  intro q hq
  rcases SortedSet.mem_insert.1 hq with rfl | hq
  · rw [placed_new hnew, placed_of_ne h.start_ne_finish.symm hfinish]
    omega
  rcases SortedSet.mem_insert.1 hq with rfl | hq
  · rw [placed_start, placed_new hnew]
    omega
  · have hold := h.orderly q hq
    rw [placed_of_ne hold.second_ne_start (h.ne_of_next hid hold.second_mem)]
    by_cases hfirst : q.first = s.start
    · rw [hfirst, placed_start]
      omega
    · rw [placed_of_ne hfirst (h.ne_of_next hid hold.first_mem)]
      exact Nat.add_lt_add_right (h.ascends_depth hacyclic q hq) 2

theorem Assembled.acyclic_refine (h : s.Assembled S g) (hacyclic : Chain.Acyclic s.pairs)
    (hr : r ∈ s.refinements S actions) : Chain.Acyclic (s.refine r).pairs := by
  cases offers_of_mem_refinements hr with
  | order _ _ orders => exact acyclic_order hacyclic orders
  | separate _ _ => exact hacyclic
  | @link o a c _ _ orders _ =>
    have hne : a ≠ o.step := by
      rintro rfl
      simp [canOrder] at orders
    rw [Skeleton.refine, link_eq hne]
    exact acyclic_order (s := s) hacyclic orders
  | @addStep o action e c condition _ _ _ =>
    have hmem := (h.required o condition).1
    have hscope : (Instance.lifted action s.supply.next).scope = .lifted s.supply.next := rfl
    have hid := congrArg Scope.id hscope
    have hnew := (h.ne_of_next hid h.start_mem).symm
    have hne := (h.ne_of_next hid hmem).symm
    -- Right behind the first step, the new one closes no cycle.
    have hascends := h.ascends_extend (h.isAcyclic_iff.2 hacyclic) hid
    have hextend := (h.extend hscope).isAcyclic_iff.1 hascends.isAcyclic
    have horders : (s.extend (.lifted action s.supply.next)).canOrder
        (.lifted action s.supply.next) o.step = true := by
      refine hascends.canOrder ?_
      rw [placed_new hnew, placed_of_ne (h.step_ne_start condition) hne.symm]
      omega
    rw [Skeleton.refine, addStep_eq hne condition, link_eq hne]
    exact acyclic_order (s := s.extend _) hextend horders

end Skeleton

end LiftedPlanning
