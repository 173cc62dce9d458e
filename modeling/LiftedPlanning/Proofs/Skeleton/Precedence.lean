import LiftedPlanning.Proofs.Order.Search
import LiftedPlanning.Proofs.Skeleton.Refinement

/-!
# Precedences that can be added

A step precedes another one exactly if a chain of one or more precedences leads from it to the
other, whatever the precedences are; on a cycle each step precedes itself. Two steps can be ordered
exactly if the precedence between them closes no cycle (`Skeleton.precedes_iff_and_canOrder_iff`).
-/

namespace LiftedPlanning

namespace Skeleton

variable {s : Skeleton} {a b c : Instance}

theorem leads_of_leads_order (hab : s.canOrder a b = true)
    (hc : Chain.Leads (s.order ⟨a, b⟩).pairs c c) : Chain.Leads s.pairs c c := by
  obtain ⟨hne, hfree⟩ := canOrder_iff.1 hab
  exact hc.of_insert (fun p hp => mem_pairs_order.1 hp) hne hfree

theorem leads_order_self (hab : ¬ s.canOrder a b = true) :
    Chain.Leads (s.order ⟨a, b⟩).pairs a a := by
  have hnew : (a, b) ∈ (s.order ⟨a, b⟩).pairs := mem_pairs_order.2 (.inl rfl)
  rw [canOrder_iff, not_and_or, not_not, not_not] at hab
  rcases hab with rfl | hba
  · exact .single hnew
  · exact .head hnew (hba.mono fun p hp => mem_pairs_order.2 (.inr hp))

/-- Whether one step precedes another is found by a search that sees each step once, and it does so
exactly if a chain of one or more precedences leads from the one to the other. Where no step
precedes itself, two steps can be ordered exactly if this is so afterwards. -/
theorem precedes_iff_and_canOrder_iff (s : Skeleton) :
    (∀ a b, s.precedes a b = Chain.search s.pairs a b ∧
      (s.precedes a b = true ↔ Chain.Leads s.pairs a b)) ∧
    (s.isAcyclic = true ↔ ∀ a ∈ s.steps, ¬ Chain.Leads s.pairs a a) ∧
    ∀ a ∈ s.steps, ∀ b ∈ s.steps,
      (Chain.Acyclic s.pairs → (s.canOrder a b = true ↔ Chain.Acyclic (s.order ⟨a, b⟩).pairs)) ∧
      (s.isAcyclic = true → (s.canOrder a b = true ↔ (s.order ⟨a, b⟩).isAcyclic = true)) := by
  refine ⟨fun a b => ⟨?_, Chain.leads_iff⟩, isAcyclic_iff_forall_mem_steps,
    fun a ha b _ => ⟨?_, ?_⟩⟩
  · exact (Chain.search_eq_leads s.pairs a b).symm
  · intro hacyclic
    constructor
    · exact fun hab c hc => hacyclic c (leads_of_leads_order hab hc)
    · intro hacyclic'
      by_contra hab
      exact hacyclic' a (leads_order_self hab)
  · rw [isAcyclic_iff_forall_mem_steps, isAcyclic_iff_forall_mem_steps]
    intro hacyclic
    constructor
    · exact fun hab c hc hcycle => hacyclic c hc (leads_of_leads_order hab hcycle)
    · intro hacyclic'
      by_contra hab
      exact hacyclic' a ha (leads_order_self hab)

def waiting (n : Nat) : Instance := .lifted ⟨"wait", [], [], []⟩ ⟨n⟩

def queue : Skeleton :=
  { frame (waiting 1) (waiting 2) with
    steps := .ofList [waiting 1, waiting 2, waiting 3, waiting 4, waiting 5]
    precedences := .ofList [⟨waiting 1, waiting 2⟩, ⟨waiting 3, waiting 4⟩, ⟨waiting 4, waiting 5⟩,
      ⟨waiting 5, waiting 2⟩] }

def queuePosition (a : Instance) : Nat := (a.scope.id.toNat + 3) % 6

theorem precedes_queue :
    Chain.Acyclic queue.pairs ∧ queue.isAcyclic = true ∧
      Chain.Acyclic (queue.order ⟨waiting 3, waiting 5⟩).pairs ∧
      ¬ (queue.order ⟨waiting 5, waiting 3⟩).isAcyclic = true ∧
      (queue.order ⟨waiting 5, waiting 3⟩).precedes (waiting 4) (waiting 4) = true := by
  have hplaced : ∀ p ∈ queue.pairs, queuePosition p.1 < queuePosition p.2 := by decide
  have hacyclic : Chain.Acyclic queue.pairs := fun a ha => Nat.lt_irrefl _ (ha.lt hplaced)
  obtain ⟨_, hsteps, horder⟩ := precedes_iff_and_canOrder_iff queue
  obtain ⟨hclosed, _⟩ := precedes_iff_and_canOrder_iff (queue.order ⟨waiting 5, waiting 3⟩)
  have hacyclic' : queue.isAcyclic = true := hsteps.2 fun a _ => hacyclic a
  have h3 : waiting 3 ∈ queue.steps := by decide
  have h5 : waiting 5 ∈ queue.steps := by decide
  have h34 : (waiting 3, waiting 4) ∈ queue.pairs := by decide
  have h45 : (waiting 4, waiting 5) ∈ queue.pairs := by decide
  have hshort : queue.canOrder (waiting 3) (waiting 5) = true := by
    refine canOrder_iff.2 ⟨by decide, fun hback => ?_⟩
    exact absurd (hback.lt hplaced) (by decide)
  have hclose : ¬ queue.canOrder (waiting 5) (waiting 3) = true := fun hcan =>
    (canOrder_iff.1 hcan).2 (.tail (.single h34) h45)
  refine ⟨hacyclic, hacyclic', ?_, ?_, ?_⟩
  · exact ((horder _ h3 _ h5).1 hacyclic).1 hshort
  · exact fun hrow => hclose (((horder _ h5 _ h3).2 hacyclic').2 hrow)
  · refine (hclosed (waiting 4) (waiting 4)).2.2 ?_
    have hmem : ∀ p ∈ queue.pairs, p ∈ (queue.order ⟨waiting 5, waiting 3⟩).pairs := fun p hp =>
      mem_pairs_order.2 (.inr hp)
    have h53 : (waiting 5, waiting 3) ∈ (queue.order ⟨waiting 5, waiting 3⟩).pairs :=
      mem_pairs_order.2 (.inl rfl)
    exact .tail (.tail (.single (hmem _ h45)) h53) (hmem _ h34)

end Skeleton

end LiftedPlanning
