import LiftedPlanning.Proofs.Order.Chain
import LiftedPlanning.Sorted.Set

/-!
# Searching along pairs

The depth-first search for a chain of pairs, with the stack of the members that are still to be left
and the set of those that have been seen. The source is not among the latter unless a pair leads
back to it, and a member is compared with the target before it is noted. So the search for a chain
from a member to itself does not stop at once.

What is kept from round to round is `Visit.Sound`: the search comes only to members to which the
source leads, and whatever has left the stack has all its successors seen, none of them the target.
When the stack is empty no chain leads to the target (`Chain.searchFrom_iff`). So the search finds
what `Chain.leads` finds, in which the pairs are used up instead (`Chain.search_eq_leads`).
-/

namespace LiftedPlanning

namespace Chain

universe u

variable {α : Type u} [Ord α]

/-- A search under way. -/
structure Visit (α : Type u) [Ord α] where
  /-- The members that are still to be left, the next one first. -/
  stack : List α
  seen : SortedSet α

variable [DecidableEq α] [Std.TransOrd α] [Std.LawfulEqOrd α]
  {pairs : List (α × α)} {source target a b : α} {bs : List α} {v w : Visit α}

namespace Visit

def reach (v : Visit α) (b : α) : Visit α :=
  if b ∈ v.seen then v else ⟨b :: v.stack, v.seen.insert b⟩

def reachAll? (target : α) : List α → Visit α → Option (Visit α)
  | [], v => some v
  | b :: bs, v => if b = target then none else reachAll? target bs (v.reach b)

def weight (pairs : List (α × α)) (v : Visit α) : Nat :=
  v.stack.length + (pairs.filter fun p => p.2 ∉ v.seen).length

theorem weight_reach_le (hb : b ∈ successors pairs a) :
    (v.reach b).weight pairs ≤ v.weight pairs := by
  unfold reach
  split
  · exact Nat.le_refl _
  · next hunseen =>
    have hfewer : (pairs.filter fun p => p.2 ∉ v.seen.insert b).length <
        (pairs.filter fun p => p.2 ∉ v.seen).length := by
      have hfilter : (pairs.filter fun p => p.2 ∉ v.seen.insert b) =
          (pairs.filter fun p => p.2 ∉ v.seen).filter fun p => p.2 ≠ b := by
        rw [List.filter_filter]
        refine List.filter_congr fun p _ => ?_
        rw [← Bool.decide_and]
        exact decide_eq_decide.2 (by rw [SortedSet.mem_insert, not_or])
      rw [hfilter]
      refine List.length_filter_lt_length_iff_exists.2 ⟨(a, b), ?_, by simp⟩
      exact List.mem_filter.2 ⟨mem_successors.1 hb, decide_eq_true hunseen⟩
    simp only [weight, List.length_cons]
    omega

theorem weight_reachAll?_le (hbs : ∀ b ∈ bs, b ∈ successors pairs a)
    (h : reachAll? target bs v = some w) : w.weight pairs ≤ v.weight pairs := by
  induction bs generalizing v with
  | nil =>
    cases h
    exact Nat.le_refl _
  | cons b bs ih =>
    obtain ⟨hb, hbs⟩ := List.forall_mem_cons.1 hbs
    rw [reachAll?] at h
    split at h
    · cases h
    · exact Nat.le_trans (ih hbs h) (weight_reach_le hb)

theorem mem_seen_reach {c : α} : c ∈ (v.reach b).seen ↔ c = b ∨ c ∈ v.seen := by
  unfold reach
  split
  · next hseen =>
    refine ⟨.inr, fun h => h.elim (fun hc => ?_) id⟩
    exact hc ▸ hseen
  · exact SortedSet.mem_insert

theorem mem_stack_reach {c : α} : c ∈ (v.reach b).stack ↔ (c = b ∧ c ∉ v.seen) ∨ c ∈ v.stack := by
  unfold reach
  split
  · next hseen =>
    refine ⟨.inr, fun h => h.elim (fun hc => ?_) id⟩
    exact absurd (hc.1 ▸ hseen) hc.2
  · next hunseen =>
    rw [List.mem_cons]
    refine or_congr_left ⟨fun hc => ⟨hc, ?_⟩, fun hc => hc.1⟩
    exact hc ▸ hunseen

theorem reachAll?_eq_none_iff : reachAll? target bs v = none ↔ target ∈ bs := by
  induction bs generalizing v with
  | nil => simp [reachAll?]
  | cons b bs ih =>
    rw [reachAll?, List.mem_cons]
    split
    · next heq => simp [heq]
    · next hne => rw [ih, or_iff_right (Ne.symm hne)]

theorem mem_reachAll? (h : reachAll? target bs v = some w) (c : α) :
    (c ∈ w.seen ↔ c ∈ bs ∨ c ∈ v.seen) ∧
      (c ∈ w.stack ↔ (c ∈ bs ∧ c ∉ v.seen) ∨ c ∈ v.stack) := by
  induction bs generalizing v with
  | nil =>
    cases h
    simp
  | cons b bs ih =>
    rw [reachAll?] at h
    split at h
    · cases h
    · obtain ⟨hseen, hstack⟩ := ih h
      rw [mem_seen_reach] at hseen
      rw [mem_seen_reach, mem_stack_reach] at hstack
      rw [hseen, hstack, List.mem_cons]
      grind

/-- Nothing is missed: what the search comes to is led to from the source, and what it has left has
successors that have all been seen and are not the target. -/
structure Sound (pairs : List (α × α)) (source target : α) (v : Visit α) : Prop where
  leads : ∀ b ∈ v.stack, b = source ∨ Leads pairs source b
  left : ∀ b, b = source ∨ b ∈ v.seen →
    b ∈ v.stack ∨ ∀ c ∈ successors pairs b, c ≠ target ∧ c ∈ v.seen

omit [Std.TransOrd α] [Std.LawfulEqOrd α] in
theorem sound_start (pairs : List (α × α)) (source target : α) :
    Sound pairs source target ⟨[source], .empty⟩ where
  leads _ hb := .inl (List.mem_singleton.1 hb)
  left b hb := by
    rcases hb with rfl | hb
    · exact .inl (List.mem_singleton_self b)
    · exact absurd hb (SortedSet.not_mem_empty b)

/-- One round of the search, in which a member is left. -/
theorem Sound.step {stack : List α} {seen : SortedSet α}
    (hv : Sound pairs source target ⟨a :: stack, seen⟩)
    (hw : reachAll? target (successors pairs a) ⟨stack, seen⟩ = some w) :
    Sound pairs source target w := by
  have hmem := mem_reachAll? hw
  have htarget : target ∉ successors pairs a := fun htarget => by
    rw [reachAll?_eq_none_iff.2 htarget] at hw
    cases hw
  have ha := hv.leads a (List.mem_cons_self ..)
  refine ⟨fun b hb => ?_, fun b hb => ?_⟩
  · rcases (hmem b).2.1 hb with ⟨hsuccessor, _⟩ | hstack
    · have hab := mem_successors.1 hsuccessor
      rcases ha with rfl | ha
      · exact .inr (.single hab)
      · exact .inr (ha.tail hab)
    · exact hv.leads b (List.mem_cons_of_mem _ hstack)
  · -- A member is new, has been left in this round, or was there before.
    have hleft : b = source ∨ b ∈ seen → b ∈ w.stack ∨
        ∀ c ∈ successors pairs b, c ≠ target ∧ c ∈ w.seen := by
      intro hold
      rcases hv.left b hold with hstack | hsuccessors
      · rcases List.mem_cons.1 hstack with rfl | hstack
        · refine .inr fun c hc => ⟨fun heq => htarget (heq ▸ hc), ?_⟩
          exact (hmem c).1.2 (.inl hc)
        · exact .inl ((hmem b).2.2 (.inr hstack))
      · refine .inr fun c hc => ⟨(hsuccessors c hc).1, ?_⟩
        exact (hmem c).1.2 (.inr (hsuccessors c hc).2)
    rcases hb with hsource | hseen
    · exact hleft (.inl hsource)
    · by_cases hold : b ∈ seen
      · exact hleft (.inr hold)
      · have hsuccessor := ((hmem b).1.1 hseen).resolve_right hold
        exact .inl ((hmem b).2.2 (.inl ⟨hsuccessor, hold⟩))

omit [Std.TransOrd α] [Std.LawfulEqOrd α] in
/-- When all that was seen has been left, the source does not lead to the target. -/
theorem Sound.not_leads {seen : SortedSet α} (hv : Sound pairs source target ⟨[], seen⟩) :
    ¬ Leads pairs source target := by
  have hclosed : ∀ b, b = source ∨ b ∈ seen →
      ∀ c ∈ successors pairs b, c ≠ target ∧ c ∈ seen := fun b hb =>
    (hv.left b hb).resolve_left List.not_mem_nil
  have hseen : ∀ b, Leads pairs source b → b ≠ target ∧ b ∈ seen := by
    intro b hb
    induction hb with
    | single hab => exact hclosed source (.inl rfl) _ (mem_successors.2 hab)
    | tail _ hbc ih => exact hclosed _ (.inr ih.2) _ (mem_successors.2 hbc)
  exact fun htarget => (hseen target htarget).1 rfl

end Visit

/-- Leaves the members on the stack one by one, until the target is reached or none is left. Each
round takes a member off the stack, and what it adds has not been seen before. -/
def searchFrom (target : α) (pairs : List (α × α)) : Visit α → Bool
  | ⟨[], _⟩ => false
  | ⟨a :: stack, seen⟩ =>
    match _ : Visit.reachAll? target (successors pairs a) ⟨stack, seen⟩ with
    | none => true
    | some w => searchFrom target pairs w
termination_by v => v.weight pairs
decreasing_by
  have hle := Visit.weight_reachAll?_le (fun _ hb => hb)
    ‹Visit.reachAll? target (successors pairs a) ⟨stack, seen⟩ = some w›
  exact Nat.lt_of_le_of_lt hle (Nat.add_lt_add_right (Nat.lt_succ_self _) _)

def search (pairs : List (α × α)) (a b : α) : Bool := searchFrom b pairs ⟨[a], .empty⟩

theorem searchFrom_iff (hv : Visit.Sound pairs source target v) :
    searchFrom target pairs v = true ↔ Leads pairs source target := by
  induction v using searchFrom.induct target pairs with
  | case1 seen =>
    rw [searchFrom]
    exact iff_of_false Bool.noConfusion hv.not_leads
  | case2 a stack seen hnone =>
    have htarget := mem_successors.1 (Visit.reachAll?_eq_none_iff.1 hnone)
    rw [searchFrom, hnone]
    refine iff_of_true rfl ?_
    rcases hv.leads a (List.mem_cons_self ..) with rfl | ha
    · exact .single htarget
    · exact ha.tail htarget
  | case3 a stack seen w hsome ih =>
    rw [searchFrom, hsome]
    exact ih (hv.step hsome)

theorem search_iff : search pairs a b = true ↔ Leads pairs a b :=
  searchFrom_iff (Visit.sound_start pairs a b)

/-- Whether members are noted as seen or their pairs are used up, the same chains are found. -/
theorem search_eq_leads (pairs : List (α × α)) (a b : α) : search pairs a b = leads pairs a b :=
  Bool.eq_iff_iff.2 (search_iff.trans leads_iff.symm)

end Chain

end LiftedPlanning
