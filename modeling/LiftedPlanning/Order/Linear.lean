import LiftedPlanning.Order.Chain

/-!
# Linear orders that respect precedence pairs

`Chain.linearize` lists members one after the other, each time the first one in the given list that
nothing still waiting has to precede. Members that lie on a cycle of pairs, or come after one, are
left out.
-/

namespace LiftedPlanning

namespace Chain

universe u

variable {α : Type u} [DecidableEq α]

def isFree (pairs : List (α × α)) (a : α) : Bool := pairs.all fun p => p.2 ≠ a

theorem isFree_iff {pairs : List (α × α)} {a : α} :
    isFree pairs a = true ↔ ∀ b, (b, a) ∉ pairs := by
  simp only [isFree, List.all_eq_true, decide_eq_true_eq]
  constructor
  · exact fun h b hb => h (b, a) hb rfl
  · rintro h ⟨b, c⟩ hp rfl
    exact h b hp

/-- Lists the members in an order that respects the pairs. -/
def linearize (pairs : List (α × α)) (members : List α) : List α :=
  match _ : members.find? (isFree pairs) with
  | none => []
  | some a => a :: linearize (without pairs a) (members.erase a)
termination_by members.length
decreasing_by
  have hmem := List.mem_of_find?_eq_some ‹members.find? (isFree pairs) = some a›
  rw [List.length_erase_of_mem hmem]
  exact Nat.sub_lt (List.length_pos_of_mem hmem) Nat.one_pos

theorem mem_of_mem_linearize {pairs : List (α × α)} {members : List α} {a : α}
    (h : a ∈ linearize pairs members) : a ∈ members := by
  induction pairs, members using linearize.induct with
  | case1 pairs members hnone =>
    rw [linearize, hnone] at h
    cases h
  | case2 pairs members b hsome ih =>
    rw [linearize, hsome] at h
    rcases List.mem_cons.1 h with rfl | h
    · exact List.mem_of_find?_eq_some hsome
    · exact List.mem_of_mem_erase (ih h)

end Chain

end LiftedPlanning
