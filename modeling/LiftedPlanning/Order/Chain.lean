/-!
# Chains of precedence pairs

A finite list of pairs `(a, b)`, each read as "`a` comes before `b`". `Chain.leads` decides whether
a chain of one or more pairs leads from one member to another. The pairs may form cycles; a member
precedes itself exactly if it lies on one.
-/

namespace LiftedPlanning

namespace Chain

universe u

variable {α : Type u} [DecidableEq α]

def successors (pairs : List (α × α)) (a : α) : List α :=
  (pairs.filter fun p => p.1 = a).map Prod.snd

def without (pairs : List (α × α)) (a : α) : List (α × α) := pairs.filter fun p => p.1 ≠ a

theorem mem_successors {pairs : List (α × α)} {a b : α} :
    b ∈ successors pairs a ↔ (a, b) ∈ pairs := by
  simp [successors]

theorem length_without_lt {pairs : List (α × α)} {a : α} (h : successors pairs a ≠ []) :
    (without pairs a).length < pairs.length := by
  obtain ⟨b, hb⟩ := List.exists_mem_of_ne_nil _ h
  exact List.length_filter_lt_length_iff_exists.2 ⟨(a, b), mem_successors.1 hb, by simp⟩

/-- Whether a chain leads from some member of a stack to the target. Each member is left only once:
the pairs that start at it are used up with it. -/
def leadsFrom (target : α) (pairs : List (α × α)) : List α → Bool
  | [] => false
  | a :: stack =>
    if successors pairs a = [] then leadsFrom target pairs stack
    else
      decide (target ∈ successors pairs a) ||
        leadsFrom target (without pairs a) (successors pairs a ++ stack)
termination_by stack => (pairs.length, stack.length)
decreasing_by
  · exact .right _ (by simp)
  · next h => exact .left _ _ (length_without_lt h)

/-- Whether a chain of one or more pairs leads from `a` to `b`. -/
def leads (pairs : List (α × α)) (a b : α) : Bool := leadsFrom b pairs [a]

end Chain

end LiftedPlanning
