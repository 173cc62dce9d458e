import LiftedPlanning.Proofs.Search.Path

/-!
# Plans

A plan that a search finds is a path from the initial state to the state that it names as the last
one. The path is not empty, it ends in the first final state that it reaches, and the cost of the
plan is the sum of the costs of its operators in their order
(`Search.path_and_cost_eq_of_solve_eq_solved`). Nothing is required of costs and estimates.

`SearchSpace.departures P s os` lists the states in which the operators `os` are taken, one after
the other from `s` on; the state that the last one reaches is not among them.
-/

namespace LiftedPlanning

universe u v w

namespace SearchSpace

variable {σ : Type u} {ο : Type v} {κ : Type w} {P : SearchSpace σ ο κ} {s t : σ}

def departures (P : SearchSpace σ ο κ) : σ → List ο → List σ
  | _, [] => []
  | s, o :: os => s :: departures P (P.apply o s) os

@[simp] theorem departures_nil (P : SearchSpace σ ο κ) (s : σ) : P.departures s [] = [] := rfl

theorem departures_cons (P : SearchSpace σ ο κ) (s : σ) (o : ο) (os : List ο) :
    P.departures s (o :: os) = s :: P.departures (P.apply o s) os := rfl

theorem Path.departures_concat {os : List ο} (h : P.Path s os t) (o : ο) :
    P.departures s (os ++ [o]) = P.departures s os ++ [t] := by
  induction h with
  | nil _ => rfl
  | cons _ _ _ ih => rw [List.cons_append, departures_cons, ih, departures_cons, List.cons_append]

theorem Path.ne_nil {os : List ο} (h : P.Path s os t) (hs : P.isFinal s = false)
    (ht : P.isFinal t = true) : os ≠ [] := by
  rintro rfl
  cases h
  exact Bool.noConfusion (hs.symm.trans ht)

end SearchSpace

namespace SearchNode

variable {σ : Type u} {ο : Type v} {κ : Type w} [Cost κ]

/-- A node records a path that leaves no final state. -/
structure Direct (P : SearchSpace σ ο κ) (n : SearchNode σ ο κ) : Prop extends Recorded P n where
  not_final : ∀ t ∈ P.departures P.initial n.operators, P.isFinal t = false

theorem inherited_direct (P : SearchSpace σ ο κ) : Inherited P (Direct P) := by
  refine ⟨⟨(inherited_recorded P).initial, fun t ht => ?_⟩, ?_⟩
  · cases ht
  · intro n o turn hn hfinal hoffered hvalid
    refine ⟨(inherited_recorded P).child n o turn hn.toRecorded hfinal hoffered hvalid, ?_⟩
    rw [operators_child, hn.path.departures_concat]
    intro t ht
    rcases List.mem_append.1 ht with ht | ht
    · exact hn.not_final t ht
    · exact List.mem_singleton.1 ht ▸ hfinal

end SearchNode

namespace Search

variable {σ : Type u} {ο : Type v} {κ : Type w} [DecidableEq σ] [Hashable σ] [Cost κ]
  {P : SearchSpace σ ο κ} {settings : SearchSettings} {cancelled : Nat → Bool} {fuel : Nat}
  {report : SearchReport σ ο κ} {plan : Plan σ (Offer ο) κ}

/-- A plan that is found is a path: each operator is offered in the state in which it is taken, no
state on the way is invalid, and the first final state is the last one. Its cost is the sum of the
costs of the operators in their order, from zero on. -/
theorem path_and_cost_eq_of_solve_eq_solved (h : solve P settings cancelled fuel = some report)
    (hsolved : report.result = .ok (.solved plan)) :
    plan.operators ≠ [] ∧ P.isValid P.initial = true ∧
      P.Path P.initial (plan.operators.map Offer.operator) plan.terminal ∧
      P.isFinal plan.terminal = true ∧
      (∀ t ∈ P.departures P.initial (plan.operators.map Offer.operator), P.isFinal t = false) ∧
      plan.cost = (plan.operators.map Offer.operator).foldl
        (fun c o => Cost.add c (P.cost o)) Cost.zero := by
  obtain ⟨hvalid, hinitial, _⟩ := run_of_solve_eq_solved h hsolved
  obtain ⟨n, hn, hfinal, rfl⟩ :=
    exists_node_of_solve_eq_solved (SearchNode.inherited_direct P) h hsolved
  refine ⟨?_, hvalid, hn.path, hfinal, hn.not_final, hn.cost_eq⟩
  intro hnil
  refine hn.path.ne_nil hinitial hfinal ?_
  rw [SearchNode.operators, hnil]
  rfl

end Search

end LiftedPlanning
