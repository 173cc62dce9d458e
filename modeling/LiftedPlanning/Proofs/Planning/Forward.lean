import LiftedPlanning.Planning.Problem
import LiftedPlanning.Proofs.Search.Exhaustion
import LiftedPlanning.Proofs.World.Change
import LiftedPlanning.Proofs.World.Grounding

/-!
# Forward paths

A path of situations is an execution: its instances are ground, each one is applicable where it is
executed, and the path ends in the situation after all of them.
-/

namespace LiftedPlanning

namespace PlanningProblem

variable {p : PlanningProblem} {S T : Situation} {i : Instance} {is : List Instance}

theorem mem_executable (hi : i ∈ p.executable S) :
    i.action ∈ p.actions ∧ ∃ id, i ∈ S.groundings i.action id := by
  obtain ⟨⟨a, n⟩, ha, hi⟩ := List.mem_flatMap.1 hi
  have haction := Situation.action_of_mem_groundings hi
  rw [haction]
  exact ⟨List.fst_mem_of_mem_zipIdx ha, _, hi⟩

structure Executes (p : PlanningProblem) (S : Situation) (i : Instance) : Prop where
  action_mem : i.action ∈ p.actions
  isGround : i.isGround = true
  applicable : S.applicable i = true

theorem executes_of_mem_executable (hactions : ∀ a ∈ p.actions, a.WellFormed) (hS : S.Ground)
    (hi : i ∈ p.executable S) : p.Executes S i := by
  obtain ⟨haction, id, hi⟩ := mem_executable hi
  exact ⟨haction, Situation.isGround_of_mem_groundings hS hi,
    Situation.applicable_of_mem_groundings hS (hactions _ haction) hi⟩

theorem ground_of_reachable (hinitial : p.initial.Ground) (hS : p.forward.Reachable S) :
    S.Ground := by
  induction hS with
  | initial => exact hinitial
  | apply _ _ ih => exact ih.apply _

theorem eq_after_of_path (hpath : p.forward.Path S is T) : T = S.after is := by
  induction hpath with
  | nil S => rfl
  | cons _ _ _ ih => exact ih

theorem action_mem_of_path (hpath : p.forward.Path S is T) : ∀ i ∈ is, i.action ∈ p.actions := by
  induction hpath with
  | nil S => simp
  | cons hoffered _ _ ih => exact List.forall_mem_cons.2 ⟨(mem_executable hoffered).1, ih⟩

theorem executes_of_path (hactions : ∀ a ∈ p.actions, a.WellFormed) (hS : S.Ground)
    (hpath : p.forward.Path S is T) {n : Nat} (hi : is[n]? = some i) :
    p.Executes (S.after (is.take n)) i := by
  induction hpath generalizing n with
  | nil S => simp at hi
  | @cons S T j is hoffered _ _ ih =>
    cases n with
    | zero =>
      cases Option.some.inj hi
      exact executes_of_mem_executable hactions hS hoffered
    | succ n => exact ih (hS.apply j) hi

end PlanningProblem

end LiftedPlanning
