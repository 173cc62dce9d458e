import LiftedPlanning.Planning.Solve
import LiftedPlanning.Proofs.Action.Parameter

/-!
# Problems that a strategy refuses

Planning by refinement needs a step that requires the goal, with the variables of the goal as its
parameters. The variables are declared anew for this, and a declaration does not keep every name
that a variable of a goal can have: one more question mark, or a blank beside it, is lost. So the
strategy refuses a problem exactly if some variable of the goal has such a name, and the other
strategies refuse none (`PlanningProblem.refused_iff`).
-/

namespace LiftedPlanning

theorem Goal.mem_vars {g : Goal} {name : String} :
    name ∈ g.vars ↔ ∃ l ∈ g.literals, name ∈ l.atom.vars :=
  SortedSet.mem_ofList.trans List.mem_flatMap

namespace Skeleton

variable {S : Situation} {g : Goal}

theorem exists_map_lifted_check_iff {a : Action} {id : ScopeId} :
    (∃ i, (a.check.map fun x => Instance.lifted x id) = .ok i) ↔ a.WellFormed := by
  constructor
  · rintro ⟨i, hi⟩
    cases hcheck : a.check with
    | error e =>
      rw [hcheck] at hi
      cases hi
    | ok b => exact (Action.check_eq_ok_iff.1 hcheck).1
  · intro h
    rw [Action.check_eq_ok_iff.2 ⟨h, rfl⟩]
    exact ⟨_, rfl⟩

theorem exists_startStep (hS : S.Ground) : ∃ i, startStep S = .ok i := by
  refine exists_map_lifted_check_iff.2 ⟨List.nodup_nil, fun l hl name hname => ?_⟩
  obtain ⟨a, ha, rfl⟩ := List.mem_map.1 hl
  have hground : ∀ x ∈ a.args, x.isVar = false := by
    simpa [Atom.isGround] using hS a ha
  exact absurd (hground _ (Atom.mem_vars.1 hname)) (by simp)

/-- The variables of a goal are the parameters of a step if their names are plain. -/
theorem exists_finishStep_iff :
    (∃ i, finishStep g = .ok i) ↔ ∀ name ∈ g.vars, Action.PlainName name := by
  refine exists_map_lifted_check_iff.trans
    (Action.wellFormed_declaring_iff g.vars.nodup_toList fun name => ?_)
  rw [List.append_nil]
  exact Goal.mem_vars

theorem exists_ofGoal_iff (hS : S.Ground) :
    (∃ root, ofGoal S g = .ok root) ↔ ∀ name ∈ g.vars, Action.PlainName name := by
  obtain ⟨start, hstart⟩ := exists_startStep hS
  rw [← exists_finishStep_iff, ofGoal, hstart]
  cases finishStep g with
  | error e => simp [Except.map]
  | ok finish => simp [Except.map]

end Skeleton

namespace PlanningProblem

section

variable {σ ο : Type} [DecidableEq σ] [Hashable σ]

theorem solveIn_ne_schema (P : SearchSpace σ ο Nat)
    (restate : Plan σ (Offer ο) Nat → Plan FinalState Instance Nat) (settings : SearchSettings)
    (cancelled : Nat → Bool) (fuel : Nat) (e : SchemaError) :
    solveIn P restate settings cancelled fuel ≠ some (.error (.schema e)) := by
  intro h
  obtain ⟨report, _, h⟩ := Option.map_eq_some_iff.1 h
  split at h <;> cases h

end

/-- In a ground situation there is a first skeleton if and only if all variables of the goal have
plain names, and a strategy refuses the problem for its schemas only where there is none. -/
theorem refused_iff (p : PlanningProblem) (hinitial : p.initial.Ground) :
    ((∃ root, Skeleton.ofGoal p.initial p.goal = .ok root) ↔
      ∀ name ∈ p.goal.vars, Action.PlainName name) ∧
    ∀ strategy settings cancelled fuel,
      (∃ e, p.solve strategy settings cancelled fuel = some (.error (.schema e))) ↔
        strategy = .partialOrder ∧ ∃ name ∈ p.goal.vars, ¬ Action.PlainName name := by
  have hroot := Skeleton.exists_ofGoal_iff (g := p.goal) hinitial
  refine ⟨hroot, fun strategy settings cancelled fuel => ?_⟩
  cases strategy with
  | forward =>
    simp [solve, solveIn_ne_schema]
  | backward =>
    simp [solve, solveIn_ne_schema]
  | partialOrder =>
    have hnone : (∃ name ∈ p.goal.vars, ¬ Action.PlainName name) ↔
        ¬ ∃ root, Skeleton.ofGoal p.initial p.goal = .ok root := by
      rw [hroot]
      simp
    rw [hnone, solve]
    cases Skeleton.ofGoal p.initial p.goal with
    | error e => simp
    | ok root => simp [solveIn_ne_schema]

def asking (token : String) : PlanningProblem where
  initial := .ofAtoms [⟨"p", [.const "A"]⟩]
  actions := []
  goal := ⟨[.pos ⟨"p", [.parse token]⟩]⟩
  rules := []
  heuristic := .goalCount

theorem refused_asking :
    (∀ token, (asking token).initial.Ground) ∧
      (∃ e, (asking "??x").solve .partialOrder .default (fun _ => false) 1 =
        some (.error (.schema e))) ∧
      ∃ root, Skeleton.ofGoal (asking "?x").initial (asking "?x").goal = .ok root := by
  have hground : ∀ token, (asking token).initial.Ground := fun _ => Situation.ground_ofAtoms _
  obtain ⟨_, hrefused⟩ := refused_iff (asking "??x") (hground _)
  obtain ⟨hroot, _⟩ := refused_iff (asking "?x") (hground _)
  refine ⟨hground, (hrefused _ _ _ _).2 ⟨rfl, "?x", ?_, ?_⟩, hroot.2 ?_⟩
  · decide
  · decide
  · decide

/-- The goal with two question marks has no first skeleton, although it is satisfied in the
situation, as the other strategies find. -/
theorem not_exists_ofGoal_asking :
    (asking "??x").initial.Ground ∧
      (¬ ∃ root, Skeleton.ofGoal (asking "??x").initial (asking "??x").goal = .ok root) ∧
      ∀ strategy, strategy ≠ .partialOrder →
        (asking "??x").solve strategy .default (fun _ => false) 0 =
          some (.ok ⟨.alreadySatisfied, {}⟩) := by
  have hrefused : Skeleton.ofGoal (asking "??x").initial (asking "??x").goal =
      .error (.undeclaredVariable "finish" "?x" (.pos ⟨"p", [.var "?x"]⟩)) := by
    rfl
  refine ⟨Situation.ground_ofAtoms _, ?_, fun strategy hstrategy => ?_⟩
  · rw [hrefused]
    simp
  · cases strategy with
    | forward => rfl
    | backward => rfl
    | partialOrder => exact absurd rfl hstrategy

end PlanningProblem

end LiftedPlanning
