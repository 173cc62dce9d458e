import LiftedPlanning.Planning.Problem
import LiftedPlanning.Search.Arena

/-!
# Solving planning problems

`PlanningProblem.solve` runs one of the three searches and states its plan in the same form for all
of them: instances in an order in which they are executed, and the state at which the search ended.
-/

namespace LiftedPlanning

universe u v

/-- How a problem is searched. -/
inductive Strategy where
  | forward
  | backward
  | partialOrder
deriving DecidableEq, Inhabited

def Strategy.text : Strategy → String
  | forward => "forward"
  | backward => "backward"
  | partialOrder => "partial-order"

/-- The state at which a search ended, of the kind that its strategy searches. -/
inductive FinalState where
  | situation (state : Situation)
  | subgoal (state : Subgoal)
  | skeleton (state : Skeleton)
deriving DecidableEq

def FinalState.text : FinalState → String
  | situation state => state.text
  | subgoal state => state.text
  | skeleton state => state.text

inductive PlanningError where
  | schema (error : SchemaError)
  | search (error : SearchError)
deriving DecidableEq

def PlanningError.message : PlanningError → String
  | schema error => error.message
  | search error => error.message

/-- What a strategy found, and the counters of its search. -/
structure Solution where
  outcome : Outcome FinalState Instance Nat
  stats : SearchStats

/-- The written form of an outcome: the instances of a plan, one a numbered line. -/
def Outcome.planText {σ : Type u} {κ : Type v} : Outcome σ Instance κ → String
  | alreadySatisfied => "(already satisfied)\n"
  | unreachable => "(unreachable)\n"
  | solved plan => plan.text Instance.text

namespace PlanningProblem

section

variable {σ ο : Type} [DecidableEq σ] [Hashable σ]

def solveIn (P : SearchSpace σ ο Nat)
    (restate : Plan σ (Offer ο) Nat → Plan FinalState Instance Nat) (settings : SearchSettings)
    (cancelled : Nat → Bool) (fuel : Nat) : Option (Except PlanningError Solution) :=
  (ArenaSearch.solve P settings cancelled fuel).map fun report =>
    match report.result with
    | .error e => .error (.search e)
    | .ok outcome => .ok ⟨outcome.mapPlan restate, report.stats⟩

end

def planForward (p : PlanningProblem) (path : Plan Situation (Offer Instance) Nat) :
    Plan FinalState Instance Nat :=
  ⟨path.operators.map fun o => p.inTurn o.turn o.operator, path.cost, .situation path.terminal⟩

def planBackward (p : PlanningProblem) (path : Plan Subgoal (Offer Regression) Nat) :
    Plan FinalState Instance Nat :=
  ⟨p.executionOrder (path.operators.map Offer.operator) path.terminal, path.cost,
    .subgoal path.terminal⟩

def planPartialOrder (path : Plan Skeleton (Offer Refinement) Nat) :
    Plan FinalState Instance Nat :=
  ⟨path.terminal.execution, path.cost, .skeleton path.terminal⟩

/-- Searches with a strategy, taking at most `fuel` open nodes. -/
def solve (p : PlanningProblem) (strategy : Strategy) (settings : SearchSettings)
    (cancelled : Nat → Bool) (fuel : Nat) : Option (Except PlanningError Solution) :=
  match strategy with
  | .forward => solveIn p.forward p.planForward settings cancelled fuel
  | .backward => solveIn p.backward p.planBackward settings cancelled fuel
  | .partialOrder =>
    match Skeleton.ofGoal p.initial p.goal with
    | .error e => some (.error (.schema e))
    | .ok root => solveIn (p.refinement root) planPartialOrder settings cancelled fuel

end PlanningProblem

end LiftedPlanning
