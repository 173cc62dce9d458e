import LiftedPlanning.Planning.Heuristic
import LiftedPlanning.Regression.Subgoal
import LiftedPlanning.Search.Space
import LiftedPlanning.Skeleton.Refinement
import LiftedPlanning.World.Grounding

/-!
# Planning problems and their search spaces

What every strategy is given: where to start, what can be done, what is wanted, which situations are
incoherent, and how the remaining cost is estimated. Each strategy searches a space of its own.

* Forward, the states are situations and the operators are the ground instances that can be
  executed. Each time a situation is expanded every action is given a fresh scope. Scopes have no
  influence on the search, so the options of a situation are listed in the scopes of the first
  expansion and moved to those of their own turn when a plan is made of them.
* Backward, the states are subgoals, from the goal on, and the operators are the regressions through
  lifted instances. A subgoal is final if the initial situation verifies it. The bindings of that
  verification give the instances of the plan their objects.
* By refinement, the states are plan skeletons, and the operators are their refinements. A skeleton
  costs as many as it has proper steps. The coherence rules of a problem are not consulted, because
  a skeleton does not say what holds between its steps.
-/

namespace LiftedPlanning

namespace Instance

def shift (n : Nat) (i : Instance) : Instance :=
  ⟨⟨⟨i.scope.id.toNat + n⟩, i.scope.fixed⟩, i.action⟩

end Instance

/-- The proper steps in an order in which they can be executed, with the objects that the bindings
give them. -/
def Skeleton.execution (s : Skeleton) : List Instance :=
  s.linearize.map fun i => i.ground s.bindings

/-- A planning problem. -/
structure PlanningProblem where
  initial : Situation
  actions : List Action
  goal : Goal
  rules : List Rule
  heuristic : Heuristic

namespace PlanningProblem

def estimate (p : PlanningProblem) (missing : Nat) : Nat :=
  p.heuristic.estimate missing (Heuristic.widestEffect p.actions)

/-! ## Forward -/

/-- The instances that can be executed in a situation. The action at index `i` has the scope at
index `i` after that of the goal. -/
def executable (p : PlanningProblem) (S : Situation) : List Instance :=
  p.actions.zipIdx.flatMap fun (action, i) => S.groundings action ⟨i + 1⟩

/-- An instance in the scope that it has when `turn` situations were expanded before. -/
def inTurn (p : PlanningProblem) (turn : Nat) (i : Instance) : Instance :=
  i.shift (turn * p.actions.length)

def forward (p : PlanningProblem) : SearchSpace Situation Instance Nat where
  initial := p.initial
  isFinal S := p.goal.satisfiedBy S
  options S := p.executable S
  apply i S := S.apply i
  isValid S := S.coherent p.rules
  estimate S := p.estimate (p.goal.unsatisfied S)
  cost _ := 1

/-! ## Backward -/

def backward (p : PlanningProblem) : SearchSpace Subgoal Regression Nat where
  initial := .ofGoal p.goal
  isFinal s := s.verifiedBy p.initial
  options s := s.regressions p.actions
  apply r s := s.regress r
  isValid s := s.coherent p.rules
  estimate s := p.estimate (s.missing p.initial)
  cost _ := 1

/-- The instances of regressions that lead from the goal to a subgoal, in the order in which they
are executed: the last regression comes first. -/
def executionOrder (p : PlanningProblem) (regressions : List Regression) (terminal : Subgoal) :
    List Instance :=
  let c := (terminal.verification? p.initial).getD terminal.bindings
  regressions.reverse.map fun r => r.inst.ground c

/-! ## By refinement -/

def refinement (p : PlanningProblem) (root : Skeleton) : SearchSpace Skeleton Refinement Nat where
  initial := root
  isFinal s := s.isComplete || (p.goal.satisfiedBy p.initial && s.properSteps.isEmpty)
  options s := s.refinements p.initial p.actions
  apply r s := s.refine r
  isValid s := s.isAcyclic
  estimate s := p.estimate (s.unsupported p.initial)
  cost r := r.newSteps

end PlanningProblem

end LiftedPlanning
