import LiftedPlanning.Planning.Solve
import LiftedPlanning.World.Replay
import LiftedPlanning.Domain
import LiftedPlanning.Format.Planning
import LiftedPlanning.Json.Settings
import LiftedPlanning.Proofs.Search.Optimality
import LiftedPlanning.Proofs.Bindings.Classes
import LiftedPlanning.Proofs.Bindings.Model
import LiftedPlanning.Proofs.Bindings.Settle
import LiftedPlanning.Proofs.Bindings.Answer
import LiftedPlanning.Proofs.Bindings.Generic
import LiftedPlanning.Proofs.Bindings.Request
import LiftedPlanning.Proofs.World.Execution
import LiftedPlanning.Proofs.World.Matching
import LiftedPlanning.Proofs.Regression.Step
import LiftedPlanning.Proofs.Planning.Backward
import LiftedPlanning.Proofs.Order.Chain
import LiftedPlanning.Proofs.Skeleton.Invariant
import LiftedPlanning.Proofs.Skeleton.Refinement
import LiftedPlanning.Proofs.Skeleton.Execution
import LiftedPlanning.Proofs.Planning.PartialOrder
import LiftedPlanning.Proofs.Bindings.Value
import LiftedPlanning.Proofs.World.Change
import LiftedPlanning.Proofs.Search.Exhaustion
import LiftedPlanning.Proofs.Planning.Forward
import LiftedPlanning.Proofs.Planning.SkeletonPath
import LiftedPlanning.Proofs.Planning.SubgoalPath
import LiftedPlanning.Proofs.Planning.RegressionStep
import LiftedPlanning.Proofs.World.Reading
import LiftedPlanning.Proofs.Planning.Estimate
import LiftedPlanning.Proofs.Order.Linear
import LiftedPlanning.Proofs.Skeleton.Value
import LiftedPlanning.Proofs.Skeleton.Acyclicity
import LiftedPlanning.Proofs.Planning.ReachableSkeleton
import LiftedPlanning.Proofs.Planning.Grounded
import LiftedPlanning.Proofs.Regression.Execution
import LiftedPlanning.Proofs.Planning.BackwardCompleteness
import LiftedPlanning.Proofs.Skeleton.Fresh
import LiftedPlanning.Proofs.Skeleton.Threats
import LiftedPlanning.Proofs.Skeleton.Guide
import LiftedPlanning.Proofs.Skeleton.Progress
import LiftedPlanning.Proofs.Planning.RefinementCompleteness
import LiftedPlanning.Proofs.Planning.GroundProblem
import LiftedPlanning.Proofs.Search.Plan
import LiftedPlanning.Proofs.World.Coherence
import LiftedPlanning.Proofs.World.Grounding
import LiftedPlanning.Proofs.Planning.Pruning
import LiftedPlanning.Proofs.Planning.ForwardRun
import LiftedPlanning.Proofs.Search.Termination
import LiftedPlanning.Proofs.Planning.ForwardTermination
import LiftedPlanning.Proofs.Skeleton.Bare
import LiftedPlanning.Proofs.Planning.Verdict
import LiftedPlanning.Proofs.Planning.Repairs
import LiftedPlanning.Proofs.Search.Descent
import LiftedPlanning.Proofs.Planning.FreeRefinements
import LiftedPlanning.Proofs.Search.Semicompleteness
import LiftedPlanning.Proofs.Planning.BackwardTermination
import LiftedPlanning.Proofs.Planning.Scopes
import LiftedPlanning.Proofs.World.Establishment
import LiftedPlanning.Proofs.Bindings.StoredForm
import LiftedPlanning.Proofs.World.Enumeration
import LiftedPlanning.Proofs.Action.Separation
import LiftedPlanning.Proofs.Planning.Acceptance
import LiftedPlanning.Proofs.Search.Consistency
import LiftedPlanning.Proofs.Search.Budget
import LiftedPlanning.Proofs.Search.Balance
import LiftedPlanning.Proofs.Regression.Coherence
import LiftedPlanning.Proofs.Regression.Possibility
import LiftedPlanning.Proofs.Action.Threat
import LiftedPlanning.Proofs.Order.Search
import LiftedPlanning.Proofs.Skeleton.Precedence
import LiftedPlanning.Proofs.Order.Countdown
import LiftedPlanning.Proofs.Planning.LinearOrder
import LiftedPlanning.Proofs.Format.RoundTrip
import LiftedPlanning.Proofs.World.FixedScope
import LiftedPlanning.Proofs.Bindings.Representation
import LiftedPlanning.Proofs.Search.Heap
import LiftedPlanning.Proofs.Search.Arena
