import LiftedPlanning.Search.Frontier

/-!
# Search spaces, settings and outcomes

A search space is given by its initial state, the operators offered in each state and what they lead
to. The outcome of a search is a plan, unless the initial state is final already or no final state
can be reached.
-/

namespace LiftedPlanning

universe u v w

/-- States, the operators between them, and what is known about costs. -/
structure SearchSpace (σ : Type u) (ο : Type v) (κ : Type w) where
  initial : σ
  isFinal : σ → Bool
  /-- The operators that are offered in a state. -/
  options : σ → List ο
  /-- The state to which an operator leads. -/
  apply : ο → σ → σ
  /-- States that are not valid are never entered. -/
  isValid : σ → Bool
  /-- An estimate of the cost of reaching a final state. -/
  estimate : σ → κ
  cost : ο → κ

/-- How a search is run: how many states it may expand, and how ties are broken. -/
structure SearchSettings where
  maxExpansions : Option Nat
  tieBreak : TieBreak
deriving DecidableEq

/-- Any number of expansions, the oldest node first. -/
def SearchSettings.default : SearchSettings := ⟨none, .oldest⟩

instance : Inhabited SearchSettings := ⟨.default⟩

structure Plan (σ : Type u) (ο : Type v) (κ : Type w) where
  operators : List ο
  cost : κ
  /-- The final state that the path reaches. -/
  terminal : σ

inductive Outcome (σ : Type u) (ο : Type v) (κ : Type w) where
  | alreadySatisfied
  | solved (plan : Plan σ ο κ)
  | unreachable

inductive SearchError where
  | budgetExhausted (expanded : Nat)
  | cancelled (expanded : Nat)
deriving DecidableEq

namespace SearchError

def message : SearchError → String
  | budgetExhausted expanded =>
    "expansion budget exhausted after " ++ Nat.repr expanded ++ " expansions"
  | cancelled expanded => "search cancelled after " ++ Nat.repr expanded ++ " expansions"

end SearchError

/-- A numbered line: the number takes at least three places, blanks in front. -/
def numberedLine (number : Nat) (text : String) : String :=
  let digits := Nat.repr number
  String.ofList (List.replicate (3 - digits.length) ' ') ++ digits ++ ". " ++ text ++ "\n"

def numberedLines (texts : List String) : String :=
  String.join (texts.zipIdx.map fun (text, i) => numberedLine (i + 1) text)

namespace Plan

variable {σ : Type u} {ο : Type v} {κ : Type w}

def text (p : Plan σ ο κ) (operatorText : ο → String) : String :=
  numberedLines (p.operators.map operatorText)

end Plan

namespace Outcome

variable {σ : Type u} {ο : Type v} {κ : Type w}

def isReachable : Outcome σ ο κ → Bool
  | unreachable => false
  | _ => true

def plan? : Outcome σ ο κ → Option (Plan σ ο κ)
  | solved plan => some plan
  | _ => none

def operators? : Outcome σ ο κ → Option (List ο)
  | alreadySatisfied => some []
  | solved plan => some plan.operators
  | unreachable => none

def mapPlan {σ' : Type u} {ο' : Type v} {κ' : Type w} (f : Plan σ ο κ → Plan σ' ο' κ') :
    Outcome σ ο κ → Outcome σ' ο' κ'
  | alreadySatisfied => alreadySatisfied
  | solved plan => solved (f plan)
  | unreachable => unreachable

end Outcome

end LiftedPlanning
