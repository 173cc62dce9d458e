import Std.Data.HashMap
import LiftedPlanning.Search.Space

/-!
# Best-first search

A search takes the most promising open node, stops if its state is final, and otherwise expands it:
the states to which the offered operators lead become open nodes, unless they are invalid or were
reached before at no greater cost. A state that was expanded is opened again when a cheaper path to
it turns up; an open node that was overtaken by a cheaper one is dropped when it is taken.

`Search.step` does this for one open node and is the whole of the search; `Search.run` repeats it.
Here a node carries its path, so nothing has to be traced back at the end. The search that is run
keeps its nodes in an arena (`ArenaSearch`) and reports the same.
-/

namespace LiftedPlanning

universe u v w

/-- An operator, and how many expansions came before the one that offered it. -/
structure Offer (ο : Type v) where
  operator : ο
  turn : Nat

/-- A state that was reached, the cost of the path and the path itself, last operator first. -/
structure SearchNode (σ : Type u) (ο : Type v) (κ : Type w) where
  state : σ
  cost : κ
  trail : List (Offer ο)

def SearchNode.plan {σ : Type u} {ο : Type v} {κ : Type w} (n : SearchNode σ ο κ) :
    Plan σ (Offer ο) κ :=
  ⟨n.trail.reverse, n.cost, n.state⟩

structure SearchStats where
  /-- Nodes that were expanded. -/
  expanded : Nat := 0
  /-- States to which offered operators led. -/
  generated : Nat := 0
  /-- States that were dropped because they are not valid. -/
  prunedInvalid : Nat := 0
  /-- States and open nodes that were dropped because a path as cheap was known. -/
  prunedClosed : Nat := 0
  /-- Expanded states that were expanded again. -/
  reopened : Nat := 0
deriving DecidableEq

structure SearchReport (σ : Type u) (ο : Type v) (κ : Type w) where
  result : Except SearchError (Outcome σ (Offer ο) κ)
  stats : SearchStats

structure Search (σ : Type u) (ο : Type v) (κ : Type w) [BEq σ] [Hashable σ] where
  frontier : Frontier κ (SearchNode σ ο κ)
  /-- The cost at which a state was last put on the frontier, until it is expanded. -/
  waiting : Std.HashMap σ κ
  /-- The cost at which a state was last expanded. -/
  closed : Std.HashMap σ κ
  stats : SearchStats
  /-- How many open nodes were taken. -/
  taken : Nat

namespace Search

variable {σ : Type u} {ο : Type v} {κ : Type w} [DecidableEq σ] [Hashable σ] [Cost κ]

def enqueue (P : SearchSpace σ ο κ) (s : Search σ ο κ) (n : SearchNode σ ο κ) : Search σ ο κ :=
  let estimate := P.estimate n.state
  { s with
    frontier := s.frontier.push ⟨Cost.add n.cost estimate, estimate, n⟩
    waiting := s.waiting.insert n.state n.cost }

/-- The search before the first node is taken. The estimate of the initial state is its total. -/
def start (P : SearchSpace σ ο κ) (tieBreak : TieBreak) : Search σ ο κ :=
  let estimate := P.estimate P.initial
  { frontier := (Frontier.empty tieBreak).push ⟨estimate, estimate, ⟨P.initial, Cost.zero, []⟩⟩
    waiting := (∅ : Std.HashMap σ κ).insert P.initial Cost.zero
    closed := ∅
    stats := {}
    taken := 0 }

/-- Whether a recorded cost makes a path at the given cost superfluous. -/
def covers (costs : Std.HashMap σ κ) (state : σ) (cost : κ) : Bool :=
  costs[state]?.any fun seen => Cost.atMost seen cost

def follow (P : SearchSpace σ ο κ) (n : SearchNode σ ο κ) (turn : Nat) (s : Search σ ο κ)
    (operator : ο) : Search σ ο κ :=
  let child := P.apply operator n.state
  let cost := Cost.add n.cost (P.cost operator)
  let stats := { s.stats with generated := s.stats.generated + 1 }
  if !P.isValid child then
    { s with stats := { stats with prunedInvalid := stats.prunedInvalid + 1 } }
  else if covers s.closed child cost || covers s.waiting child cost then
    { s with stats := { stats with prunedClosed := stats.prunedClosed + 1 } }
  else enqueue P { s with stats := stats } ⟨child, cost, ⟨operator, turn⟩ :: n.trail⟩

def expand (P : SearchSpace σ ο κ) (n : SearchNode σ ο κ) (s : Search σ ο κ) : Search σ ο κ :=
  let turn := s.stats.expanded
  -- A state that is closed already is counted as opened again.
  let again := if s.closed.contains n.state then 1 else 0
  let s := { s with
    waiting := s.waiting.erase n.state
    closed := s.closed.insert n.state n.cost
    stats := { s.stats with expanded := turn + 1, reopened := s.stats.reopened + again } }
  (P.options n.state).foldl (follow P n turn) s

def finish (s : Search σ ο κ) (result : Except SearchError (Outcome σ (Offer ο) κ)) :
    SearchReport σ ο κ ⊕ Search σ ο κ :=
  .inl ⟨result, s.stats⟩

/-- Takes one open node. `cancelled` says whether the search is to stop there, given how many open
nodes were taken before. -/
def step (P : SearchSpace σ ο κ) (maxExpansions : Option Nat) (cancelled : Nat → Bool)
    (s : Search σ ο κ) : SearchReport σ ο κ ⊕ Search σ ο κ :=
  match s.frontier.pop? with
  | none => s.finish (.ok .unreachable)
  | some (n, rest) =>
    if cancelled s.taken then s.finish (.error (.cancelled s.stats.expanded))
    else
      let s := { s with frontier := rest, taken := s.taken + 1 }
      -- A node that was put on the frontier before a path as cheap was expanded is stale.
      if covers s.closed n.state n.cost then
        .inr { s with stats := { s.stats with prunedClosed := s.stats.prunedClosed + 1 } }
      else if P.isFinal n.state then s.finish (.ok (.solved n.plan))
      else if maxExpansions.any fun max => max ≤ s.stats.expanded then
        s.finish (.error (.budgetExhausted s.stats.expanded))
      else .inr (s.expand P n)

/-- Takes open nodes until the search ends, at most `fuel` of them. -/
def run (P : SearchSpace σ ο κ) (maxExpansions : Option Nat) (cancelled : Nat → Bool) :
    Nat → Search σ ο κ → Option (SearchReport σ ο κ)
  | 0, _ => none
  | fuel + 1, s =>
    match s.step P maxExpansions cancelled with
    | .inl report => some report
    | .inr s => run P maxExpansions cancelled fuel s

/-- Searches a space, taking at most `fuel` open nodes. An invalid initial state leads nowhere, and
a final one needs no search. -/
def solve (P : SearchSpace σ ο κ) (settings : SearchSettings) (cancelled : Nat → Bool)
    (fuel : Nat) : Option (SearchReport σ ο κ) :=
  if !P.isValid P.initial then some ⟨.ok .unreachable, {}⟩
  else if P.isFinal P.initial then some ⟨.ok .alreadySatisfied, {}⟩
  else (start P settings.tieBreak).run P settings.maxExpansions cancelled fuel

theorem run_succ (P : SearchSpace σ ο κ) (maxExpansions : Option Nat) (cancelled : Nat → Bool)
    (fuel : Nat) (s : Search σ ο κ) :
    s.run P maxExpansions cancelled (fuel + 1) =
      match s.step P maxExpansions cancelled with
      | .inl report => some report
      | .inr s => s.run P maxExpansions cancelled fuel := rfl

/-- A search that has ended ends in the same way with more fuel. -/
theorem run_mono {P : SearchSpace σ ο κ} {maxExpansions : Option Nat} {cancelled : Nat → Bool}
    {fuel more : Nat} {s : Search σ ο κ} {report : SearchReport σ ο κ}
    (h : s.run P maxExpansions cancelled fuel = some report) (hle : fuel ≤ more) :
    s.run P maxExpansions cancelled more = some report := by
  induction fuel generalizing s more with
  | zero => cases h
  | succ fuel ih =>
    obtain ⟨more, rfl⟩ : ∃ m, more = m + 1 := ⟨more - 1, by omega⟩
    rw [run_succ] at h ⊢
    split at h
    · exact h
    · exact ih h (by omega)

end Search

end LiftedPlanning
