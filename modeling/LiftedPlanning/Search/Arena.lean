import LiftedPlanning.Search.Run

/-!
# Nodes in an arena

A search that keeps its nodes in an arena. The frontier holds indices, and a node points to the one
from which it was reached and bears the operator that leads from there. The path of a plan is not
known before its end is found: then the operators are taken out of the nodes, from the last one back
to the first.

This is the search that is run (`PlanningProblem.solve`). It comes to the same as `Search.solve`,
where each node carries its path.
-/

namespace LiftedPlanning

universe u v w

/-- A node of an arena. -/
structure ArenaNode (σ : Type u) (ο : Type v) (κ : Type w) where
  state : σ
  cost : κ
  /-- The index of the node from which this one was reached. -/
  parent : Option Nat
  /-- The operator by which it was reached, unless that was taken out. -/
  via : Option (Offer ο)

namespace ArenaNode

variable {σ : Type u} {ο : Type v} {κ : Type w}

/-- Goes from a node to its parent for as long as there is one, and takes the operators out of the
nodes that are met. There is no result if an index leads nowhere, or if the way has not ended after
the given number of nodes. -/
def retrace (nodes : Array (ArenaNode σ ο κ)) (operators : Array (Offer ο)) :
    Nat → Option Nat → Option (Array (Offer ο))
  | _, none => some operators
  | 0, some _ => none
  | most + 1, some index =>
    match nodes[index]? with
    | none => none
    | some n =>
      retrace (nodes.setIfInBounds index { n with via := none })
        (n.via.elim operators operators.push) most n.parent

def reconstruct (nodes : Array (ArenaNode σ ο κ)) (goal : Nat) : Option (Plan σ (Offer ο) κ) :=
  nodes[goal]?.bind fun n =>
    -- A way that ends meets no node twice, and so no more nodes than there are.
    (retrace nodes #[] nodes.size (some goal)).map fun operators =>
      ⟨operators.reverse.toList, n.cost, n.state⟩

end ArenaNode

/-- A search under way whose nodes stand in an arena. -/
structure ArenaSearch (σ : Type u) (ο : Type v) (κ : Type w) [BEq σ] [Hashable σ] where
  nodes : Array (ArenaNode σ ο κ)
  frontier : Frontier κ Nat
  waiting : Std.HashMap σ κ
  closed : Std.HashMap σ κ
  stats : SearchStats
  taken : Nat

namespace ArenaSearch

variable {σ : Type u} {ο : Type v} {κ : Type w} [DecidableEq σ] [Hashable σ] [Cost κ]

def enqueue (P : SearchSpace σ ο κ) (s : ArenaSearch σ ο κ) (n : ArenaNode σ ο κ) :
    ArenaSearch σ ο κ :=
  let estimate := P.estimate n.state
  let index := s.nodes.size
  { s with
    nodes := s.nodes.push n
    frontier := s.frontier.push ⟨Cost.add n.cost estimate, estimate, index⟩
    waiting := s.waiting.insert n.state n.cost }

def start (P : SearchSpace σ ο κ) (tieBreak : TieBreak) : ArenaSearch σ ο κ :=
  let estimate := P.estimate P.initial
  { nodes := #[⟨P.initial, Cost.zero, none, none⟩]
    frontier := (Frontier.empty tieBreak).push ⟨estimate, estimate, 0⟩
    waiting := (∅ : Std.HashMap σ κ).insert P.initial Cost.zero
    closed := ∅
    stats := {}
    taken := 0 }

/-- Follows one operator that is offered in the state of the node at an index. -/
def follow (P : SearchSpace σ ο κ) (index : Nat) (n : ArenaNode σ ο κ) (turn : Nat)
    (s : ArenaSearch σ ο κ) (operator : ο) : ArenaSearch σ ο κ :=
  let child := P.apply operator n.state
  let cost := Cost.add n.cost (P.cost operator)
  let stats := { s.stats with generated := s.stats.generated + 1 }
  if !P.isValid child then
    { s with stats := { stats with prunedInvalid := stats.prunedInvalid + 1 } }
  else if Search.covers s.closed child cost || Search.covers s.waiting child cost then
    { s with stats := { stats with prunedClosed := stats.prunedClosed + 1 } }
  else enqueue P { s with stats := stats } ⟨child, cost, some index, some ⟨operator, turn⟩⟩

def expand (P : SearchSpace σ ο κ) (index : Nat) (n : ArenaNode σ ο κ) (s : ArenaSearch σ ο κ) :
    ArenaSearch σ ο κ :=
  let turn := s.stats.expanded
  let again := if s.closed.contains n.state then 1 else 0
  let s := { s with
    waiting := s.waiting.erase n.state
    closed := s.closed.insert n.state n.cost
    stats := { s.stats with expanded := turn + 1, reopened := s.stats.reopened + again } }
  (P.options n.state).foldl (follow P index n turn) s

def finish (s : ArenaSearch σ ο κ) (result : Except SearchError (Outcome σ (Offer ο) κ)) :
    Option (SearchReport σ ο κ ⊕ ArenaSearch σ ο κ) :=
  some (.inl ⟨result, s.stats⟩)

/-- Takes one open node. There is no result if its index leads nowhere, or if its path cannot be
traced back. -/
def step (P : SearchSpace σ ο κ) (maxExpansions : Option Nat) (cancelled : Nat → Bool)
    (s : ArenaSearch σ ο κ) : Option (SearchReport σ ο κ ⊕ ArenaSearch σ ο κ) :=
  match s.frontier.pop? with
  | none => s.finish (.ok .unreachable)
  | some (index, rest) =>
    if cancelled s.taken then s.finish (.error (.cancelled s.stats.expanded))
    else
      let s := { s with frontier := rest, taken := s.taken + 1 }
      s.nodes[index]?.bind fun n =>
        if Search.covers s.closed n.state n.cost then
          some (.inr { s with
            stats := { s.stats with prunedClosed := s.stats.prunedClosed + 1 } })
        else if P.isFinal n.state then
          (ArenaNode.reconstruct s.nodes index).bind fun plan => s.finish (.ok (.solved plan))
        else if maxExpansions.any fun max => max ≤ s.stats.expanded then
          s.finish (.error (.budgetExhausted s.stats.expanded))
        else some (.inr (s.expand P index n))

def run (P : SearchSpace σ ο κ) (maxExpansions : Option Nat) (cancelled : Nat → Bool) :
    Nat → ArenaSearch σ ο κ → Option (SearchReport σ ο κ)
  | 0, _ => none
  | fuel + 1, s =>
    match s.step P maxExpansions cancelled with
    | none => none
    | some (.inl report) => some report
    | some (.inr s) => run P maxExpansions cancelled fuel s

def solve (P : SearchSpace σ ο κ) (settings : SearchSettings) (cancelled : Nat → Bool)
    (fuel : Nat) : Option (SearchReport σ ο κ) :=
  if !P.isValid P.initial then some ⟨.ok .unreachable, {}⟩
  else if P.isFinal P.initial then some ⟨.ok .alreadySatisfied, {}⟩
  else (start P settings.tieBreak).run P settings.maxExpansions cancelled fuel

end ArenaSearch

end LiftedPlanning
