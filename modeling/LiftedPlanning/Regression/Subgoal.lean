import LiftedPlanning.Action.Interference
import LiftedPlanning.World.Goal

/-!
# Regression of goals

A subgoal is what has to hold before the instances that were chosen so far are executed. Each of its
literals keeps the scope of the goal or instance that requires it, and the bindings relate the
variables of these scopes. Regression chooses an instance as the one executed just before: it must
achieve at least one literal and may undo none, and its preconditions replace the literals that it
achieves.
-/

namespace LiftedPlanning

/-- A conjunction of literals that is still to be reached. -/
structure Subgoal where
  literals : SortedSet ScopedLiteral
  bindings : Bindings
  supply : ScopeSupply
deriving DecidableEq, Hashable

/-- A lifted instance that achieves some literals of a subgoal and undoes none. -/
structure Regression where
  inst : Instance
  achieved : SortedSet ScopedLiteral
  bindings : Bindings
deriving DecidableEq, Hashable

namespace Regression

def text (r : Regression) : String := r.inst.textUnder r.bindings

end Regression

namespace Subgoal

def ofGoal (g : Goal) : Subgoal := ⟨.ofList g.scopedLiterals, .empty, .initial⟩

/-- The bindings under which a situation makes all literals true. -/
def verification? (s : Subgoal) (S : Situation) : Option Bindings :=
  S.firstMatch? s.literals.toList s.bindings

def verifiedBy (s : Subgoal) (S : Situation) : Bool := (s.verification? S).isSome

/-- The number of literals that a situation cannot make true even one at a time. -/
def missing (s : Subgoal) (S : Situation) : Nat :=
  s.literals.toList.countP fun l => !S.couldHold l s.bindings

/-- The regressions in which a given effect of the instance achieves a given literal. Literals that
the effects then make true outright count as achieved as well. An achieved asserted literal is safe,
because additions win over deletions; every other literal has to be protected. -/
def regressionsVia (s : Subgoal) (i : Instance) (target : ScopedLiteral) (effect : Literal) :
    List Regression :=
  match i.unify? effect.atom target s.bindings with
  | none => []
  | some c =>
    let achieved := s.literals.filter fun l => decide (l = target) || i.asserts l c
    let exposed := s.literals.toList.filter fun l => decide (l ∉ achieved) || l.negated
    (i.protecting exposed c).map fun d => ⟨i, achieved, d⟩

/-- All regressions through the given actions, each once. -/
def regressions (s : Subgoal) (actions : List Action) : List Regression :=
  List.eraseDups <| actions.flatMap fun action =>
    let i := Instance.lifted action s.supply.next
    s.literals.toList.flatMap fun target =>
      (i.effectsOf target.negated).flatMap fun effect => s.regressionsVia i target effect

/-- Adds a required literal unless one that is known to be the same is there. -/
def require (c : Bindings) (ls : SortedSet ScopedLiteral) (l : ScopedLiteral) :
    SortedSet ScopedLiteral :=
  if ls.toList.any fun m =>
      m.negated = l.negated && c.codesignate m.scope m.atom l.scope l.atom then ls
  else ls.insert l

/-- The subgoal before the instance of a regression: the preconditions take the place of what was
achieved. -/
def regress (s : Subgoal) (r : Regression) : Subgoal :=
  ⟨r.inst.preconditions.foldl (require r.bindings) (s.literals.diff r.achieved), r.bindings,
    s.supply.advance⟩

def denoted (s : Subgoal) : List DenotedLiteral :=
  s.literals.toList.map (DenotedLiteral.ofScoped s.bindings)

def contradictory (s : Subgoal) : Bool :=
  s.denoted.any fun l => decide ((⟨!l.negated, l.name, l.args⟩ : DenotedLiteral) ∈ s.denoted)

def coherent (s : Subgoal) (rules : List Rule) : Bool :=
  !s.contradictory && !rules.any fun r => r.violatedBy s.denoted

def text (s : Subgoal) : String :=
  Literal.conjunctionText (s.denoted.map DenotedLiteral.text)

end Subgoal

end LiftedPlanning
