import LiftedPlanning.Skeleton.Basic

/-!
# Refinements of plan skeletons

A refinement repairs one flaw of a skeleton. The first threat is repaired before anything else: its
step is put before the producer or after the consumer of the link, or the bindings are extended so
that it cannot undo what the link provides. If there is no threat, the oldest open precondition is
provided by a step of the skeleton or by a new one.
-/

namespace LiftedPlanning

inductive Refinement where
  /-- A step provides an open precondition. -/
  | link (producer : Instance) (target : OpenCondition) (bindings : Bindings)
  /-- A new step provides an open precondition. -/
  | addStep (step : Instance) (target : OpenCondition) (bindings : Bindings)
  /-- A step is put before another one. -/
  | order (precedence : Precedence)
  /-- A step is kept from undoing what a link provides. -/
  | separate (step : Instance) (link : CausalLink) (bindings : Bindings)
deriving DecidableEq, Hashable

namespace Refinement

def text : Refinement → String
  | link producer target _ =>
    "link " ++ producer.text ++ " -> " ++ target.proposition.literal.text
  | addStep step target bindings =>
    "add " ++ step.textUnder bindings ++ " for " ++ target.proposition.literal.text
  | order precedence => "order " ++ precedence.text
  | separate step endangered _ =>
    "separate " ++ step.text ++ " from " ++ endangered.proposition.literal.text

def newSteps : Refinement → Nat
  | addStep _ _ _ => 1
  | link _ _ _ => 0
  | order _ => 0
  | separate _ _ _ => 0

end Refinement

namespace Skeleton

/-- The repairs of a threat: the step before the producer, the step after the consumer, and the
separations. -/
def repairs (s : Skeleton) (t : Threat) : List Refinement :=
  let orders := [(t.step, t.link.producer), (t.link.consumer, t.step)].filter fun p =>
    s.canOrder p.1 p.2
  orders.map (fun p => .order ⟨p.1, p.2⟩) ++
    (t.step.protecting [t.link.proposition] s.bindings).map fun c => .separate t.step t.link c

/-- The bindings under which a step provides a literal. The first step also provides what the
initial situation denies. -/
def support? (s : Skeleton) (S : Situation) (producer : Instance) (l : ScopedLiteral) :
    Option Bindings :=
  if producer = s.start ∧ s.deniedInitially S l = true then some s.bindings
  else producer.establishing? l s.bindings

def linkings (s : Skeleton) (S : Situation) (o : OpenCondition) : List Refinement :=
  (s.steps.toList.filter fun a => s.canOrder a o.step).filterMap fun a =>
    (s.support? S a o.proposition).map fun c => .link a o c

/-- The new steps that provide an open precondition. Effects that do so under the same bindings
count once. -/
def additions (s : Skeleton) (actions : List Action) (o : OpenCondition) : List Refinement :=
  actions.flatMap fun action =>
    let step := Instance.lifted action s.supply.next
    let found := (step.effectsOf o.proposition.negated).filterMap fun e =>
      step.unify? e.atom o.proposition s.bindings
    found.eraseDups.map fun c => .addStep step o c

def refinements (s : Skeleton) (S : Situation) (actions : List Action) : List Refinement :=
  match s.threats, s.openConditions with
  | t :: _, _ => s.repairs t
  | [], o :: _ => s.linkings S o ++ s.additions actions o
  | [], [] => []

def refine (s : Skeleton) : Refinement → Skeleton
  | .link producer target c => s.link producer target c
  | .addStep step target c => s.addStep step target c
  | .order precedence => s.order precedence
  | .separate _ _ c => s.rebind c

theorem refinements_eq_nil_of_isComplete {s : Skeleton} (h : s.isComplete = true) (S : Situation)
    (actions : List Action) : s.refinements S actions = [] := by
  rw [isComplete, Bool.and_eq_true, List.isEmpty_iff, List.isEmpty_iff] at h
  rw [refinements, h.1, h.2]

end Skeleton

end LiftedPlanning
