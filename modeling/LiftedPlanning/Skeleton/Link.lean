import LiftedPlanning.Action.Interference

/-!
# Precedences and causal links

The parts of a plan under construction: which step comes before which, which step provides what
another one requires, what is required and not provided yet, and which step endangers what another
one provides. A step of a plan is an instance with a scope of its own.
-/

namespace LiftedPlanning

structure Precedence where
  first : Instance
  second : Instance
deriving DecidableEq, Hashable

namespace Precedence

def toPair (p : Precedence) : Instance × Instance := (p.first, p.second)

def text (p : Precedence) : String := p.first.text ++ " ≺ " ++ p.second.text

instance : Ord Precedence where
  compare := compareLex (compareOn first) (compareOn second)

instance : Std.TransOrd Precedence :=
  inferInstanceAs (Std.TransCmp (compareLex (compareOn first) (compareOn second)))

instance : Std.LawfulEqOrd Precedence where
  compare_self := Std.ReflOrd.compare_self
  eq_of_compare {p q} h := by
    have h := Ordering.then_eq_eq.1 h
    cases p
    cases q
    cases Std.LawfulEqOrd.eq_of_compare h.1
    cases Std.LawfulEqOrd.eq_of_compare h.2
    rfl

end Precedence

/-- The producer makes a literal true that the consumer requires, and no step in between may undo
it. -/
structure CausalLink where
  producer : Instance
  proposition : ScopedLiteral
  consumer : Instance
deriving DecidableEq, Hashable

namespace CausalLink

def text (l : CausalLink) : String :=
  l.producer.text ++ " --" ++ l.proposition.literal.text ++ "--> " ++ l.consumer.text

instance : Ord CausalLink where
  compare := compareLex (compareOn producer)
    (compareLex (compareOn proposition) (compareOn consumer))

instance : Std.TransOrd CausalLink :=
  inferInstanceAs (Std.TransCmp (compareLex (compareOn producer)
    (compareLex (compareOn proposition) (compareOn consumer))))

instance : Std.LawfulEqOrd CausalLink where
  compare_self := Std.ReflOrd.compare_self
  eq_of_compare {l m} h := by
    have h₁ := Ordering.then_eq_eq.1 h
    have h₂ := Ordering.then_eq_eq.1 h₁.2
    cases l
    cases m
    cases Std.LawfulEqOrd.eq_of_compare h₁.1
    cases Std.LawfulEqOrd.eq_of_compare h₂.1
    cases Std.LawfulEqOrd.eq_of_compare h₂.2
    rfl

end CausalLink

/-- A precondition of a step that no link provides yet. -/
structure OpenCondition where
  step : Instance
  proposition : ScopedLiteral
deriving DecidableEq, Hashable

namespace OpenCondition

def ofStep (step : Instance) : List OpenCondition := step.preconditions.map fun l => ⟨step, l⟩

def text (o : OpenCondition) : String := o.proposition.literal.text ++ " for " ++ o.step.text

def linkFrom (o : OpenCondition) (producer : Instance) : CausalLink :=
  ⟨producer, o.proposition, o.step⟩

@[simp] theorem step_of_mem_ofStep {step : Instance} {o : OpenCondition} (h : o ∈ ofStep step) :
    o.step = step := by
  obtain ⟨l, _, rfl⟩ := List.mem_map.1 h
  rfl

end OpenCondition

/-- A step that may come between the ends of a link and undo what it provides. -/
structure Threat where
  step : Instance
  link : CausalLink
deriving DecidableEq, Hashable

end LiftedPlanning
