import LiftedPlanning.Action.Schema
import LiftedPlanning.Bindings.Unify

/-!
# Action instances

An instance is one use of an action schema, in a scope of its own. As long as the scope fixes no
values the instance is lifted, and a binding set tells what its parameters stand for. Grounding it
moves these values into the scope.
-/

namespace LiftedPlanning

/-- A use of an action. -/
structure Instance where
  scope : Scope
  action : Action
deriving DecidableEq, Hashable

namespace Instance

/-- The use of an action in a scope that fixes no values. -/
def lifted (action : Action) (id : ScopeId) : Instance := ⟨.lifted id, action⟩

def preconditions (i : Instance) : List ScopedLiteral :=
  i.action.preconditions.map fun l => ⟨i.scope.id, l⟩

def arguments (i : Instance) (c : Bindings) : List Denotation :=
  i.action.parameters.map fun p => c.denote i.scope (.var p)

/-- Fixes the parameters that stand for objects. -/
def ground (i : Instance) (c : Bindings) : Instance :=
  let values := i.action.parameters.filterMap fun p => (c.value? i.scope p).map fun o => (p, o)
  ⟨⟨i.scope.id, .ofList values⟩, i.action⟩

def isGround (i : Instance) : Bool :=
  i.action.parameters.all fun p => (i.scope.value? p).isSome

/-- The written form, with the arguments as they are known under a binding set. -/
def textUnder (i : Instance) (c : Bindings) : String :=
  Atom.textOf i.action.name ((i.arguments c).map Denotation.text)

def text (i : Instance) : String := i.textUnder .empty

instance : Ord Instance where
  compare := compareLex (compareOn scope) (compareOn action)

instance : Std.TransOrd Instance :=
  inferInstanceAs (Std.TransCmp (compareLex (compareOn scope) (compareOn action)))

instance : Std.LawfulEqOrd Instance where
  compare_self := Std.ReflOrd.compare_self
  eq_of_compare {i j} h := by
    have h := Ordering.then_eq_eq.1 h
    cases i
    cases j
    cases Std.LawfulEqOrd.eq_of_compare h.1
    cases Std.LawfulEqOrd.eq_of_compare h.2
    rfl

@[simp] theorem id_ground (i : Instance) (c : Bindings) : (i.ground c).scope.id = i.scope.id := rfl

@[simp] theorem action_ground (i : Instance) (c : Bindings) : (i.ground c).action = i.action := rfl

end Instance

end LiftedPlanning
