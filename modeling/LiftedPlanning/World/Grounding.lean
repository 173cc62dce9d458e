import LiftedPlanning.World.Matching

/-!
# Groundings

The ground instances of an action that can be executed in a situation. The asserted preconditions
are matched first; a parameter that no match binds ranges over the objects of the situation.
-/

namespace LiftedPlanning

namespace Situation

/-- The ways to bind the parameters of a list that have no value to objects. -/
def closings (objects : List String) (s : Scope) : List String → Bindings → List Bindings
  | [], c => [c]
  | p :: ps, c =>
    if (c.value? s p).isSome then closings objects s ps c
    else
      objects.flatMap fun o =>
        match c.bind? ⟨s.id, p⟩ o with
        | some c => closings objects s ps c
        | none => []

/-- The binding sets that give every parameter a value and make the preconditions true. -/
def groundingBindings (S : Situation) (i : Instance) : List Bindings :=
  let negatives := i.preconditions.filter ScopedLiteral.negated
  let positives := i.preconditions.filter fun l => !l.negated
  let closed := (S.matchings positives .empty).flatMap
    (closings S.objects.toList i.scope i.action.parameters)
  closed.filter fun c => negatives.all (S.absent c)

/-- The ground instances of an action, in the given scope, whose preconditions hold. -/
def groundings (S : Situation) (action : Action) (id : ScopeId) : List Instance :=
  let i := Instance.lifted action id
  (SortedSet.ofList ((S.groundingBindings i).map i.ground)).toList

theorem mem_groundings {S : Situation} {action : Action} {id : ScopeId} {i : Instance} :
    i ∈ S.groundings action id ↔
      ∃ c ∈ S.groundingBindings (.lifted action id), (Instance.lifted action id).ground c = i := by
  rw [groundings, SortedSet.mem_toList, SortedSet.mem_ofList, List.mem_map]

end Situation

end LiftedPlanning
