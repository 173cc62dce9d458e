import LiftedPlanning.Action.Instance

/-!
# Interference of instances

What the effects of an instance can do to a literal that is required elsewhere. An effect of the
same polarity may achieve it, one of the opposite polarity may undo it, as soon as the two atoms can
be unified. `Instance.protecting` lists the ways to rule out that literals are undone.
-/

namespace LiftedPlanning

namespace Bindings

/-- Replaces each run of equal members by one. -/
def collapse : List Bindings → List Bindings
  | [] => []
  | c :: cs =>
    match collapse cs with
    | [] => [c]
    | d :: ds => if c = d then d :: ds else c :: d :: ds

@[simp] theorem mem_collapse {cs : List Bindings} {d : Bindings} : d ∈ collapse cs ↔ d ∈ cs := by
  induction cs with
  | nil => rfl
  | cons c cs ih =>
    rw [collapse, List.mem_cons, ← ih]
    split
    · next h => simp [h]
    · next e es h =>
      split
      · next hce => simp [h, hce]
      · simp [h]

end Bindings

namespace Instance

def effectsOf (i : Instance) (negated : Bool) : List Literal :=
  i.action.effects.filter fun e => e.negated = negated

/-- The binding set in which an atom of the instance is the atom of a literal. -/
def unify? (i : Instance) (a : Atom) (l : ScopedLiteral) (c : Bindings) : Option Bindings :=
  c.unify? i.scope a l.scope l.atom

def asserting? (i : Instance) (l : ScopedLiteral) (c : Bindings) : Option Bindings :=
  (i.action.preconditions.filter fun p => p.negated = l.negated).findSome? fun p =>
    i.unify? p.atom l c

/-- The binding set in which some effect of the instance makes the literal true; effects are tried
in their order. -/
def establishing? (i : Instance) (l : ScopedLiteral) (c : Bindings) : Option Bindings :=
  (i.effectsOf l.negated).findSome? fun e => i.unify? e.atom l c

/-- Whether some effect is already known to make the literal true. -/
def asserts (i : Instance) (l : ScopedLiteral) (c : Bindings) : Bool :=
  (i.effectsOf l.negated).any fun e => c.codesignate i.scope e.atom l.scope l.atom

/-- Whether some effect may undo a literal that is read in a scope. -/
def undoes (i : Instance) (s : Scope) (l : Literal) (c : Bindings) : Bool :=
  (i.effectsOf (!l.negated)).any fun e => (c.unify? i.scope e.atom s l.atom).isSome

def clobbers (i : Instance) (l : ScopedLiteral) (c : Bindings) : Bool :=
  i.undoes l.scope l.literal c

def destroys (i : Instance) (s : Scope) (l : Literal) (c : Bindings) : Bool :=
  !l.negated && i.undoes s l c

/-- Whether some effect may undo a precondition of another instance, as far as the scopes tell. -/
def threatens (i j : Instance) : Bool :=
  j.action.preconditions.any fun p => i.undoes j.scope p .empty

def conflicts (i : Instance) (ls : List ScopedLiteral) : List (Literal × ScopedLiteral) :=
  ls.flatMap fun l => (i.effectsOf (!l.negated)).map fun e => (e, l)

/-- The ways to extend binding sets so that an effect and a literal never are the same atom. -/
def separating (i : Instance) (branches : List Bindings) (conflict : Literal × ScopedLiteral) :
    List Bindings :=
  Bindings.collapse <| branches.flatMap fun c =>
    c.separationsOf i.scope conflict.1.atom conflict.2.scope conflict.2.atom

def protecting (i : Instance) (ls : List ScopedLiteral) (c : Bindings) : List Bindings :=
  (i.conflicts ls).foldl i.separating [c]

@[simp] theorem protecting_nil (i : Instance) (c : Bindings) : i.protecting [] c = [c] := rfl

theorem mem_effectsOf {i : Instance} {negated : Bool} {e : Literal} :
    e ∈ i.effectsOf negated ↔ e ∈ i.action.effects ∧ e.negated = negated := by
  simp [effectsOf]

end Instance

end LiftedPlanning
