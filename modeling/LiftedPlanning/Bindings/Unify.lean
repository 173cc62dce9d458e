import LiftedPlanning.Bindings.Basic

/-!
# Requests to a binding set

A request asks that terms be equal (`unify?`, `bind?`) or that they stay different (`separate?`). It
is answered by the extended binding set, or by `none` when what is already known rules it out; an
accepted request never touches the binding set it was made to.

`separationsOf` lists the ways to keep two atoms from ever being the same.
-/

namespace LiftedPlanning

namespace Bindings

/-- Makes two denotations equal. Of two roots the smaller one becomes the root of both classes. -/
def identify? (c : Bindings) : Denotation → Denotation → Option Bindings
  | .object a, .object b => if a = b then some c else none
  | .unbound v, .object b => some { c with values := c.values.insert v b }
  | .object a, .unbound w => some { c with values := c.values.insert w a }
  | .unbound v, .unbound w =>
    match compare v w with
    | .lt => some { c with parents := c.parents.insert w v }
    | .eq => some c
    | .gt => some { c with parents := c.parents.insert v w }

def identifyArgs? (s t : Scope) : List Term → List Term → Bindings → Option Bindings
  | x :: xs, y :: ys, c =>
    (c.identify? (c.denote s x) (c.denote t y)).bind (identifyArgs? s t xs ys)
  | _, _, c => some c

/-- Reads the separations anew. One of two different objects holds for ever and is dropped, and one
of a term from itself cannot be kept. -/
def settle? (c : Bindings) : Option Bindings :=
  let pairs := c.separations.toList.map fun p => (c.renew p.lesser, c.renew p.greater)
  if pairs.any fun p => p.1 = p.2 then none
  else
    let lasting := pairs.filter fun p => !(p.1.isObject && p.2.isObject)
    some { c with separations := .ofList (lasting.map fun p => .of p.1 p.2) }

def unify? (c : Bindings) (s : Scope) (a : Atom) (t : Scope) (b : Atom) : Option Bindings :=
  if a.SameSignature b then (identifyArgs? s t a.args b.args c).bind settle? else none

def bind? (c : Bindings) (v : ScopedVar) (object : String) : Option Bindings :=
  (c.identify? (c.ofVar v) (.object object)).bind settle?

/-- Keeps two terms different. Two different objects need no record. -/
def separate? (c : Bindings) (s : Scope) (x : Term) (t : Scope) (y : Term) : Option Bindings :=
  let d := c.denote s x
  let e := c.denote t y
  if d = e then none
  else if d.isObject && e.isObject then some c
  else some { c with separations := c.separations.insert (.of d e) }

/-- The ways to keep two atoms from ever being the same: nothing need be done when they cannot be
unified, and otherwise one pair of arguments has to stay different. Each way is listed once. -/
def separationsOf (c : Bindings) (s : Scope) (a : Atom) (t : Scope) (b : Atom) : List Bindings :=
  if (c.unify? s a t b).isSome then
    ((a.args.zip b.args).filterMap fun p => c.separate? s p.1 t p.2).eraseDups
  else [c]

theorem identifyArgs?_nil (s t : Scope) (c : Bindings) : identifyArgs? s t [] [] c = some c := rfl

theorem identifyArgs?_cons (s t : Scope) (x y : Term) (xs ys : List Term) (c : Bindings) :
    identifyArgs? s t (x :: xs) (y :: ys) c =
      (c.identify? (c.denote s x) (c.denote t y)).bind (identifyArgs? s t xs ys) := rfl

theorem unify?_of_not_sameSignature {c : Bindings} {s t : Scope} {a b : Atom}
    (h : ¬ a.SameSignature b) : c.unify? s a t b = none :=
  if_neg h

theorem separate?_eq_none_iff {c : Bindings} {s t : Scope} {x y : Term} :
    c.separate? s x t y = none ↔ c.denote s x = c.denote t y := by
  unfold separate?
  by_cases h : c.denote s x = c.denote t y
  · simp [h]
  · simp only [h, if_false, iff_false]
    split <;> simp

end Bindings

end LiftedPlanning
