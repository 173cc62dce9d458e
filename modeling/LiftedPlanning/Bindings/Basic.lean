import LiftedPlanning.Sorted.Set
import LiftedPlanning.Language.Atom

/-!
# Binding sets

A binding set records what is known about the values of the variables of all scopes: which variables
are equal, which of them have a value, and which terms must stay different. Equal variables form a
class, kept as a forest. Each variable that is not the root of its class points to a smaller one, so
that the root is the least variable of the class, and only roots carry a value.

`Bindings.denote` reads a term in a scope. What the scope fixes comes first; otherwise the answer is
the value of the variable's class or, if there is none, the root that stands for the class.
-/

namespace LiftedPlanning

/-- What a term stands for: an object, or a class of variables without a value, which is given by
its root. -/
inductive Denotation where
  | object (name : String)
  | unbound (root : ScopedVar)
deriving DecidableEq, Hashable, Inhabited

namespace Denotation

def object? : Denotation → Option String
  | object name => some name
  | unbound _ => none

def isObject : Denotation → Bool
  | object _ => true
  | unbound _ => false

/-- A variable is written without its scope. -/
def text : Denotation → String
  | object name => name
  | unbound v => "?" ++ v.name

theorem object?_eq_some_iff {d : Denotation} {name : String} :
    d.object? = some name ↔ d = object name := by
  cases d <;> simp [object?]

instance : Ord Denotation where
  compare
    | object a, object b => compare a b
    | object _, unbound _ => .lt
    | unbound _, object _ => .gt
    | unbound v, unbound w => compare v w

instance : Std.TransOrd Denotation where
  eq_swap {d e} := by
    cases d <;> cases e
    · exact Std.OrientedOrd.eq_swap (α := String)
    · rfl
    · rfl
    · exact Std.OrientedOrd.eq_swap (α := ScopedVar)
  isLE_trans {d e f} hde hef := by
    cases d <;> cases e <;> cases f <;> try trivial
    · exact Std.TransOrd.isLE_trans (α := String) hde hef
    · exact Std.TransOrd.isLE_trans (α := ScopedVar) hde hef

instance : Std.LawfulEqOrd Denotation where
  compare_self := Std.ReflOrd.compare_self
  eq_of_compare {d e} h := by
    cases d <;> cases e
    · exact congrArg object (Std.LawfulEqOrd.eq_of_compare (α := String) h)
    · cases h
    · cases h
    · exact congrArg unbound (Std.LawfulEqOrd.eq_of_compare (α := ScopedVar) h)

end Denotation

/-- Two denotations that must stay different, the smaller one first. -/
structure Separation where
  lesser : Denotation
  greater : Denotation
deriving DecidableEq, Hashable

namespace Separation

def of (d e : Denotation) : Separation :=
  if (compare d e).isLE then ⟨d, e⟩ else ⟨e, d⟩

theorem of_comm (d e : Denotation) : of d e = of e d := by
  unfold of
  rw [Std.OrientedOrd.eq_swap (a := d) (b := e)]
  cases h : compare e d with
  | lt => rfl
  | eq =>
    cases Std.LawfulEqOrd.eq_of_compare h
    rfl
  | gt => rfl

instance : Ord Separation where
  compare := compareLex (compareOn lesser) (compareOn greater)

instance : Std.TransOrd Separation :=
  inferInstanceAs (Std.TransCmp (compareLex (compareOn lesser) (compareOn greater)))

instance : Std.LawfulEqOrd Separation where
  compare_self := Std.ReflOrd.compare_self
  eq_of_compare {p q} h := by
    have h := Ordering.then_eq_eq.1 h
    cases p
    cases q
    cases Std.LawfulEqOrd.eq_of_compare h.1
    cases Std.LawfulEqOrd.eq_of_compare h.2
    rfl

end Separation

/-- What is known about the values of variables. -/
structure Bindings where
  /-- Each variable that is not a root, and the smaller variable of its class it points to. -/
  parents : SortedMap ScopedVar ScopedVar
  /-- The roots that have a value. -/
  values : SortedMap ScopedVar String
  /-- What must stay different; a variable is given by its root. -/
  separations : SortedSet Separation
deriving DecidableEq, Hashable

namespace Bindings

def empty : Bindings := ⟨.empty, .empty, .empty⟩

instance : Inhabited Bindings := ⟨empty⟩

def isEmpty (c : Bindings) : Bool :=
  c.parents.isEmpty && c.values.isEmpty && c.separations.isEmpty

/-- The number of variables that are bound to another variable or to an object. -/
def size (c : Bindings) : Nat := c.parents.size + c.values.size

def follow (parents : SortedMap ScopedVar ScopedVar) : Nat → ScopedVar → ScopedVar
  | 0, v => v
  | n + 1, v =>
    match parents.get? v with
    | some w => follow parents n w
    | none => v

/-- The root of the class of a variable. A chain of pointers visits no variable twice, so it is no
longer than there are pointers. -/
def root (c : Bindings) (v : ScopedVar) : ScopedVar := follow c.parents c.parents.size v

def ofVar (c : Bindings) (v : ScopedVar) : Denotation :=
  match c.values.get? (c.root v) with
  | some name => .object name
  | none => .unbound (c.root v)

/-- What a denotation, given before the last requests were accepted, is now. -/
def renew (c : Bindings) : Denotation → Denotation
  | .object name => .object name
  | .unbound v => c.ofVar v

def denote (c : Bindings) (s : Scope) : Term → Denotation
  | .const name => .object name
  | .var name =>
    match s.value? name with
    | some object => .object object
    | none => c.ofVar ⟨s.id, name⟩

def denoteArgs (c : Bindings) (s : Scope) (a : Atom) : List Denotation := a.args.map (c.denote s)

def value? (c : Bindings) (s : Scope) (name : String) : Option String :=
  (c.denote s (.var name)).object?

def ground? (c : Bindings) (s : Scope) (a : Atom) : Option Atom :=
  (a.args.mapM fun x => (c.denote s x).object?).map fun names => ⟨a.name, names.map Term.const⟩

/-- Whether two atoms are already known to be the same. -/
def codesignate (c : Bindings) (s : Scope) (a : Atom) (t : Scope) (b : Atom) : Bool :=
  decide (a.SameSignature b) &&
    (a.args.zip b.args).all fun p => c.denote s p.1 = c.denote t p.2

/-- Whether two terms can stand for one object in no extension of the binding set. -/
def separated (c : Bindings) (s : Scope) (x : Term) (t : Scope) (y : Term) : Bool :=
  match c.denote s x, c.denote t y with
  | .object a, .object b => a ≠ b
  | d, e => Separation.of d e ∈ c.separations

@[simp] theorem denote_const (c : Bindings) (s : Scope) (name : String) :
    c.denote s (.const name) = .object name := rfl

end Bindings

end LiftedPlanning
