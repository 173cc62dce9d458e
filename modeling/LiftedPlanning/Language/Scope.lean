import LiftedPlanning.Sorted.Map

/-!
# Scopes

Every use of an action, and the goal, has a scope of its own in which its variables are read. A
variable of a plan is therefore a name together with a scope, and two uses of one action never share
a variable. A scope may fix the values of some of its variables.
-/

namespace LiftedPlanning

structure ScopeId where
  toNat : Nat
deriving DecidableEq, Hashable, Inhabited

namespace ScopeId

def goal : ScopeId := ⟨0⟩

/-- The scope in which the facts of a situation are read. As facts have no variables, it does not
matter if an instance has the same scope. -/
def facts : ScopeId := ⟨4294967295⟩

def succ (s : ScopeId) : ScopeId := ⟨s.toNat + 1⟩

def text (s : ScopeId) : String := "#" ++ Nat.repr s.toNat

theorem toNat_injective {s t : ScopeId} (h : s.toNat = t.toNat) : s = t := by
  cases s
  cases t
  cases h
  rfl

instance : Ord ScopeId where
  compare := compareOn toNat

instance : Std.TransOrd ScopeId := inferInstanceAs (Std.TransCmp (compareOn toNat))

instance : Std.LawfulEqOrd ScopeId where
  compare_self := Std.ReflOrd.compare_self
  eq_of_compare h := toNat_injective (Std.LawfulEqOrd.eq_of_compare h)

end ScopeId

/-- Hands out scopes, each one once. -/
structure ScopeSupply where
  next : ScopeId
deriving DecidableEq, Hashable, Inhabited

namespace ScopeSupply

/-- All scopes are free but that of the goal. -/
def initial : ScopeSupply := ⟨ScopeId.goal.succ⟩

def advance (s : ScopeSupply) : ScopeSupply := ⟨s.next.succ⟩

end ScopeSupply

/-- A scope, and the objects that it fixes as the values of its variables. -/
structure Scope where
  id : ScopeId
  fixed : SortedMap String String
deriving DecidableEq, Hashable

namespace Scope

/-- The scope that fixes no value. -/
def lifted (id : ScopeId) : Scope := ⟨id, .empty⟩

def facts : Scope := lifted .facts

def isLifted (s : Scope) : Bool := s.fixed.isEmpty

def value? (s : Scope) (name : String) : Option String := s.fixed.get? name

@[simp] theorem id_lifted (id : ScopeId) : (lifted id).id = id := rfl

@[simp] theorem value?_lifted (id : ScopeId) (name : String) : (lifted id).value? name = none := rfl

instance : Ord Scope where
  compare := compareLex (compareOn id) (compareOn fixed)

instance : Std.TransOrd Scope :=
  inferInstanceAs (Std.TransCmp (compareLex (compareOn id) (compareOn fixed)))

instance : Std.LawfulEqOrd Scope where
  compare_self := Std.ReflOrd.compare_self
  eq_of_compare {s t} h := by
    have h := Ordering.then_eq_eq.1 h
    cases s
    cases t
    cases Std.LawfulEqOrd.eq_of_compare h.1
    cases Std.LawfulEqOrd.eq_of_compare h.2
    rfl

end Scope

structure ScopedVar where
  scope : ScopeId
  name : String
deriving DecidableEq, Hashable, Inhabited

namespace ScopedVar

def text (v : ScopedVar) : String := "?" ++ v.name ++ v.scope.text

instance : Ord ScopedVar where
  compare := compareLex (compareOn scope) (compareOn name)

instance : Std.TransOrd ScopedVar :=
  inferInstanceAs (Std.TransCmp (compareLex (compareOn scope) (compareOn name)))

instance : Std.LawfulEqOrd ScopedVar where
  compare_self := Std.ReflOrd.compare_self
  eq_of_compare {v w} h := by
    have h := Ordering.then_eq_eq.1 h
    cases v
    cases w
    cases Std.LawfulEqOrd.eq_of_compare h.1
    cases Std.LawfulEqOrd.eq_of_compare h.2
    rfl

end ScopedVar

end LiftedPlanning
