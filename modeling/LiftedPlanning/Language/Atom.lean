import LiftedPlanning.Language.Term
import LiftedPlanning.Language.Scope

/-!
# Atoms and literals

An atom applies a predicate to terms, and a literal asserts or denies an atom. A literal of a plan
is tagged with the scope in which its variables are read.
-/

namespace LiftedPlanning

/-- A predicate applied to terms. -/
structure Atom where
  name : String
  args : List Term
deriving DecidableEq, Hashable, Inhabited

namespace Atom

def arity (a : Atom) : Nat := a.args.length

/-- Atoms of one signature have the same predicate and equally many arguments. -/
def SameSignature (a b : Atom) : Prop := a.name = b.name ∧ a.arity = b.arity

instance (a b : Atom) : Decidable (SameSignature a b) :=
  inferInstanceAs (Decidable (_ ∧ _))

def vars (a : Atom) : List String := a.args.filterMap Term.asVar?

def objects (a : Atom) : List String := a.args.filterMap Term.asConst?

def isGround (a : Atom) : Bool := !a.args.any Term.isVar

def textOf (name : String) (args : List String) : String :=
  name ++ "(" ++ String.intercalate ", " args ++ ")"

def text (a : Atom) : String := textOf a.name (a.args.map Term.text)

instance : Ord Atom where
  compare := compareLex (compareOn name) (compareOn args)

instance : Std.TransOrd Atom :=
  inferInstanceAs (Std.TransCmp (compareLex (compareOn name) (compareOn args)))

instance : Std.LawfulEqOrd Atom where
  compare_self := Std.ReflOrd.compare_self
  eq_of_compare {a b} h := by
    have h := Ordering.then_eq_eq.1 h
    cases a
    cases b
    cases Std.LawfulEqOrd.eq_of_compare h.1
    cases Std.LawfulEqOrd.eq_of_compare h.2
    rfl

theorem mem_vars {a : Atom} {name : String} : name ∈ a.vars ↔ Term.var name ∈ a.args := by
  simp only [vars, List.mem_filterMap, Term.asVar?_eq_some_iff]
  constructor
  · rintro ⟨_, h, rfl⟩
    exact h
  · exact fun h => ⟨_, h, rfl⟩

theorem mem_objects {a : Atom} {name : String} : name ∈ a.objects ↔ Term.const name ∈ a.args := by
  simp only [objects, List.mem_filterMap, Term.asConst?_eq_some_iff]
  constructor
  · rintro ⟨_, h, rfl⟩
    exact h
  · exact fun h => ⟨_, h, rfl⟩

end Atom

/-- An atom that is asserted or denied. -/
structure Literal where
  negated : Bool
  atom : Atom
deriving DecidableEq, Hashable, Inhabited

namespace Literal

def pos (atom : Atom) : Literal := ⟨false, atom⟩

def neg (atom : Atom) : Literal := ⟨true, atom⟩

def negate (l : Literal) : Literal := ⟨!l.negated, l.atom⟩

@[simp] theorem negate_negate (l : Literal) : l.negate.negate = l := by
  simp [negate]

def withSign (negated : Bool) (text : String) : String :=
  if negated then "¬" ++ text else text

def text (l : Literal) : String := withSign l.negated l.atom.text

def conjunctionText (texts : List String) : String := String.intercalate " ∧ " texts

instance : Ord Literal where
  compare := compareLex (compareOn negated) (compareOn atom)

instance : Std.TransOrd Literal :=
  inferInstanceAs (Std.TransCmp (compareLex (compareOn negated) (compareOn atom)))

instance : Std.LawfulEqOrd Literal where
  compare_self := Std.ReflOrd.compare_self
  eq_of_compare {l m} h := by
    have h := Ordering.then_eq_eq.1 h
    cases l
    cases m
    cases Std.LawfulEqOrd.eq_of_compare h.1
    cases Std.LawfulEqOrd.eq_of_compare h.2
    rfl

end Literal

/-- A literal, and the scope in which its variables are read. -/
structure ScopedLiteral where
  scopeId : ScopeId
  literal : Literal
deriving DecidableEq, Hashable, Inhabited

namespace ScopedLiteral

def atom (l : ScopedLiteral) : Atom := l.literal.atom

def negated (l : ScopedLiteral) : Bool := l.literal.negated

/-- The scope of the literal; it fixes no value. -/
def scope (l : ScopedLiteral) : Scope := .lifted l.scopeId

def text (l : ScopedLiteral) : String := l.literal.text ++ l.scopeId.text

instance : Ord ScopedLiteral where
  compare := compareLex (compareOn scopeId) (compareOn literal)

instance : Std.TransOrd ScopedLiteral :=
  inferInstanceAs (Std.TransCmp (compareLex (compareOn scopeId) (compareOn literal)))

instance : Std.LawfulEqOrd ScopedLiteral where
  compare_self := Std.ReflOrd.compare_self
  eq_of_compare {l m} h := by
    have h := Ordering.then_eq_eq.1 h
    cases l
    cases m
    cases Std.LawfulEqOrd.eq_of_compare h.1
    cases Std.LawfulEqOrd.eq_of_compare h.2
    rfl

end ScopedLiteral

end LiftedPlanning
