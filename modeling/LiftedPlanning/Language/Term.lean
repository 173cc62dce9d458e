import LiftedPlanning.Text.Basic

/-!
# Terms

A term is the name of an object or a variable. Variables are written with a question mark, which is
not part of their name. Which object a variable stands for depends on the scope in which the term is
read; the term itself does not know its scope.
-/

namespace LiftedPlanning

/-- An argument of an atom. -/
inductive Term where
  | const (name : String)
  | var (name : String)
deriving DecidableEq, Hashable, Inhabited

namespace Term

def isVar : Term → Bool
  | const _ => false
  | var _ => true

def name : Term → String
  | const name => name
  | var name => name

@[simp] theorem isVar_const (name : String) : (const name).isVar = false := rfl

@[simp] theorem isVar_var (name : String) : (var name).isVar = true := rfl

def asVar? : Term → Option String
  | const _ => none
  | var name => some name

def asConst? : Term → Option String
  | const name => some name
  | var _ => none

theorem asVar?_eq_some_iff {t : Term} {name : String} :
    t.asVar? = some name ↔ t = var name := by
  cases t <;> simp [asVar?]

theorem asConst?_eq_some_iff {t : Term} {name : String} :
    t.asConst? = some name ↔ t = const name := by
  cases t <;> simp [asConst?]

theorem ext_of_name {s t : Term} (hvar : s.isVar = t.isVar) (hname : s.name = t.name) : s = t := by
  cases s <;> cases t <;> simp_all [isVar, name]

instance : Ord Term where
  compare := compareLex (compareOn isVar) (compareOn name)

instance : Std.TransOrd Term :=
  inferInstanceAs (Std.TransCmp (compareLex (compareOn isVar) (compareOn name)))

instance : Std.LawfulEqOrd Term where
  compare_self := Std.ReflOrd.compare_self
  eq_of_compare h := by
    have h := Ordering.then_eq_eq.1 h
    exact ext_of_name (Std.LawfulEqOrd.eq_of_compare h.1) (Std.LawfulEqOrd.eq_of_compare h.2)

/-- The written form, with a question mark in front of a variable. -/
def text : Term → String
  | const name => name
  | var name => "?" ++ name

def dropMark : List Char → List Char
  | '?' :: cs => cs
  | cs => cs

/-- The variable of a name that may carry its question mark. -/
def ofVarName (name : String) : Term :=
  var (String.ofList (dropMark name.toList))

/-- Reads a written term: blanks around it do not count, and a question mark makes a variable. -/
def parse (token : String) : Term :=
  match Text.trim token.toList with
  | '?' :: cs => var (String.ofList cs)
  | cs => const (String.ofList cs)

end Term

end LiftedPlanning
