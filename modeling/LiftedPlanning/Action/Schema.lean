import LiftedPlanning.Language.Atom

/-!
# Action schemas

An action schema has parameters, preconditions, and effects that are added or deleted when it is
executed. `Action.ofParts` accepts a schema exactly if no parameter is declared twice and every
variable of its literals is a parameter (`Action.WellFormed`).
-/

namespace LiftedPlanning

/-- An action schema. A denied effect deletes its atom, an asserted one adds it. -/
structure Action where
  name : String
  parameters : List String
  preconditions : List Literal
  effects : List Literal
deriving DecidableEq, Hashable, Inhabited

inductive SchemaError where
  | duplicateParameter (action parameter : String)
  | undeclaredVariable (action name : String) (literal : Literal)
deriving DecidableEq

namespace SchemaError

def message : SchemaError → String
  | duplicateParameter action parameter =>
    "action " ++ action ++ ": duplicate parameter ?" ++ parameter
  | undeclaredVariable action name literal =>
    "action " ++ action ++ ": undeclared variable ?" ++ name ++ " in " ++ literal.text

end SchemaError

namespace Action

def literals (a : Action) : List Literal := a.preconditions ++ a.effects

/-- No parameter is declared twice, and every variable is a parameter. -/
structure WellFormed (a : Action) : Prop where
  nodup_parameters : a.parameters.Nodup
  mem_parameters : ∀ l ∈ a.literals, ∀ name ∈ l.atom.vars, name ∈ a.parameters

instance (a : Action) : Decidable a.WellFormed :=
  decidable_of_iff
    (a.parameters.Nodup ∧ ∀ l ∈ a.literals, ∀ name ∈ l.atom.vars, name ∈ a.parameters)
    ⟨fun h => ⟨h.1, h.2⟩, fun h => ⟨h.1, h.2⟩⟩

/-- The name of a declared parameter: blanks around it and question marks in front do not count. -/
def parameterName (declared : String) : String :=
  String.ofList ((Text.trim declared.toList).dropWhile (· = '?'))

def firstRepeated? (seen : List String) : List String → Option String
  | [] => none
  | name :: names =>
    if name ∈ seen then some name else firstRepeated? (name :: seen) names

def firstUndeclared? (a : Action) : Option (String × Literal) :=
  a.literals.findSome? fun l =>
    (l.atom.vars.find? fun name => decide (name ∉ a.parameters)).map fun name => (name, l)

/-- Accepts a well-formed schema. A repeated parameter is reported before an undeclared variable. -/
def check (a : Action) : Except SchemaError Action :=
  match firstRepeated? [] a.parameters with
  | some parameter => .error (.duplicateParameter a.name parameter)
  | none =>
    match a.firstUndeclared? with
    | some (name, literal) => .error (.undeclaredVariable a.name name literal)
    | none => .ok a

def ofParts (name : String) (declared : List String) (preconditions effects : List Literal) :
    Except SchemaError Action :=
  check ⟨name, declared.map parameterName, preconditions, effects⟩

theorem firstRepeated?_eq_none_iff {seen names : List String} :
    firstRepeated? seen names = none ↔ names.Nodup ∧ ∀ name ∈ names, name ∉ seen := by
  induction names generalizing seen with
  | nil => simp [firstRepeated?]
  | cons name names ih =>
    by_cases h : name ∈ seen
    · simp [firstRepeated?, h]
    · simp only [firstRepeated?, h, if_false, ih, List.nodup_cons, List.mem_cons, forall_eq_or_imp,
        not_false_eq_true, true_and, not_or]
      constructor
      · rintro ⟨hnodup, hne⟩
        exact ⟨⟨fun hmem => (hne name hmem).1 rfl, hnodup⟩, fun x hx => (hne x hx).2⟩
      · rintro ⟨⟨hmem, hnodup⟩, hseen⟩
        exact ⟨hnodup, fun x hx => ⟨fun hxn => hmem (hxn ▸ hx), hseen x hx⟩⟩

theorem firstUndeclared?_eq_none_iff {a : Action} :
    a.firstUndeclared? = none ↔
      ∀ l ∈ a.literals, ∀ name ∈ l.atom.vars, name ∈ a.parameters := by
  simp [firstUndeclared?, List.findSome?_eq_none_iff]

theorem check_eq_ok_iff {a b : Action} : a.check = .ok b ↔ a.WellFormed ∧ b = a := by
  unfold check
  split
  · next h =>
    have hrep : ¬ a.parameters.Nodup := fun hnodup => by
      rw [firstRepeated?_eq_none_iff.2 ⟨hnodup, fun _ _ => List.not_mem_nil⟩] at h
      cases h
    simp only [reduceCtorEq, false_iff, not_and]
    exact fun hwf => absurd hwf.nodup_parameters hrep
  · next hrep =>
    split
    · next h =>
      simp only [reduceCtorEq, false_iff, not_and]
      intro hwf
      rw [firstUndeclared?_eq_none_iff.2 hwf.mem_parameters] at h
      cases h
    · next hund =>
      rw [Except.ok.injEq]
      constructor
      · rintro rfl
        exact ⟨⟨(firstRepeated?_eq_none_iff.1 hrep).1, firstUndeclared?_eq_none_iff.1 hund⟩, rfl⟩
      · exact fun h => h.2.symm

instance : Ord Action where
  compare := compareLex (compareOn name) (compareLex (compareOn parameters)
    (compareLex (compareOn preconditions) (compareOn effects)))

instance : Std.TransOrd Action :=
  inferInstanceAs (Std.TransCmp (compareLex (compareOn name) (compareLex (compareOn parameters)
    (compareLex (compareOn preconditions) (compareOn effects)))))

instance : Std.LawfulEqOrd Action where
  compare_self := Std.ReflOrd.compare_self
  eq_of_compare {a b} h := by
    have h₁ := Ordering.then_eq_eq.1 h
    have h₂ := Ordering.then_eq_eq.1 h₁.2
    have h₃ := Ordering.then_eq_eq.1 h₂.2
    cases a
    cases b
    cases Std.LawfulEqOrd.eq_of_compare h₁.1
    cases Std.LawfulEqOrd.eq_of_compare h₂.1
    cases Std.LawfulEqOrd.eq_of_compare h₃.1
    cases Std.LawfulEqOrd.eq_of_compare h₃.2
    rfl

end Action

end LiftedPlanning
