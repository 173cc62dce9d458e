import LiftedPlanning.World.Matching

/-!
# Goals and coherence rules

A goal is a conjunction of literals. Its variables live in the goal's scope and ask for some object:
a situation satisfies the goal if all literals can be matched at once.

A rule lists literals that may not all be required together. Its variables stand for whatever the
checked literals denote, objects or classes of variables, and the checked literals are never bound
any further; a rule is therefore violated only if the contradiction is there already.
-/

namespace LiftedPlanning

/-- A conjunction of literals to be reached. -/
structure Goal where
  literals : List Literal
deriving DecidableEq, Hashable, Inhabited

namespace Goal

def scopedLiterals (g : Goal) : List ScopedLiteral := g.literals.map fun l => ⟨.goal, l⟩

def vars (g : Goal) : SortedSet String := .ofList (g.literals.flatMap fun l => l.atom.vars)

def satisfiedBy (g : Goal) (S : Situation) : Bool := (S.firstMatch? g.scopedLiterals .empty).isSome

/-- The number of literals that cannot hold even when each is considered alone. -/
def unsatisfied (g : Goal) (S : Situation) : Nat :=
  g.scopedLiterals.countP fun l => !S.couldHold l .empty

def text (g : Goal) : String := Literal.conjunctionText (g.literals.map Literal.text)

end Goal

/-! ## Rules -/

/-- A literal whose arguments have been replaced by what they denote. -/
structure DenotedLiteral where
  negated : Bool
  name : String
  args : List Denotation
deriving DecidableEq, Hashable

namespace DenotedLiteral

def ofScoped (c : Bindings) (l : ScopedLiteral) : DenotedLiteral :=
  ⟨l.negated, l.atom.name, c.denoteArgs l.scope l.atom⟩

def ofFact (a : Atom) : DenotedLiteral := ⟨false, a.name, a.objects.map Denotation.object⟩

def text (l : DenotedLiteral) : String :=
  Literal.withSign l.negated (Atom.textOf l.name (l.args.map Denotation.text))

end DenotedLiteral

/-- The patterns may never be required together; they share their variables. -/
structure Rule where
  name : String
  patterns : List Literal
deriving DecidableEq, Hashable, Inhabited

namespace Rule

abbrev Valuation := SortedMap String Denotation

/-- Extends a valuation so that the terms of a pattern stand for the given denotations. -/
def matchArgs? : List Term → List Denotation → Valuation → Option Valuation
  | .const name :: xs, d :: ds, v => if d = .object name then matchArgs? xs ds v else none
  | .var name :: xs, d :: ds, v =>
    match v.get? name with
    | some e => if e = d then matchArgs? xs ds v else none
    | none => matchArgs? xs ds (v.insert name d)
  | _, _, v => some v

def match? (pattern : Literal) (l : DenotedLiteral) (v : Valuation) : Option Valuation :=
  if pattern.negated = l.negated ∧ pattern.atom.name = l.name ∧ pattern.atom.arity = l.args.length
  then matchArgs? pattern.atom.args l.args v
  else none

/-- Whether each pattern can become one of the literals, all under one valuation. -/
def matchesAll (ls : List DenotedLiteral) : List Literal → Valuation → Bool
  | [], _ => true
  | p :: ps, v =>
    ls.any fun l =>
      match match? p l v with
      | some v => matchesAll ls ps v
      | none => false

def violatedBy (r : Rule) (ls : List DenotedLiteral) : Bool := matchesAll ls r.patterns .empty

def text (r : Rule) : String :=
  r.name ++ ": not all of [" ++ String.intercalate ", " (r.patterns.map Literal.text) ++ "]"

end Rule

def Situation.coherent (S : Situation) (rules : List Rule) : Bool :=
  !rules.any fun r => r.violatedBy (S.facts.toList.map DenotedLiteral.ofFact)

@[simp] theorem Situation.coherent_nil (S : Situation) : S.coherent [] = true := rfl

end LiftedPlanning
