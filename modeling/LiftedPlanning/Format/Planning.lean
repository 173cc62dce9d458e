import LiftedPlanning.Format.Basic
import LiftedPlanning.World.Goal

/-!
# The forms of the language and of planning tasks

A term is a choice between `Constant` and `Variable`, with its name, and a rule a choice with one
alternative, a record. Atoms, literals, actions, situations and goals are records, and the identity
of a scope is a word. An action that is read need not be well formed, and the facts that are read
need not be ground.
-/

namespace LiftedPlanning

variable {F : DataFormat}

instance : Form F ScopeId where
  value s := F.word s.toNat
  ofValue? v := (F.word? v).map ScopeId.mk

instance : Form F Term where
  value
    | .const name => F.choice "Constant" (Form.value name)
    | .var name => F.choice "Variable" (Form.value name)
  ofValue? v :=
    match F.choice? v with
    | some ("Constant", name) => (Form.ofValue? name).map .const
    | some ("Variable", name) => (Form.ofValue? name).map .var
    | _ => none

instance : Form F Atom where
  value a := F.record [("name", Form.value a.name), ("args", Form.value a.args)]
  ofValue? v :=
    match F.record? ["name", "args"] v with
    | some [name, args] => do
      return ⟨← Form.ofValue? name, ← Form.ofValue? args⟩
    | _ => none

instance : Form F Literal where
  value l := F.record [("negated", Form.value l.negated), ("predicate", Form.value l.atom)]
  ofValue? v :=
    match F.record? ["negated", "predicate"] v with
    | some [negated, atom] => do
      return ⟨← Form.ofValue? negated, ← Form.ofValue? atom⟩
    | _ => none

instance : Form F Action where
  value a := F.record [("name", Form.value a.name), ("parameters", Form.value a.parameters),
    ("preconditions", Form.value a.preconditions), ("consequences", Form.value a.effects)]
  ofValue? v :=
    match F.record? ["name", "parameters", "preconditions", "consequences"] v with
    | some [name, parameters, preconditions, effects] => do
      return ⟨← Form.ofValue? name, ← Form.ofValue? parameters, ← Form.ofValue? preconditions,
        ← Form.ofValue? effects⟩
    | _ => none

instance : Form F Situation where
  value S := F.record [("facts", Form.value S.facts)]
  ofValue? v :=
    match F.record? ["facts"] v with
    | some [facts] => (Form.ofValue? facts).map Situation.mk
    | _ => none

instance : Form F Goal where
  value g := F.record [("atoms", Form.value g.literals)]
  ofValue? v :=
    match F.record? ["atoms"] v with
    | some [literals] => (Form.ofValue? literals).map Goal.mk
    | _ => none

instance : Form F Rule where
  value r := F.choice "MutuallyExclusive"
    (F.record [("name", Form.value r.name), ("atoms", Form.value r.patterns)])
  ofValue? v :=
    match F.choice? v with
    | some ("MutuallyExclusive", fields) =>
      match F.record? ["name", "atoms"] fields with
      | some [name, patterns] => do
        return ⟨← Form.ofValue? name, ← Form.ofValue? patterns⟩
      | _ => none
    | _ => none

end LiftedPlanning
