import LiftedPlanning.Action.Instance

/-!
# Situations

A situation is the set of the ground atoms that hold. It is read as a closed world: an atom that is
not among the facts is false. Executing an instance deletes its denied effects and then adds its
asserted ones, so an atom that is both deleted and added holds afterwards.
-/

namespace LiftedPlanning

/-- A state of the world. -/
structure Situation where
  facts : SortedSet Atom
deriving DecidableEq, Hashable, Inhabited

namespace Situation

/-- The situation of a list of atoms; those with variables are left out. -/
def ofAtoms (atoms : List Atom) : Situation := ⟨.ofList (atoms.filter Atom.isGround)⟩

def ofLiterals (literals : List Literal) : Situation :=
  ofAtoms ((literals.filter fun l => !l.negated).map Literal.atom)

def Ground (S : Situation) : Prop := ∀ a ∈ S.facts, a.isGround = true

theorem ground_ofAtoms (atoms : List Atom) : (ofAtoms atoms).Ground := by
  intro a ha
  exact (List.mem_filter.1 (SortedSet.mem_ofList.1 ha)).2

def objects (S : Situation) : SortedSet String := .ofList (S.facts.toList.flatMap Atom.objects)

def holds (S : Situation) (l : Literal) : Bool := decide (l.atom ∈ S.facts) != l.negated

@[simp] theorem holds_pos (S : Situation) (a : Atom) : S.holds (.pos a) = decide (a ∈ S.facts) :=
  Bool.bne_false _

@[simp] theorem holds_neg (S : Situation) (a : Atom) : S.holds (.neg a) = !decide (a ∈ S.facts) :=
  Bool.bne_true _

def text (S : Situation) : String :=
  "\x7b" ++ String.intercalate ", " (S.facts.toList.map Atom.text) ++ "\x7d"

/-- The atoms of the effects of one polarity that are ground in the scope of an instance. -/
def groundEffects (i : Instance) (negated : Bool) : List Atom :=
  (i.action.effects.filter fun l => l.negated = negated).filterMap fun l =>
    Bindings.empty.ground? i.scope l.atom

/-- The situation after an instance is executed: deletions first, then additions. -/
def apply (S : Situation) (i : Instance) : Situation :=
  let kept := (groundEffects i true).foldl (fun facts a => facts.erase a) S.facts
  ⟨(groundEffects i false).foldl (fun facts a => facts.insert a) kept⟩

/-- Whether every precondition of an instance is ground in its scope and true. -/
def applicable (S : Situation) (i : Instance) : Bool :=
  i.action.preconditions.all fun l =>
    match Bindings.empty.ground? i.scope l.atom with
    | some a => S.holds ⟨l.negated, a⟩
    | none => false

theorem mem_foldl_erase {as : List Atom} {facts : SortedSet Atom} {b : Atom} :
    b ∈ as.foldl (fun facts a => facts.erase a) facts ↔ b ∈ facts ∧ b ∉ as := by
  induction as generalizing facts with
  | nil => simp
  | cons a as ih =>
    rw [List.foldl_cons, ih, SortedSet.mem_erase, List.mem_cons, not_or, and_assoc]

/-- A fact holds after an execution if it was added, or held before and was not deleted. -/
theorem mem_facts_apply {S : Situation} {i : Instance} {a : Atom} :
    a ∈ (S.apply i).facts ↔
      (a ∈ S.facts ∧ a ∉ groundEffects i true) ∨ a ∈ groundEffects i false := by
  rw [apply, SortedSet.mem_foldl_insert, mem_foldl_erase]

end Situation

end LiftedPlanning
