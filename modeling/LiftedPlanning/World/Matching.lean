import LiftedPlanning.World.Situation

/-!
# Matching literals against a situation

A matching of literals extends a binding set so that all of them are true in the situation. Asserted
literals are matched first, each with every fact in turn. A denied literal never binds anything: it
is true if no fact can be unified with it.

`Situation.matchings` lists all matchings, and `Situation.forMatchings` passes them one after the
other to a visitor, which may stop the walk. The walk visits exactly the list
(`Situation.forMatchings_eq`).
-/

namespace LiftedPlanning

namespace Situation

def candidates (S : Situation) (a : Atom) : List Atom :=
  S.facts.toList.filter fun fact => decide (fact.SameSignature a)

def matchFact? (c : Bindings) (l : ScopedLiteral) (fact : Atom) : Option Bindings :=
  c.unify? l.scope l.atom .facts fact

/-- Whether some extension of the binding set makes the literal's atom a fact. -/
def unifiable (S : Situation) (c : Bindings) (l : ScopedLiteral) : Bool :=
  (S.candidates l.atom).any fun fact => (matchFact? c l fact).isSome

/-- Whether the atom of a denied literal is absent: it is ground and no fact or, if it is not
ground, no fact can be unified with it. -/
def absent (S : Situation) (c : Bindings) (l : ScopedLiteral) : Bool :=
  match c.ground? l.scope l.atom with
  | some a => decide (a ∉ S.facts)
  | none => !S.unifiable c l

/-- Whether a literal may hold, considered alone. A denied literal that is not ground may. -/
def couldHold (S : Situation) (l : ScopedLiteral) (c : Bindings) : Bool :=
  if l.negated then
    match c.ground? l.scope l.atom with
    | some a => decide (a ∉ S.facts)
    | none => true
  else S.unifiable c l

def matchingsFrom (S : Situation) (negatives : List ScopedLiteral) :
    List ScopedLiteral → Bindings → List Bindings
  -- Denied literals are tested when the asserted ones have bound what they can.
  | [], c => if negatives.all (S.absent c) then [c] else []
  | l :: ls, c =>
    (S.candidates l.atom).flatMap fun fact =>
      match matchFact? c l fact with
      | some c => S.matchingsFrom negatives ls c
      | none => []

/-- The extensions of a binding set under which all literals hold. -/
def matchings (S : Situation) (ls : List ScopedLiteral) (c : Bindings) : List Bindings :=
  S.matchingsFrom (ls.filter ScopedLiteral.negated) (ls.filter fun l => !l.negated) c

section Walk

variable {m : Type → Type} [Monad m]

def forMatchingsFrom (S : Situation) (negatives : List ScopedLiteral) (visit : Bindings → m Unit) :
    List ScopedLiteral → Bindings → m Unit
  | [], c => if negatives.all (S.absent c) then visit c else pure ()
  | l :: ls, c =>
    forM (S.candidates l.atom) fun fact =>
      match matchFact? c l fact with
      | some c => S.forMatchingsFrom negatives visit ls c
      | none => pure ()

/-- Passes the matchings to a visitor, which may stop the walk. -/
def forMatchings (S : Situation) (ls : List ScopedLiteral) (c : Bindings)
    (visit : Bindings → m Unit) : m Unit :=
  S.forMatchingsFrom (ls.filter ScopedLiteral.negated) visit (ls.filter fun l => !l.negated) c

theorem forMatchingsFrom_eq [LawfulMonad m] (S : Situation) (negatives : List ScopedLiteral)
    (visit : Bindings → m Unit) (ls : List ScopedLiteral) (c : Bindings) :
    S.forMatchingsFrom negatives visit ls c = forM (S.matchingsFrom negatives ls c) visit := by
  induction ls generalizing c with
  | nil =>
    rw [forMatchingsFrom, matchingsFrom]
    split <;> simp
  | cons l ls ih =>
    rw [forMatchingsFrom, matchingsFrom]
    induction S.candidates l.atom with
    | nil => rfl
    | cons fact facts ihf =>
      rw [List.forM_cons, ihf, List.flatMap_cons, List.forM_append]
      cases matchFact? c l fact with
      | none => rfl
      | some d => exact congrArg (· >>= _) (ih d)

/-- A visitor sees the matchings in the order of the list, until it stops. -/
theorem forMatchings_eq [LawfulMonad m] (S : Situation) (ls : List ScopedLiteral) (c : Bindings)
    (visit : Bindings → m Unit) : S.forMatchings ls c visit = forM (S.matchings ls c) visit :=
  S.forMatchingsFrom_eq _ visit _ c

end Walk

/-- The first matching. The walk stops there. -/
def firstMatch? (S : Situation) (ls : List ScopedLiteral) (c : Bindings) : Option Bindings :=
  match S.forMatchings ls c (Except.error : Bindings → Except Bindings Unit) with
  | .error d => some d
  | .ok () => none

theorem firstMatch?_eq_head? (S : Situation) (ls : List ScopedLiteral) (c : Bindings) :
    S.firstMatch? ls c = (S.matchings ls c).head? := by
  rw [firstMatch?, forMatchings_eq]
  cases S.matchings ls c <;> rfl

end Situation

end LiftedPlanning
