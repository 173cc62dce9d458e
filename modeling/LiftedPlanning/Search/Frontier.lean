import LiftedPlanning.Search.Cost

/-!
# The frontier of a search

The open nodes of a search, each with its estimated total cost and the estimate of the cost that
remains. Nodes are taken in the order of the total cost, equal ones in the order of the estimate.
Among nodes that agree in both, the tie-break says whether the oldest or the newest one is first.

The entries are kept in the order in which they will be taken, so a tie is decided when an entry is
put at its place.
-/

namespace LiftedPlanning

universe u v

/-- Which of several equally promising nodes is taken first. -/
inductive TieBreak where
  | oldest
  | newest
deriving DecidableEq, Inhabited

/-- An open node with the numbers that decide when it is taken. -/
structure Entry (κ : Type u) (ν : Type v) where
  total : κ
  estimate : κ
  node : ν

namespace Entry

variable {κ : Type u} {ν : Type v} [Cost κ]

def Before (a b : Entry κ ν) : Prop :=
  Cost.rank a.total < Cost.rank b.total ∨
    (Cost.rank a.total = Cost.rank b.total ∧ Cost.rank a.estimate < Cost.rank b.estimate)

instance (a b : Entry κ ν) : Decidable (Before a b) :=
  inferInstanceAs (Decidable (_ ∨ _))

theorem Before.trans {a b c : Entry κ ν} (hab : Before a b) (hbc : Before b c) : Before a c := by
  unfold Before at *
  omega

theorem Before.asymm {a b : Entry κ ν} (hab : Before a b) : ¬ Before b a := by
  unfold Before at *
  omega

def Overtakes (tieBreak : TieBreak) (new old : Entry κ ν) : Prop :=
  match tieBreak with
  | .oldest => Before new old
  | .newest => ¬ Before old new

instance (tieBreak : TieBreak) (new old : Entry κ ν) : Decidable (Overtakes tieBreak new old) :=
  match tieBreak with
  | .oldest => inferInstanceAs (Decidable (Before new old))
  | .newest => inferInstanceAs (Decidable (¬ Before old new))

def place (tieBreak : TieBreak) (new : Entry κ ν) : List (Entry κ ν) → List (Entry κ ν)
  | [] => [new]
  | old :: olds =>
    if Overtakes tieBreak new old then new :: old :: olds else old :: place tieBreak new olds

theorem perm_place (tieBreak : TieBreak) (new : Entry κ ν) (olds : List (Entry κ ν)) :
    (place tieBreak new olds).Perm (new :: olds) := by
  induction olds with
  | nil => exact .refl _
  | cons old olds ih =>
    rw [place]
    split
    · exact .refl _
    · exact (ih.cons old).trans (.swap ..)

theorem not_before_of_not_overtakes {tieBreak : TieBreak} {new old : Entry κ ν}
    (h : ¬ Overtakes tieBreak new old) : ¬ Before new old := by
  cases tieBreak with
  | oldest => exact h
  | newest => exact fun hlt => h hlt.asymm

theorem place_pairwise (tieBreak : TieBreak) (new : Entry κ ν) {olds : List (Entry κ ν)}
    (h : olds.Pairwise fun a b => ¬ Before b a) :
    (place tieBreak new olds).Pairwise fun a b => ¬ Before b a := by
  induction h with
  | nil => exact List.pairwise_singleton _ _
  | @cons old olds hold holds ih =>
    rw [place]
    split
    · next hover =>
      have hnew : ¬ Before old new := by
        cases tieBreak with
        | oldest => exact Before.asymm hover
        | newest => exact hover
      refine .cons (fun b hb => ?_) (.cons hold holds)
      rcases List.mem_cons.1 hb with rfl | hb
      · exact hnew
      · have := hold b hb
        unfold Before at *
        omega
    · next hover =>
      refine .cons (fun b hb => ?_) ih
      rcases List.mem_cons.1 ((perm_place tieBreak new olds).mem_iff.1 hb) with rfl | hb
      · exact not_before_of_not_overtakes hover
      · exact hold b hb

end Entry

/-- The open nodes, in the order in which they will be taken. -/
structure Frontier (κ : Type u) (ν : Type v) where
  tieBreak : TieBreak
  entries : List (Entry κ ν)

namespace Frontier

variable {κ : Type u} {ν : Type v} [Cost κ]

def empty (tieBreak : TieBreak) : Frontier κ ν := ⟨tieBreak, []⟩

def push (q : Frontier κ ν) (e : Entry κ ν) : Frontier κ ν :=
  { q with entries := e.place q.tieBreak q.entries }

def pop? (q : Frontier κ ν) : Option (ν × Frontier κ ν) :=
  match q.entries with
  | [] => none
  | e :: es => some (e.node, { q with entries := es })

omit [Cost κ] in
theorem pop?_eq_none_iff {q : Frontier κ ν} : q.pop? = none ↔ q.entries = [] := by
  unfold pop?
  cases q.entries <;> simp

theorem perm_push (q : Frontier κ ν) (e : Entry κ ν) : (q.push e).entries.Perm (e :: q.entries) :=
  e.perm_place q.tieBreak q.entries

end Frontier

end LiftedPlanning
