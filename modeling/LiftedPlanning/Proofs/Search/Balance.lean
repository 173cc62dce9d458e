import Mathlib.Data.Finset.Card
import LiftedPlanning.Proofs.Search.Expansion
import LiftedPlanning.Proofs.Search.Optimality

/-!
# What the counters add up to

The initial state and each state to which an operator is followed become an open node or are
dropped, and an open node that is taken is expanded or dropped. So what was expanded or dropped and
what is still open are together one more than what was generated (`Search.Balanced`). A search that
runs out of open nodes has counted all of them; any other one ends at a node that it has taken and
that no counter counts.

A state is closed when it is expanded and stays closed, and an expansion is counted as a repeated
one exactly if its state is closed already (`Search.Tallied`). What is left are as many expansions
as there are different states that were expanded.
-/

namespace LiftedPlanning

universe u v w

def SearchStats.handled (stats : SearchStats) : Nat :=
  stats.expanded + stats.prunedClosed + stats.prunedInvalid

namespace Search

variable {σ : Type u} {ο : Type v} {κ : Type w} [DecidableEq σ] [Hashable σ] [Cost κ]
  {P : SearchSpace σ ο κ} {maxExpansions : Option Nat} {cancelled : Nat → Bool}
  {s s' : Search σ ο κ} {ns : List (SearchNode σ ο κ)} {report : SearchReport σ ο κ} {fuel : Nat}

/-! ## Open nodes -/

/-- What was expanded or dropped and what is open make up what was generated and the initial
state. -/
def Balanced (s : Search σ ο κ) : Prop :=
  s.stats.handled + s.frontier.entries.length = s.stats.generated + 1

theorem balanced_start (P : SearchSpace σ ο κ) (tieBreak : TieBreak) :
    (start P tieBreak).Balanced := rfl

theorem length_entries_enqueue (P : SearchSpace σ ο κ) (s : Search σ ο κ)
    (n : SearchNode σ ο κ) :
    (s.enqueue P n).frontier.entries.length = s.frontier.entries.length + 1 :=
  (s.frontier.perm_push _).length_eq

theorem Balanced.follow (h : s.Balanced) (n : SearchNode σ ο κ) (turn : Nat) (o : ο) :
    (s.follow P n turn o).Balanced := by
  unfold Balanced SearchStats.handled at h
  unfold Search.follow
  dsimp only
  split
  · simp only [Balanced, SearchStats.handled]
    omega
  · split
    · simp only [Balanced, SearchStats.handled]
      omega
    · rw [Balanced, length_entries_enqueue]
      simp only [enqueue, SearchStats.handled]
      omega

theorem Balanced.foldl_follow (h : s.Balanced) (n : SearchNode σ ο κ) (turn : Nat) (os : List ο) :
    (os.foldl (Search.follow P n turn) s).Balanced := by
  induction os generalizing s with
  | nil => exact h
  | cons o os ih => exact ih (h.follow n turn o)

/-- The node that is taken is counted as dropped or as expanded. -/
theorem Balanced.step (h : s.Balanced) (hs : s.step P maxExpansions cancelled = .inr s') :
    s'.Balanced := by
  obtain ⟨e, es, hentries, hcases⟩ := step_eq_inr hs
  rw [Balanced, hentries, List.length_cons] at h
  rcases hcases with ⟨_, rfl⟩ | ⟨_, _, rfl⟩
  · simp only [Balanced, leaving, SearchStats.handled] at h ⊢
    omega
  · refine Balanced.foldl_follow ?_ _ _ _
    simp only [Balanced, leaving, SearchStats.handled] at h ⊢
    omega

/-- A search ends with all nodes counted exactly if it has run out of them. -/
theorem Balanced.of_step_eq_inl (h : s.Balanced)
    (hs : s.step P maxExpansions cancelled = .inl report) :
    report.stats.handled ≤ report.stats.generated + 1 ∧
      (report.stats.handled = report.stats.generated + 1 ↔ report.result = .ok .unreachable) := by
  obtain ⟨hends, hstats⟩ := step_eq_inl hs
  rw [Balanced, ← hstats] at h
  refine ⟨by omega, fun heq => ?_, fun hresult => ?_⟩
  · have hnone : s.frontier.entries = [] := List.eq_nil_of_length_eq_zero (by omega)
    generalize report.result = result at hends
    cases hends with
    | exhausted _ => rfl
    | stopped hentries _ => cases hnone.symm.trans hentries
    | solved hentries _ _ => cases hnone.symm.trans hentries
    | exceeded hentries _ _ _ _ => cases hnone.symm.trans hentries
  · rw [step_eq_unreachable hs hresult] at h
    exact h

/-! ## Expanded states -/

/-- The closed states are those of the nodes that were expanded, and the expansions that were not
counted as repeated are as many as these states. -/
structure Tallied (s : Search σ ο κ) (ns : List (SearchNode σ ο κ)) : Prop where
  contains_closed : ∀ t, s.closed.contains t = true ↔ t ∈ ns.map SearchNode.state
  expanded_eq : s.stats.expanded = s.stats.reopened + (ns.map SearchNode.state).toFinset.card

theorem tallied_start (P : SearchSpace σ ο κ) (tieBreak : TieBreak) :
    (start P tieBreak).Tallied [] :=
  ⟨fun t => by simp [start], rfl⟩

theorem Tallied.step (h : s.Tallied ns) (hs : s.step P maxExpansions cancelled = .inr s') :
    s'.Tallied (ns ++ s.expanding) := by
  rcases idle_or_expands hs with hidle | ⟨n, hexpands⟩
  · rw [hidle.expanding, List.append_nil]
    refine ⟨?_, ?_⟩
    · rw [hidle.closed]
      exact h.contains_closed
    · rw [hidle.expanded, hidle.reopened]
      exact h.expanded_eq
  · rw [hexpands.expanding]
    refine ⟨fun t => ?_, ?_⟩
    · rw [hexpands.closed, Std.HashMap.contains_insert, Bool.or_eq_true, beq_iff_eq,
        h.contains_closed]
      simp [or_comm, eq_comm]
    · have hinsert : ((ns ++ [n]).map SearchNode.state).toFinset =
          insert n.state (ns.map SearchNode.state).toFinset := by
        ext t
        simp
      rw [hexpands.expanded, hexpands.reopened, h.expanded_eq, hinsert]
      -- An expansion either is counted as repeated or is that of a new state.
      by_cases hmem : n.state ∈ ns.map SearchNode.state
      · rw [if_pos ((h.contains_closed _).2 hmem),
          Finset.insert_eq_of_mem (List.mem_toFinset.2 hmem)]
        omega
      · rw [if_neg (mt (h.contains_closed _).1 hmem),
          Finset.card_insert_of_notMem (mt List.mem_toFinset.1 hmem)]
        omega

theorem Tallied.run (h : s.Tallied ns)
    (hrun : s.run P maxExpansions cancelled fuel = some report) :
    report.stats.expanded = report.stats.reopened +
      ((ns ++ s.runExpansions P maxExpansions cancelled fuel).map
        SearchNode.state).toFinset.card := by
  induction fuel generalizing s ns with
  | zero => cases hrun
  | succ fuel ih =>
    rw [run_succ] at hrun
    rw [runExpansions]
    cases hnext : s.step P maxExpansions cancelled with
    | inl r =>
      rw [hnext] at hrun
      cases Option.some.inj hrun
      rw [(step_eq_inl hnext).2, List.append_nil]
      exact h.expanded_eq
    | inr s' =>
      rw [hnext] at hrun
      rw [ih (h.step hnext) hrun, List.append_assoc]

/-- A search that runs from a valid initial state that is not final has expanded and dropped at most
one node more than it has generated, and exactly one more if it ends because no node is open,
whether it ends with an outcome, at its budget or by a cancellation. The expansions that were not
repeated are as many as the different states that were expanded. -/
theorem handled_le_and_expanded_sub_reopened {settings : SearchSettings}
    (hvalid : P.isValid P.initial = true) (hfinal : P.isFinal P.initial = false)
    (h : solve P settings cancelled fuel = some report) :
    report.stats.expanded + report.stats.prunedClosed + report.stats.prunedInvalid ≤
        report.stats.generated + 1 ∧
      (report.stats.expanded + report.stats.prunedClosed + report.stats.prunedInvalid =
          report.stats.generated + 1 ↔ report.result = .ok .unreachable) ∧
      report.stats.reopened ≤ report.stats.expanded ∧
      report.stats.expanded - report.stats.reopened =
        ((expansions P settings cancelled fuel).map SearchNode.state).toFinset.card := by
  have hsolve : solve P settings cancelled fuel =
      (start P settings.tieBreak).run P settings.maxExpansions cancelled fuel := by
    simp [solve, hvalid, hfinal]
  have hexpansions : expansions P settings cancelled fuel =
      (start P settings.tieBreak).runExpansions P settings.maxExpansions cancelled fuel := by
    simp [expansions, hvalid, hfinal]
  rw [hsolve] at h
  obtain ⟨s, hs, hend⟩ := run_induction (I := Balanced) (fun _ _ => Balanced.step)
    (balanced_start P settings.tieBreak) h
  obtain ⟨hle, hall⟩ := hs.of_step_eq_inl hend
  have htally := (tallied_start P settings.tieBreak).run h
  rw [List.nil_append, ← hexpansions] at htally
  exact ⟨hle, hall, by omega, by omega⟩

/-- A graph whose state 1 is opened on a cheaper path before it is expanded. -/
def shortcut : SearchSpace Nat (Nat × Nat) Nat where
  initial := 0
  isFinal s := s == 4
  options
    | 0 => [(1, 3), (2, 1), (3, 5)]
    | 2 => [(1, 1)]
    | 3 => [(4, 1)]
    | _ => []
  apply o _ := o.1
  isValid _ := true
  estimate _ := 0
  cost o := o.2

theorem solve_shortcut : solve shortcut .default (fun taken => decide (4 ≤ taken)) 10 =
    some ⟨.error (.cancelled 3), { expanded := 3, generated := 4, prunedClosed := 1 }⟩ := by
  simp [solve, run, step, start, expand, follow, covers, enqueue, shortcut, Frontier.push,
    Frontier.pop?, Frontier.empty, Entry.place, Entry.Overtakes, Entry.Before,
    SearchSettings.default, finish, Std.HashMap.getElem_insert]

/-- The detour takes four expansions of three states, and two of the six nodes are left when the
plan is found: the final one and one that was never taken. The shortcut is cancelled when its last
open node is taken. -/
theorem card_states_detour :
    (detour.isValid detour.initial = true ∧ detour.isFinal detour.initial = false ∧
      (∃ report, solve detour .default (fun _ => false) 10 = some report ∧
        report.stats.handled = 4 ∧ report.stats.generated = 5 ∧
        report.result ≠ .ok .unreachable) ∧
      ((expansions detour .default (fun _ => false) 10).map SearchNode.state).toFinset.card = 3) ∧
    ∃ report, solve shortcut .default (fun taken => decide (4 ≤ taken)) 10 = some report ∧
      report.stats.prunedClosed = 1 ∧ report.stats.handled < report.stats.generated + 1 ∧
      ((expansions shortcut .default (fun taken => decide (4 ≤ taken)) 10).map
        SearchNode.state).toFinset.card = 3 := by
  have hdetour := solve_detour
  obtain ⟨-, hall, -, hcard⟩ := handled_le_and_expanded_sub_reopened rfl rfl hdetour
  have hshortcut := solve_shortcut
  obtain ⟨hle, hall', -, hcard'⟩ := handled_le_and_expanded_sub_reopened rfl rfl hshortcut
  refine ⟨⟨rfl, rfl, ⟨_, hdetour, rfl, rfl, mt hall.2 (by decide)⟩, hcard.symm⟩,
    ⟨_, hshortcut, rfl, Nat.lt_of_le_of_ne hle fun heq => ?_, hcard'.symm⟩⟩
  cases hall'.1 heq

end Search

end LiftedPlanning
