import Mathlib.Data.Prod.Lex
import LiftedPlanning.Proofs.Search.Expansion
import LiftedPlanning.Proofs.Search.Termination

/-!
# Budgets of expansions

A budget only cuts a search short (`Search.solve_budget`). A step with a budget is a step without
one, unless it would expand a node and the budget is spent (`Search.step_some`). So the two searches
take the same nodes until one more is to be expanded than the budget allows, and the one without a
budget, if it ends, has then expanded more.
-/

namespace LiftedPlanning

universe u v w

namespace Search

variable {σ : Type u} {ο : Type v} {κ : Type w} [DecidableEq σ] [Hashable σ] [Cost κ]
  {P : SearchSpace σ ο κ} {max : Nat} {cancelled : Nat → Bool} {s s' : Search σ ο κ}
  {report : SearchReport σ ο κ} {fuel : Nat}

theorem step_some (P : SearchSpace σ ο κ) (max : Nat) (cancelled : Nat → Bool)
    (s : Search σ ο κ) :
    s.step P (some max) cancelled =
      match s.step P none cancelled with
      | .inl report => .inl report
      | .inr s' =>
        if s.expanding.isEmpty || s.stats.expanded < max then .inr s'
        else s.finish (.error (.budgetExhausted s.stats.expanded)) := by
  unfold step expanding Frontier.pop?
  cases hentries : s.frontier.entries with
  | nil => rfl
  | cons e es =>
    by_cases hstop : cancelled s.taken = true
    · simp [hstop, finish]
    · by_cases hcovers : covers s.closed e.node.state e.node.cost = true
      · simp [hstop, hcovers]
      · by_cases hfinal : P.isFinal e.node.state = true
        · simp [hstop, hcovers, hfinal, finish]
        · by_cases hspent : s.stats.expanded < max
          · simp [hstop, hcovers, hfinal, hspent, Nat.not_le.2 hspent]
          · simp [hstop, hcovers, hfinal, hspent, Nat.le_of_not_lt hspent, finish]

theorem step_some_eq_inr (h : s.step P (some max) cancelled = .inr s')
    (hs : s.stats.expanded ≤ max) :
    s.step P none cancelled = .inr s' ∧ s'.stats.expanded ≤ max := by
  rw [step_some] at h
  cases hnext : s.step P none cancelled with
  | inl report =>
    rw [hnext] at h
    cases h
  | inr t =>
    rw [hnext] at h
    dsimp only at h
    split at h
    · next hallowed =>
      cases Sum.inr.inj h
      refine ⟨rfl, ?_⟩
      rcases idle_or_expands hnext with hidle | ⟨n, hexpands⟩
      · rw [hidle.expanded]
        exact hs
      · rw [hexpands.expanding] at hallowed
        rw [hexpands.expanded]
        exact Nat.succ_le_of_lt (by simpa using hallowed)
    · cases h

theorem step_some_eq_inl (h : s.step P (some max) cancelled = .inl report) :
    s.step P none cancelled = .inl report ∨
      max ≤ s.stats.expanded ∧
        report = ⟨.error (.budgetExhausted s.stats.expanded), s.stats⟩ ∧
        ∃ n s', s.step P none cancelled = .inr s' ∧ Expands P s n s' := by
  rw [step_some] at h
  cases hnext : s.step P none cancelled with
  | inl report' =>
    rw [hnext] at h
    exact .inl h
  | inr s' =>
    rw [hnext] at h
    dsimp only at h
    split at h
    · cases h
    · next hspent =>
      cases Sum.inl.inj h
      rcases idle_or_expands hnext with hidle | ⟨n, hexpands⟩
      · simp [hidle.expanding] at hspent
      · refine .inr ⟨?_, rfl, n, s', rfl, hexpands⟩
        simpa [hexpands.expanding] using hspent

theorem expanded_le_of_run {maxExpansions : Option Nat}
    (h : s.run P maxExpansions cancelled fuel = some report) :
    s.stats.expanded ≤ report.stats.expanded := by
  rw [← length_runExpansions h]
  exact Nat.le_add_right _ _

theorem expanded_le_of_run_some (hs : s.stats.expanded ≤ max)
    (h : s.run P (some max) cancelled fuel = some report) : report.stats.expanded ≤ max := by
  obtain ⟨t, ht, hend⟩ := run_induction (I := fun s => s.stats.expanded ≤ max)
    (fun _ _ hs hnext => (step_some_eq_inr hnext hs).2) hs h
  rw [(step_eq_inl hend).2]
  exact ht

/-- A search with a budget is the one without, or it stops where the budget is spent and the other
one expands more. -/
theorem run_some_eq_or (hs : s.stats.expanded ≤ max) (cancelled : Nat → Bool) (fuel : Nat) :
    s.run P (some max) cancelled fuel = s.run P none cancelled fuel ∨
      (∃ stats : SearchStats, stats.expanded = max ∧
        s.run P (some max) cancelled fuel = some ⟨.error (.budgetExhausted max), stats⟩) ∧
      ∀ more report, s.run P none cancelled more = some report → max < report.stats.expanded := by
  induction fuel generalizing s with
  | zero => exact .inl rfl
  | succ fuel ih =>
    rw [run_succ, run_succ]
    cases hnext : s.step P (some max) cancelled with
    | inr s' =>
      obtain ⟨hnext', hs'⟩ := step_some_eq_inr hnext hs
      rw [hnext']
      refine (ih hs').imp_right fun ⟨hstop, hmore⟩ => ⟨hstop, fun more report h => ?_⟩
      cases more with
      | zero => cases h
      | succ more =>
        rw [run_succ, hnext'] at h
        exact hmore more report h
    | inl report =>
      rcases step_some_eq_inl hnext with hnext' | ⟨hspent, rfl, n, s', hnext', hexpands⟩
      · rw [hnext']
        exact .inl rfl
      -- The budget is spent, and without it the step expands one more node.
      · have hmax : s.stats.expanded = max := Nat.le_antisymm hs hspent
        refine .inr ⟨⟨s.stats, hmax, by rw [hmax]⟩, fun more report h => ?_⟩
        cases more with
        | zero => cases h
        | succ more =>
          rw [run_succ, hnext'] at h
          calc
            max < s'.stats.expanded := hexpands.expanded ▸ hmax ▸ Nat.lt_succ_self _
            _ ≤ report.stats.expanded := expanded_le_of_run h

def remaining (max : Nat) (s : Search σ ο κ) : Nat ×ₗ Nat :=
  toLex (max - s.stats.expanded, s.frontier.entries.length)

/-- A search with a budget ends: a step that drops an open node leaves one less, and a step that
expands one leaves less of the budget. -/
theorem exists_run_some_eq_some (hs : s.stats.expanded ≤ max) (cancelled : Nat → Bool) :
    ∃ fuel report, s.run P (some max) cancelled fuel = some report := by
  refine exists_run_of_wellFounded (I := fun s => s.stats.expanded ≤ max)
    (InvImage.wf (remaining max) wellFounded_lt) (fun s s' hs h => ?_) hs
  obtain ⟨hnext, hs'⟩ := step_some_eq_inr h hs
  refine ⟨hs', ?_⟩
  rcases idle_or_expands hnext with hidle | ⟨n, hexpands⟩
  · refine Prod.Lex.toLex_lt_toLex.2 (.inr ⟨?_, hidle.dropped⟩)
    exact congrArg (max - ·) hidle.expanded
  · have hexpanded := hexpands.expanded
    refine Prod.Lex.toLex_lt_toLex.2 (.inl ?_)
    change max - s'.stats.expanded < max - s.stats.expanded
    omega

/-- A budget only cuts a search short. A search with a budget ends; if the search without one ends,
both end in the same way, with the same counters, unless the one without a budget has expanded more
nodes than the budget allows. Then, and if the search without a budget does not end, the budget is
reported as exhausted. -/
theorem solve_budget (P : SearchSpace σ ο κ) (tieBreak : TieBreak) (cancelled : Nat → Bool)
    (max : Nat) :
    (∃ fuel report, ∀ more, fuel ≤ more →
      solve P ⟨some max, tieBreak⟩ cancelled more = some report) ∧
    (∀ fuel report, solve P ⟨none, tieBreak⟩ cancelled fuel = some report →
      (report.stats.expanded ≤ max →
        solve P ⟨some max, tieBreak⟩ cancelled fuel = some report) ∧
      (max < report.stats.expanded → ∃ stats : SearchStats, stats.expanded = max ∧
        solve P ⟨some max, tieBreak⟩ cancelled fuel =
          some ⟨.error (.budgetExhausted max), stats⟩)) ∧
    ((∀ fuel, solve P ⟨none, tieBreak⟩ cancelled fuel = none) →
      ∃ (fuel : Nat) (stats : SearchStats), stats.expanded = max ∧ ∀ more, fuel ≤ more →
        solve P ⟨some max, tieBreak⟩ cancelled more =
          some ⟨.error (.budgetExhausted max), stats⟩) := by
  rcases solve_eq_some_or_eq_run P with ⟨outcome, hsolve⟩ | ⟨_, _, hsolve⟩
  · refine ⟨⟨0, _, fun _ _ => hsolve ..⟩, fun fuel report h => ⟨fun _ => ?_, fun hlt => ?_⟩,
      fun h => ?_⟩
    · rw [hsolve] at h ⊢
      exact h
    · rw [hsolve] at h
      cases Option.some.inj h
      exact absurd hlt (Nat.not_lt_zero _)
    · have hnone := h 0
      rw [hsolve] at hnone
      cases hnone
  · have hstart : (start P tieBreak).stats.expanded ≤ max := Nat.zero_le _
    obtain ⟨fuel, report, hrun⟩ := exists_run_some_eq_some hstart cancelled
    simp only [hsolve]
    refine ⟨⟨fuel, report, fun _ => run_mono hrun⟩, fun fuel report h => ?_, fun h => ?_⟩
    · rcases run_some_eq_or hstart cancelled fuel with heq | ⟨hstop, hmore⟩
      · rw [h] at heq
        have hle := expanded_le_of_run_some hstart heq
        exact ⟨fun _ => heq, fun hlt => absurd hle (Nat.not_le.2 hlt)⟩
      · exact ⟨fun hle => absurd hle (Nat.not_le.2 (hmore fuel report h)), fun _ => hstop⟩
    · rcases run_some_eq_or hstart cancelled fuel with heq | ⟨hstop, _⟩
      · rw [hrun, h fuel] at heq
        cases heq
      · obtain ⟨stats, hexpanded, hstop⟩ := hstop
        exact ⟨fuel, stats, hexpanded, fun _ => run_mono hstop⟩

def counting : SearchSpace Nat Unit Nat where
  initial := 0
  isFinal _ := false
  options _ := [()]
  apply _ s := s + 1
  isValid _ := true
  estimate _ := 0
  cost _ := 1

theorem path_counting (n : Nat) : ∃ os, counting.Path 0 os n := by
  induction n with
  | zero => exact ⟨[], .nil _⟩
  | succ n ih =>
    obtain ⟨os, hpath⟩ := ih
    exact ⟨os ++ [()], hpath.concat (List.mem_singleton_self _) rfl⟩

/-- A search that counts on never ends: it finds no final number, and there are always more. -/
theorem solve_counting (fuel : Nat) : solve counting .default (fun _ => false) fuel = none := by
  refine Option.eq_none_iff_forall_ne_some.2 fun report h => ?_
  obtain ⟨outcome, hresult⟩ := exists_outcome_of_solve rfl (fun _ => rfl) h
  cases outcome with
  | alreadySatisfied =>
    exact Bool.noConfusion (initial_of_solve_eq_alreadySatisfied h hresult).2
  | solved plan => exact Bool.noConfusion (path_of_solve_eq_solved h hresult).2.1
  | unreachable =>
    have hfinite := finite_of_solve_eq_unreachable h hresult rfl
    exact Set.infinite_univ (hfinite.subset fun n _ => path_counting n)

theorem solve_detour_and_counting :
    (solve detour ⟨some 4, .oldest⟩ (fun _ => false) 10 =
        solve detour ⟨none, .oldest⟩ (fun _ => false) 10 ∧
      ∃ stats : SearchStats, stats.expanded = 3 ∧
        solve detour ⟨some 3, .oldest⟩ (fun _ => false) 10 =
          some ⟨.error (.budgetExhausted 3), stats⟩) ∧
    ∃ (fuel : Nat) (stats : SearchStats), stats.expanded = 7 ∧ ∀ more, fuel ≤ more →
      solve counting ⟨some 7, .oldest⟩ (fun _ => false) more =
        some ⟨.error (.budgetExhausted 7), stats⟩ := by
  have hends := solve_budget detour .oldest (fun _ => false)
  have hdetour := solve_detour
  refine ⟨⟨?_, ?_⟩, (solve_budget counting .oldest (fun _ => false) 7).2.2 solve_counting⟩
  · exact (((hends 4).2.1 10 _ hdetour).1 (by decide)).trans hdetour.symm
  · exact ((hends 3).2.1 10 _ hdetour).2 (by decide)

end Search

end LiftedPlanning
