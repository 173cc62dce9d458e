import LiftedPlanning.Proofs.Search.Descent
import LiftedPlanning.Proofs.Search.Termination

/-!
# Searches of infinite spaces

A search finds a plan if there is one, also in infinite spaces, as long as operators that cost
nothing cannot be applied for ever (`Search.exists_solve_eq_solved`). The estimate may be any
number. Some open node lies on the path of the plan, and no node is taken that promises more than
this one (`Search.Invariant.total_le_peak`), so that all nodes that are taken are cheap, and in
finitely many states.
-/

namespace LiftedPlanning

universe u v w

namespace Search

variable {σ : Type u} {ο : Type v} {W : Type w} [DecidableEq σ] [Hashable σ]
  {P : SearchSpace σ ο Nat} {t : σ} {os : List ο}

/-- Without a budget, and if nobody cancels it, a search finds a plan if a path of valid states
leads to a final one. -/
theorem exists_solve_eq_solved [Preorder W] [WellFoundedLT W] {weight : σ → W}
    (hdescends : P.Descends weight) {settings : SearchSettings} {cancelled : Nat → Bool}
    (hbudget : settings.maxExpansions = none) (hcancelled : ∀ n, cancelled n = false)
    (hvalid : P.isValid P.initial = true) (hopen : P.isFinal P.initial = false)
    (hpath : P.Path P.initial os t) (hfinal : P.isFinal t = true) :
    ∃ fuel report plan, (∀ more, fuel ≤ more → solve P settings cancelled more = some report) ∧
      report.result = .ok (.solved plan) := by
  let I : Search σ ο Nat → Prop := fun s =>
    s.Invariant P (fun _ _ => False) ∧ s.AllOpen (SearchNode.Recorded P)
  have hstart : I (start P settings.tieBreak) :=
    ⟨invariant_start P _, allOpen_start (SearchNode.inherited_recorded P) _⟩
  have hstep : ∀ s s', I s → s.step P settings.maxExpansions cancelled = .inr s' → I s' :=
    fun _ _ hs h => ⟨hs.1.step h, hs.2.step (SearchNode.inherited_recorded P) h⟩
  -- Only states that are no dearer than the path are expanded, and these are finitely many.
  have hcheap : ∀ s, I s → ∀ e es, s.frontier.entries = e :: es →
      ∃ ps, P.Path P.initial ps e.node.state ∧ P.totalCost ps ≤ P.peak P.initial os := by
    rintro s ⟨hs, hrecorded⟩ e es hentries
    have he : e ∈ s.frontier.entries := hentries ▸ List.mem_cons_self ..
    obtain ⟨hreached, hcost⟩ := hrecorded e he
    refine ⟨_, hreached, ?_⟩
    have htotal := hs.total_eq e he
    have hle := hs.total_le_peak hpath hfinal hentries
    omega
  obtain ⟨fuel, report, hrun⟩ := exists_run_of_finite
    (hdescends.finite_of_totalCost_le .initial (P.peak P.initial os)) hstep hcheap hstart
  have hsolve : ∀ more, fuel ≤ more → solve P settings cancelled more = some report := by
    intro more hmore
    simpa [solve, hvalid, hopen] using run_mono hrun hmore
  have hreport := hsolve fuel (Nat.le_refl _)
  obtain ⟨outcome, hresult⟩ := exists_outcome_of_solve hbudget hcancelled hreport
  cases outcome with
  | unreachable =>
    have hnone := isFinal_eq_false_of_solve_eq_unreachable hreport hresult hvalid hpath
    exact Bool.noConfusion (hnone.symm.trans hfinal)
  | alreadySatisfied =>
    have hinitial := (initial_of_solve_eq_alreadySatisfied hreport hresult).2
    exact Bool.noConfusion (hopen.symm.trans hinitial)
  | solved plan => exact ⟨fuel, report, plan, hsolve, hresult⟩

end Search

end LiftedPlanning
