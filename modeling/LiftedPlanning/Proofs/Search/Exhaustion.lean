import Mathlib.Data.Set.Finite.List
import LiftedPlanning.Proofs.Search.Optimality

/-!
# Exhausted searches

A search that runs out of open nodes has expanded every state to which a path leads, so that none of
them is final. Neither the costs nor the estimate matter for this, so that the verdicts of a search
are exact (`Search.unreachable_iff_and_alreadySatisfied_iff`). With whole numbers as costs and an
estimate of zero a plan that is found is moreover a cheapest one
(`Search.cost_le_of_estimate_eq_zero`).
-/

namespace LiftedPlanning

universe u v w

namespace SearchSpace

variable {σ : Type u} {ο : Type v} {κ : Type w} {P : SearchSpace σ ο κ} {s t : σ} {os : List ο}

theorem Path.reachable (h : P.Path s os t) (hs : P.Reachable s) : P.Reachable t :=
  h.walk.reachable hs

theorem Path.isValid (h : P.Path s os t) (hs : P.isValid s = true) : P.isValid t = true := by
  induction h with
  | nil _ => exact hs
  | cons _ hvalid _ ih => exact ih hvalid

theorem totalCost_eq_length {P : SearchSpace σ ο Nat} (hcost : ∀ o, P.cost o = 1) (os : List ο) :
    P.totalCost os = os.length := by
  induction os with
  | nil => rfl
  | cons o os ih => rw [totalCost_cons, hcost, ih, List.length_cons, Nat.add_comm]

end SearchSpace

namespace Search

section

variable {σ : Type u} {ο : Type v} {κ : Type w} [DecidableEq σ] [Hashable σ] [Cost κ]
  {P : SearchSpace σ ο κ} {cancelled : Nat → Bool} {s : Search σ ο κ} {r t : σ}
  {R : κ → κ → Prop} {report : SearchReport σ ο κ} {settings : SearchSettings} {fuel : Nat}
  {os : List ο}

theorem Coverage.exists_closed_of_path (h : s.Coverage R P fun _ _ => False)
    (hnone : s.frontier.entries = []) (hpath : P.Path r os t)
    (hr : ∃ c, s.closed[r]? = some c) : ∃ c, s.closed[t]? = some c := by
  induction hpath with
  | nil r => exact hr
  | cons hoffered hvalid _ ih =>
    obtain ⟨c, hc⟩ := hr
    rcases h.covered_of_closed _ c hc _ hoffered hvalid id with ⟨d, hd, _⟩ | ⟨e, he, _⟩
    · exact ih ⟨d, hd⟩
    · rw [hnone] at he
      cases he

/-- If a search ends without a plan, it has expanded every state to which a path leads, and none of
them is final. -/
theorem exists_closed_of_solve_eq_unreachable
    (h : solve P settings cancelled fuel = some report)
    (hresult : report.result = .ok .unreachable) (hvalid : P.isValid P.initial = true) :
    ∃ closed : Std.HashMap σ κ, ∀ os t, P.Path P.initial os t →
      (∃ c, closed[t]? = some c) ∧ P.isFinal t = false := by
  unfold solve at h
  rw [hvalid] at h
  simp only [Bool.not_true, Bool.false_eq_true, if_false] at h
  split at h
  · cases Option.some.inj h
    cases hresult
  · have hR : Cost.Dominance fun _ _ : κ => True := Cost.dominance_true
    obtain ⟨s, hs, hend⟩ :=
      run_induction (I := fun s => s.Coverage (fun _ _ => True) P fun _ _ => False)
        (fun _ _ => Coverage.step hR) (coverage_start hR P settings.tieBreak) h
    -- With no open node left, what is covered was expanded.
    have hnone := step_eq_unreachable hend hresult
    have hinitial : ∃ c, s.closed[P.initial]? = some c := by
      rcases hs.covered_initial with ⟨d, hd, _⟩ | ⟨e, he, _⟩
      · exact ⟨d, hd⟩
      · rw [hnone] at he
        cases he
    refine ⟨s.closed, fun os t hpath => ?_⟩
    obtain ⟨c, hc⟩ := hs.exists_closed_of_path hnone hpath hinitial
    exact ⟨⟨c, hc⟩, hs.not_final_of_closed t c hc⟩

theorem isFinal_eq_false_of_solve_eq_unreachable
    (h : solve P settings cancelled fuel = some report)
    (hresult : report.result = .ok .unreachable) (hvalid : P.isValid P.initial = true)
    (hpath : P.Path P.initial os t) : P.isFinal t = false := by
  obtain ⟨_, hclosed⟩ := exists_closed_of_solve_eq_unreachable h hresult hvalid
  exact (hclosed os t hpath).2

theorem finite_of_solve_eq_unreachable (h : solve P settings cancelled fuel = some report)
    (hresult : report.result = .ok .unreachable) (hvalid : P.isValid P.initial = true) :
    {t | ∃ os, P.Path P.initial os t}.Finite := by
  obtain ⟨closed, hclosed⟩ := exists_closed_of_solve_eq_unreachable h hresult hvalid
  refine (List.finite_toSet closed.keys).subset ?_
  rintro t ⟨os, hpath⟩
  obtain ⟨⟨c, hc⟩, _⟩ := hclosed os t hpath
  refine Std.HashMap.mem_keys.2 ?_
  rw [← Std.HashMap.isSome_getElem?_iff_mem, hc]
  rfl

theorem initial_of_solve_eq_alreadySatisfied (h : solve P settings cancelled fuel = some report)
    (hresult : report.result = .ok .alreadySatisfied) :
    P.isValid P.initial = true ∧ P.isFinal P.initial = true := by
  unfold solve at h
  split at h
  · cases Option.some.inj h
    cases hresult
  · next hvalid =>
    split at h
    · next hfinal => exact ⟨by simpa using hvalid, hfinal⟩
    · obtain ⟨s, _, hend⟩ := run_induction (I := fun _ => True) (fun _ _ _ _ => trivial) trivial h
      exact absurd hresult (step_ne_alreadySatisfied hend)

theorem solve_eq_alreadySatisfied (hvalid : P.isValid P.initial = true)
    (hfinal : P.isFinal P.initial = true) :
    solve P settings cancelled fuel = some ⟨.ok .alreadySatisfied, {}⟩ := by
  simp [solve, hvalid, hfinal]

/-- The verdicts of a search are exact, for every estimate and all costs. A search that ends with an
outcome answers that nothing can be reached exactly if the initial state is not valid or no path of
valid states leads to a final one, and it answers that there is nothing to do exactly if the initial
state is valid and final. -/
theorem unreachable_iff_and_alreadySatisfied_iff (P : SearchSpace σ ο κ)
    (settings : SearchSettings) (cancelled : Nat → Bool) (fuel : Nat) :
    (∀ report outcome, solve P settings cancelled fuel = some report →
      report.result = .ok outcome →
        (outcome = .unreachable ↔ P.isValid P.initial = false ∨
          ∀ os t, P.Path P.initial os t → P.isFinal t = false)) ∧
    ((∃ report, solve P settings cancelled fuel = some report ∧
        report.result = .ok .alreadySatisfied) ↔
      P.isValid P.initial = true ∧ P.isFinal P.initial = true) := by
  refine ⟨fun report outcome h hresult => ⟨?_, ?_⟩, ?_, ?_⟩
  · rintro rfl
    cases hvalid : P.isValid P.initial with
    | false => exact .inl rfl
    | true =>
      refine .inr fun os t hpath => ?_
      exact isFinal_eq_false_of_solve_eq_unreachable h hresult hvalid hpath
  · intro hnone
    -- Any other outcome comes with a path to a final state.
    have hreached : ∀ os t, P.isValid P.initial = true → P.Path P.initial os t →
        P.isFinal t = true → False := by
      intro os t hvalid hpath hfinal
      rcases hnone with hinvalid | hnone
      · exact Bool.noConfusion (hinvalid.symm.trans hvalid)
      · exact Bool.noConfusion ((hnone os t hpath).symm.trans hfinal)
    cases outcome with
    | unreachable => rfl
    | alreadySatisfied =>
      obtain ⟨hvalid, hfinal⟩ := initial_of_solve_eq_alreadySatisfied h hresult
      exact (hreached [] _ hvalid (.nil _) hfinal).elim
    | solved plan =>
      obtain ⟨hvalid, _, _⟩ := run_of_solve_eq_solved h hresult
      obtain ⟨hpath, hfinal, _⟩ := path_of_solve_eq_solved h hresult
      exact (hreached _ _ hvalid hpath hfinal).elim
  · rintro ⟨report, h, hresult⟩
    exact initial_of_solve_eq_alreadySatisfied h hresult
  · rintro ⟨hvalid, hfinal⟩
    exact ⟨⟨.ok .alreadySatisfied, {}⟩, by simp [solve, hvalid, hfinal], rfl⟩

end

/-- Two states that lead to each other, and a final one to which none leads. The estimates are a
number below zero and no number at all. -/
def circling : SearchSpace Nat Unit Float where
  initial := 0
  isFinal s := s == 2
  options s := if s < 2 then [()] else []
  apply _ s := 1 - s
  isValid _ := true
  estimate s := if s = 0 then -1 else 0 / 0
  cost _ := 1

theorem solve_circling : solve circling .default (fun _ => false) 3 =
    some ⟨.ok .unreachable, { expanded := 2, generated := 2, prunedClosed := 1 }⟩ := by
  have hcovers : Cost.atMost (Cost.zero : Float) (Cost.add (Cost.add Cost.zero 1) 1) = true := by
    decide
  simp [solve, run, step, start, expand, follow, covers, enqueue, circling, Frontier.push,
    Frontier.pop?, Frontier.empty, Entry.place, SearchSettings.default, finish, hcovers,
    Std.HashMap.getElem_insert]

/-- The search runs out of open nodes, so no path leads out of the circle. -/
theorem isFinal_eq_false_circling :
    (∃ report, solve circling .default (fun _ => false) 3 = some report ∧
      report.result = .ok .unreachable) ∧
    ∀ os t, circling.Path circling.initial os t → circling.isFinal t = false := by
  obtain ⟨hverdict, _⟩ :=
    unreachable_iff_and_alreadySatisfied_iff circling .default (fun _ => false) 3
  refine ⟨⟨_, solve_circling, rfl⟩, ?_⟩
  exact ((hverdict _ _ solve_circling rfl).1 rfl).resolve_left Bool.noConfusion

variable {σ : Type u} {ο : Type v} [DecidableEq σ] [Hashable σ] {P : SearchSpace σ ο Nat}
  {cancelled : Nat → Bool} {report : SearchReport σ ο Nat} {settings : SearchSettings}
  {fuel : Nat} {t : σ} {os : List ο}

/-- With an estimate of zero the first open node is a cheapest one. So no path to a final state is
cheaper than the plan that is found. -/
theorem cost_le_of_estimate_eq_zero {plan : Plan σ (Offer ο) Nat} (hzero : ∀ s, P.estimate s = 0)
    (h : solve P settings cancelled fuel = some report)
    (hsolved : report.result = .ok (.solved plan)) (hpath : P.Path P.initial os t)
    (hfinal : P.isFinal t = true) : plan.cost ≤ P.totalCost os := by
  have hadm : P.Admissible := fun _ s _ _ _ _ _ _ => hzero s ▸ Nat.zero_le _
  obtain ⟨hvalid, _, hrun⟩ := run_of_solve_eq_solved h hsolved
  obtain ⟨s, hs, hend⟩ := run_induction (I := fun s => s.Invariant P fun _ _ => False)
    (fun _ _ => Invariant.step) (invariant_start P settings.tieBreak) hrun
  obtain ⟨e, es, hentries, _, rfl⟩ := step_eq_solved hend hsolved
  calc
    e.node.cost ≤ e.total := hs.total_eq e (hentries ▸ List.mem_cons_self ..) ▸ Nat.le_add_right _ _
    _ ≤ P.peak P.initial os := hs.total_le_peak hpath hfinal hentries
    _ ≤ P.totalCost os := hadm.peak_le_totalCost (.nil _) hvalid hpath hfinal

end Search

end LiftedPlanning
