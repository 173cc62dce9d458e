import LiftedPlanning.Proofs.Search.Coverage

/-!
# Optimality of best-first search

With whole numbers as costs and an estimate that never exceeds the cost of a path to a final state,
a plan that a search finds is a cheapest one (`Search.cost_le_of_solve_eq_solved`). The estimate
need not be consistent: a state that was expanded is opened again when a cheaper path to it turns
up.

The states of any path are covered one after the other (`Search.Coverage`, with costs compared), up
to an open node that leaves enough of the path ahead to bound what all nodes promise that are taken
(`Search.Invariant.total_le_peak`), and the cost of the plan.
-/

namespace LiftedPlanning

universe u v

namespace SearchSpace

variable {σ : Type u} {ο : Type v}

/-- On the valid states that are reached, the estimate is at most the cost of any path to a final
state. -/
def Admissible (P : SearchSpace σ ο Nat) : Prop :=
  ∀ os s, P.Path P.initial os s → P.isValid s = true →
    ∀ ps t, P.Path s ps t → P.isFinal t = true → P.estimate s ≤ P.totalCost ps

/-- The greatest sum of cost and estimate on the way, for operators that are applied to a state. -/
def peak (P : SearchSpace σ ο Nat) : σ → List ο → Nat
  | s, [] => P.estimate s
  | s, o :: os => max (P.estimate s) (P.cost o + P.peak (P.apply o s) os)

theorem estimate_le_peak (P : SearchSpace σ ο Nat) (s : σ) (os : List ο) :
    P.estimate s ≤ P.peak s os := by
  cases os with
  | nil => exact Nat.le_refl _
  | cons o os => exact Nat.le_max_left _ _

theorem Admissible.peak_le_totalCost {P : SearchSpace σ ο Nat} (h : P.Admissible)
    {os ps : List ο} {r t : σ} (hr : P.Path P.initial os r) (hvalid : P.isValid r = true)
    (hpath : P.Path r ps t) (hfinal : P.isFinal t = true) : P.peak r ps ≤ P.totalCost ps := by
  induction hpath generalizing os with
  | nil r => exact h os r hr hvalid [] r (.nil r) hfinal
  | @cons r t o ps hoffered hnext hrest ih =>
    refine Nat.max_le.2 ⟨?_, ?_⟩
    · exact h os r hr hvalid (o :: ps) t (.cons hoffered hnext hrest) hfinal
    · rw [P.totalCost_cons]
      exact Nat.add_le_add_left (ih (hr.concat hoffered hnext) hnext hfinal) _

end SearchSpace

namespace Search

variable {σ : Type u} {ο : Type v} [DecidableEq σ] [Hashable σ] {P : SearchSpace σ ο Nat}
  {maxExpansions : Option Nat} {cancelled : Nat → Bool} {s s' : Search σ ο Nat} {t : σ}

/-- No open node precedes one that promises less, and each promises its cost and the estimate. -/
structure Ranked (P : SearchSpace σ ο Nat) (s : Search σ ο Nat) : Prop where
  sorted : s.frontier.entries.Pairwise fun a b => ¬ Entry.Before b a
  total_eq : ∀ e ∈ s.frontier.entries, e.total = e.node.cost + P.estimate e.node.state

theorem Ranked.of_entries_eq (h : s.Ranked P)
    (hentries : s'.frontier.entries = s.frontier.entries) : s'.Ranked P := by
  rcases h with ⟨hsorted, htotal⟩
  rw [← hentries] at hsorted htotal
  exact ⟨hsorted, htotal⟩

theorem Ranked.follow (h : s.Ranked P) (n : SearchNode σ ο Nat) (turn : Nat) (o : ο) :
    (s.follow P n turn o).Ranked P := by
  obtain ⟨stats, ⟨_, heq⟩ | ⟨_, heq⟩ | ⟨_, heq⟩⟩ := follow_cases P n turn s o
  · rw [heq]
    exact h.of_entries_eq rfl
  · rw [heq]
    exact h.of_entries_eq rfl
  · rw [heq]
    refine ⟨Entry.place_pairwise _ _ h.sorted, fun e he => ?_⟩
    rcases mem_entries_enqueue.1 he with rfl | he
    · rfl
    · exact h.total_eq e he

theorem Ranked.foldl_follow (h : s.Ranked P) (n : SearchNode σ ο Nat) (turn : Nat) (os : List ο) :
    (os.foldl (Search.follow P n turn) s).Ranked P := by
  induction os generalizing s with
  | nil => exact h
  | cons o os ih => exact ih (h.follow n turn o)

theorem Ranked.step (h : s.Ranked P) (hs : s.step P maxExpansions cancelled = .inr s') :
    s'.Ranked P := by
  obtain ⟨e, es, hentries, hcases⟩ := step_eq_inr hs
  have hrest : (s.leaving es).Ranked P := by
    have hsorted := h.sorted
    rw [hentries] at hsorted
    exact ⟨hsorted.of_cons, fun f hf => h.total_eq f (hentries ▸ List.mem_cons_of_mem _ hf)⟩
  rcases hcases with ⟨_, rfl⟩ | ⟨_, _, rfl⟩
  · exact hrest.of_entries_eq rfl
  · refine Ranked.foldl_follow ?_ _ _ _
    exact hrest.of_entries_eq rfl

theorem ranked_start (P : SearchSpace σ ο Nat) (tieBreak : TieBreak) :
    (start P tieBreak).Ranked P := by
  refine ⟨List.pairwise_singleton _ _, fun e he => ?_⟩
  cases List.mem_singleton.1 he
  exact (Nat.zero_add _).symm

theorem Ranked.total_le (h : s.Ranked P) {e f : Entry Nat (SearchNode σ ο Nat)}
    {es : List (Entry Nat (SearchNode σ ο Nat))} (hentries : s.frontier.entries = e :: es)
    (hf : f ∈ s.frontier.entries) : e.total ≤ f.total := by
  have hsorted := h.sorted
  rw [hentries] at hsorted hf
  rcases List.mem_cons.1 hf with rfl | hf
  · exact Nat.le_refl _
  · exact Nat.le_of_not_lt fun hlt => List.rel_of_pairwise_cons hsorted hf (.inl hlt)

/-- What a search keeps with whole numbers as costs, but for the operators of expanded states that
are still `pending`. -/
structure Invariant (P : SearchSpace σ ο Nat) (pending : σ → ο → Prop) (s : Search σ ο Nat) :
    Prop extends Coverage (fun a b => a ≤ b) P pending s, Ranked P s

/-- What a search keeps between its steps. -/
theorem Invariant.step (h : s.Invariant P fun _ _ => False)
    (hs : s.step P maxExpansions cancelled = .inr s') : s'.Invariant P fun _ _ => False :=
  ⟨h.toCoverage.step Cost.dominance_le hs, h.toRanked.step hs⟩

theorem invariant_start (P : SearchSpace σ ο Nat) (tieBreak : TieBreak) :
    (start P tieBreak).Invariant P fun _ _ => False :=
  ⟨coverage_start Cost.dominance_le P tieBreak, ranked_start P tieBreak⟩

/-- A path from a covered state has been expanded to its end at no greater cost, or some open node
promises no more than the path needs at its peak. -/
theorem Invariant.closed_or_exists_entry (h : s.Invariant P fun _ _ => False) {ps : List ο} {r : σ}
    (hpath : P.Path r ps t) {c : Nat} (hcovered : s.Covered (fun a b => a ≤ b) r c) :
    (∃ d, s.closed[t]? = some d ∧ d ≤ c + P.totalCost ps) ∨
      ∃ e ∈ s.frontier.entries, e.total ≤ c + P.peak r ps := by
  -- An open node in a state on the path promises no more than the path needs from there on.
  have hopen : ∀ {r c} ps, (∃ e ∈ s.frontier.entries, e.node.state = r ∧ e.node.cost ≤ c) →
      ∃ e ∈ s.frontier.entries, e.total ≤ c + P.peak r ps := by
    rintro _ c ps ⟨e, he, rfl, hcost⟩
    refine ⟨e, he, ?_⟩
    rw [h.total_eq e he]
    exact Nat.add_le_add hcost (P.estimate_le_peak _ ps)
  induction hpath generalizing c with
  | nil r => exact hcovered.imp id (hopen [])
  | @cons r t o ps hoffered hnext hrest ih =>
    rcases hcovered with ⟨d, hd, hdc⟩ | hcovered
    · have hchild := h.covered_of_closed r d hd o hoffered hnext id
      rw [P.totalCost_cons, SearchSpace.peak, ← Nat.add_assoc]
      refine (ih (hchild.mono Cost.dominance_le (Nat.add_le_add_right hdc _))).imp_right ?_
      rintro ⟨e, he, hle⟩
      refine ⟨e, he, Nat.le_trans hle ?_⟩
      rw [Nat.add_assoc]
      exact Nat.add_le_add_left (Nat.le_max_right _ _) c
    · exact .inr (hopen (o :: ps) hcovered)

/-- Some open node promises no more than a path to a final state needs at its peak, as long as the
search has not covered the path to its end. -/
theorem Invariant.exists_entry_le_peak (h : s.Invariant P fun _ _ => False) {ps : List ο} {r : σ}
    (hpath : P.Path r ps t) (hfinal : P.isFinal t = true) {c : Nat}
    (hcovered : s.Covered (fun a b => a ≤ b) r c) :
    ∃ e ∈ s.frontier.entries, e.total ≤ c + P.peak r ps := by
  refine (h.closed_or_exists_entry hpath hcovered).resolve_left ?_
  rintro ⟨d, hd, _⟩
  exact Bool.noConfusion ((h.not_final_of_closed t d hd).symm.trans hfinal)

theorem Invariant.total_le_peak (h : s.Invariant P fun _ _ => False)
    {os : List ο} (hpath : P.Path P.initial os t) (hfinal : P.isFinal t = true)
    {e : Entry Nat (SearchNode σ ο Nat)} {es : List (Entry Nat (SearchNode σ ο Nat))}
    (hentries : s.frontier.entries = e :: es) : e.total ≤ P.peak P.initial os := by
  obtain ⟨f, hf, hle⟩ := h.exists_entry_le_peak hpath hfinal h.covered_initial
  calc
    e.total ≤ f.total := h.total_le hentries hf
    _ ≤ 0 + P.peak P.initial os := hle
    _ = P.peak P.initial os := Nat.zero_add _

theorem Invariant.exists_entry_of_path (h : s.Invariant P fun _ _ => False)
    (hadm : P.Admissible) {os ps : List ο} {r : σ} (hr : P.Path P.initial os r)
    (hvalid : P.isValid r = true) (hpath : P.Path r ps t) (hfinal : P.isFinal t = true) {c : Nat}
    (hcovered : s.Covered (fun a b => a ≤ b) r c) :
    ∃ e ∈ s.frontier.entries, e.total ≤ c + P.totalCost ps := by
  obtain ⟨e, he, hle⟩ := h.exists_entry_le_peak hpath hfinal hcovered
  exact ⟨e, he, Nat.le_trans hle (Nat.add_le_add_left
    (hadm.peak_le_totalCost hr hvalid hpath hfinal) c)⟩

/-- A plan that is found is a path of valid states to a final state, and with an admissible estimate
no such path is cheaper. The estimate need not be consistent, operators may cost nothing, and
neither the tie break nor a budget or a cancellation that the search survives makes a difference. -/
theorem cost_le_of_solve_eq_solved {settings : SearchSettings} {fuel : Nat}
    {report : SearchReport σ ο Nat} {plan : Plan σ (Offer ο) Nat} (hadm : P.Admissible)
    (h : solve P settings cancelled fuel = some report)
    (hsolved : report.result = .ok (.solved plan)) :
    (P.Path P.initial (plan.operators.map Offer.operator) plan.terminal ∧
      P.isFinal plan.terminal = true ∧
      plan.cost = P.totalCost (plan.operators.map Offer.operator)) ∧
    ∀ os t, P.Path P.initial os t → P.isFinal t = true → plan.cost ≤ P.totalCost os := by
  refine ⟨path_of_solve_eq_solved h hsolved, ?_⟩
  intro os t hpath hfinal
  obtain ⟨hvalid, _, hrun⟩ := run_of_solve_eq_solved h hsolved
  obtain ⟨s, hs, hend⟩ := run_induction (I := fun s => s.Invariant P fun _ _ => False)
    (fun _ _ => Invariant.step) (invariant_start P settings.tieBreak) hrun
  obtain ⟨e, es, hentries, _, rfl⟩ := step_eq_solved hend hsolved
  -- Some open node promises no more than the path costs, and the first one no more than that.
  obtain ⟨f, hf, hle⟩ :=
    hs.exists_entry_of_path hadm (.nil _) hvalid hpath hfinal hs.covered_initial
  have hfirst : e.total ≤ f.total := by
    have hsorted := hs.sorted
    rw [hentries] at hsorted hf
    rcases List.mem_cons.1 hf with rfl | hf
    · exact Nat.le_refl _
    · exact Nat.le_of_not_lt fun hlt => List.rel_of_pairwise_cons hsorted hf (.inl hlt)
  have htotal := hs.total_eq e (hentries ▸ List.mem_cons_self ..)
  calc
    e.node.cost ≤ e.total := htotal ▸ Nat.le_add_right _ _
    _ ≤ f.total := hfirst
    _ ≤ 0 + P.totalCost os := hle
    _ = P.totalCost os := Nat.zero_add _

/-- A graph whose state 1 is reached first on a dearer path, because the estimate of state 2 is not
consistent. An operator is the state to which it leads and its cost. -/
def detour : SearchSpace Nat (Nat × Nat) Nat where
  initial := 0
  isFinal s := s == 3
  options
    | 0 => [(1, 2), (2, 0)]
    | 1 => [(3, 4)]
    | 2 => [(1, 0)]
    | _ => []
  apply o _ := o.1
  isValid _ := true
  estimate s := if s == 2 then 4 else 0
  cost o := o.2

theorem solve_detour : solve detour .default (fun _ => false) 10 =
    some ⟨.ok (.solved ⟨[⟨(2, 0), 0⟩, ⟨(1, 0), 2⟩, ⟨(3, 4), 3⟩], 4, 3⟩),
      { expanded := 4, generated := 5, reopened := 1 }⟩ := by
  simp [solve, run, step, start, expand, follow, covers, enqueue, detour, Frontier.push,
    Frontier.pop?, Frontier.empty, Entry.place, Entry.Overtakes, Entry.Before,
    SearchSettings.default, finish, SearchNode.plan, Std.HashMap.getElem_insert]

theorem admissible_detour : detour.Admissible := by
  -- From every state but the final one there are at least four to go.
  have hbound : ∀ s ps t, detour.Path s ps t → t = 3 →
      (if s = 3 then 0 else 4) ≤ detour.totalCost ps := by
    intro s ps t hpath ht
    induction hpath with
    | nil s => simp [ht]
    | @cons s t o ps hoffered _ _ ih =>
      rw [detour.totalCost_cons]
      refine Nat.le_trans ?_ (Nat.add_le_add_left (ih ht) _)
      rcases s with _ | _ | _ | s <;> simp [detour] at hoffered <;> grind [detour]
  intro os s _ _ ps t hpath hfinal
  refine Nat.le_trans ?_ (hbound s ps t hpath (eq_of_beq hfinal))
  by_cases hs : s = 2 <;> simp [detour, hs]

/-- The cheaper path to state 1 is found although that state was expanded before. -/
theorem cost_le_detour : detour.Admissible ∧ ∀ os t, detour.Path detour.initial os t →
    detour.isFinal t = true → 4 ≤ detour.totalCost os :=
  ⟨admissible_detour, (cost_le_of_solve_eq_solved admissible_detour solve_detour rfl).2⟩

end Search

end LiftedPlanning
