import LiftedPlanning.Proofs.Search.Expansion
import LiftedPlanning.Proofs.Search.Optimality

/-!
# Consistent estimates

With whole numbers as costs, a state is expanded again only at a lower cost than before. If the
estimate is consistent, no state is expanded again, since it was expanded on a cheapest path
(`Search.expansions_cheaper_and_once`).

What a path needs at its peak is then no more than its cost and the estimate of its end. So the node
that is taken first is no dearer than any path to its state, or that state was expanded before.
-/

namespace LiftedPlanning

universe u v w

namespace SearchSpace

variable {σ : Type u} {ο : Type v} {P : SearchSpace σ ο Nat} {r t : σ} {os ps : List ο}

/-- On the states that are reached, an operator lowers the estimate by no more than its cost. -/
def Consistent (P : SearchSpace σ ο Nat) : Prop :=
  ∀ os s, P.Path P.initial os s → ∀ o ∈ P.options s, P.isValid (P.apply o s) = true →
    P.estimate s ≤ P.cost o + P.estimate (P.apply o s)

theorem consistent_of_estimate_eq_zero (h : ∀ s, P.estimate s = 0) : P.Consistent := by
  intro _ s _ _ _ _
  rw [h s]
  exact Nat.zero_le _

/-- A path needs no more at its peak than its cost and a consistent estimate of its end. -/
theorem Consistent.peak_le (h : P.Consistent) (hr : P.Path P.initial os r)
    (hpath : P.Path r ps t) : P.peak r ps ≤ P.totalCost ps + P.estimate t := by
  induction hpath generalizing os with
  | nil r => exact Nat.le_add_left _ _
  | @cons r t o ps hoffered hvalid _ ih =>
    have hrest := ih (hr.concat hoffered hvalid)
    rw [P.totalCost_cons, Nat.add_assoc]
    refine Nat.max_le.2 ⟨?_, Nat.add_le_add_left hrest _⟩
    calc
      P.estimate r ≤ P.cost o + P.estimate (P.apply o r) := h os r hr o hoffered hvalid
      _ ≤ P.cost o + P.peak (P.apply o r) ps := Nat.add_le_add_left (P.estimate_le_peak _ _) _
      _ ≤ P.cost o + (P.totalCost ps + P.estimate t) := Nat.add_le_add_left hrest _

/-- No path to a state is cheaper. -/
def Cheapest (P : SearchSpace σ ο Nat) (t : σ) (c : Nat) : Prop :=
  ∀ os, P.Path P.initial os t → c ≤ P.totalCost os

end SearchSpace

namespace Search

variable {σ : Type u} {ο : Type v} [DecidableEq σ] [Hashable σ] {P : SearchSpace σ ο Nat}
  {maxExpansions : Option Nat} {cancelled : Nat → Bool} {s s' : Search σ ο Nat}
  {n : SearchNode σ ο Nat}

/-- With a consistent estimate, the first open node is on a cheapest path to its state, unless a
closed state covers it. -/
theorem Invariant.cheapest_of_consistent (h : s.Invariant P fun _ _ => False)
    (hconsistent : P.Consistent) {e : Entry Nat (SearchNode σ ο Nat)}
    {es : List (Entry Nat (SearchNode σ ο Nat))} (hentries : s.frontier.entries = e :: es)
    (huncovered : covers s.closed e.node.state e.node.cost = false) :
    P.Cheapest e.node.state e.node.cost := by
  intro os hpath
  rcases h.closed_or_exists_entry hpath h.covered_initial with ⟨d, hd, hle⟩ | ⟨f, hf, hle⟩
  · have hlt : e.node.cost < d := by
      refine Nat.lt_of_not_le fun hde => Bool.eq_false_iff.1 huncovered ?_
      exact covers_eq_true_iff.2 ⟨d, hd, decide_eq_true hde⟩
    rw [Cost.zero_nat, Nat.zero_add] at hle
    exact Nat.le_trans (Nat.le_of_lt hlt) hle
  · refine Nat.le_of_add_le_add_right (b := P.estimate e.node.state) ?_
    calc
      e.node.cost + P.estimate e.node.state = e.total :=
        (h.total_eq e (hentries ▸ List.mem_cons_self ..)).symm
      _ ≤ f.total := h.total_le hentries hf
      _ ≤ 0 + P.peak P.initial os := hle
      _ = P.peak P.initial os := Nat.zero_add _
      _ ≤ P.totalCost os + P.estimate e.node.state := hconsistent.peak_le (.nil _) hpath

/-- What a search keeps if its estimate is consistent. -/
structure Settled (P : SearchSpace σ ο Nat) (s : Search σ ο Nat) : Prop where
  invariant : s.Invariant P fun _ _ => False
  recorded : s.AllOpen (SearchNode.Recorded P)
  cheapest_of_closed : ∀ t d, s.closed[t]? = some d → P.Cheapest t d
  reopened_eq_zero : s.stats.reopened = 0

/-- A node that is expanded is on a cheapest path to a state that was not expanded before. -/
theorem Settled.of_expands (h : s.Settled P) (hconsistent : P.Consistent)
    (hexpands : Expands P s n s') :
    P.Cheapest n.state n.cost ∧ s.closed[n.state]? = none := by
  obtain ⟨e, es, hentries, rfl⟩ := hexpands.first
  have hrecorded := h.recorded e (hentries ▸ List.mem_cons_self ..)
  have huncovered := hexpands.uncovered
  refine ⟨h.invariant.cheapest_of_consistent hconsistent hentries huncovered, ?_⟩
  refine Option.eq_none_iff_forall_ne_some.2 fun d hd => Bool.eq_false_iff.1 huncovered ?_
  -- The cost of an earlier expansion is no more than that of the path that the node records.
  refine covers_eq_true_iff.2 ⟨d, hd, decide_eq_true ?_⟩
  rw [hrecorded.cost_eq]
  exact h.cheapest_of_closed _ d hd _ hrecorded.path

theorem Settled.step (h : s.Settled P) (hconsistent : P.Consistent)
    (hs : s.step P maxExpansions cancelled = .inr s') : s'.Settled P := by
  have hinvariant := h.invariant.step hs
  have hrecorded := h.recorded.step (SearchNode.inherited_recorded P) hs
  rcases idle_or_expands hs with hidle | ⟨n, hexpands⟩
  · refine ⟨hinvariant, hrecorded, ?_, hidle.reopened.trans h.reopened_eq_zero⟩
    rw [hidle.closed]
    exact h.cheapest_of_closed
  · obtain ⟨hcheapest, hnew⟩ := h.of_expands hconsistent hexpands
    refine ⟨hinvariant, hrecorded, fun t d hd => ?_, ?_⟩
    · rw [hexpands.closed, Std.HashMap.getElem?_insert] at hd
      split at hd
      · next heq =>
        cases Option.some.inj hd
        exact eq_of_beq heq ▸ hcheapest
      · exact h.cheapest_of_closed t d hd
    · have hcontains : s.closed.contains n.state = false := by
        rw [Std.HashMap.contains_eq_isSome_getElem?, hnew]
        rfl
      rw [hexpands.reopened, h.reopened_eq_zero, hcontains]
      rfl

theorem settled_start (P : SearchSpace σ ο Nat) (tieBreak : TieBreak) :
    (start P tieBreak).Settled P := by
  refine ⟨invariant_start P tieBreak, allOpen_start (SearchNode.inherited_recorded P) tieBreak,
    fun t d hd => ?_, rfl⟩
  simp [start] at hd

theorem Settled.cheapest_and_nodup_runExpansions (h : s.Settled P) (hconsistent : P.Consistent)
    (maxExpansions : Option Nat) (cancelled : Nat → Bool) (fuel : Nat) :
    (∀ n ∈ s.runExpansions P maxExpansions cancelled fuel,
      P.Cheapest n.state n.cost ∧ s.closed[n.state]? = none) ∧
    ((s.runExpansions P maxExpansions cancelled fuel).map SearchNode.state).Nodup := by
  refine runExpansions_induction (I := Settled P) (motive := fun s ns =>
    (∀ n ∈ ns, P.Cheapest n.state n.cost ∧ s.closed[n.state]? = none) ∧
      (ns.map SearchNode.state).Nodup) (fun _ _ h => h.step hconsistent) ?nil ?idle ?expands fuel h
  case nil => exact fun _ _ => ⟨fun _ hn => absurd hn List.not_mem_nil, List.nodup_nil⟩
  case idle =>
    intro s s' ns _ hidle h
    rwa [hidle.closed] at h
  case expands =>
    rintro s n s' ns hs hexpands ⟨hall, hnodup⟩
    -- The states that are expanded later are neither that of `n` nor closed before.
    have hlater : ∀ m ∈ ns, n.state ≠ m.state ∧ s.closed[m.state]? = none := by
      intro m hm
      have hnone := (hall m hm).2
      rw [hexpands.closed, Std.HashMap.getElem?_insert] at hnone
      split at hnone
      · cases hnone
      · next hne => exact ⟨fun heq => hne (beq_iff_eq.2 heq), hnone⟩
    refine ⟨List.forall_mem_cons.2 ⟨hs.of_expands hconsistent hexpands, fun m hm => ?_⟩, ?_⟩
    · exact ⟨(hall m hm).1, (hlater m hm).2⟩
    · refine List.nodup_cons.2 ⟨fun hmem => ?_, hnodup⟩
      obtain ⟨m, hm, heq⟩ := List.mem_map.1 hmem
      exact (hlater m hm).1 heq.symm

theorem pairwise_expansions (P : SearchSpace σ ο Nat) (settings : SearchSettings)
    (cancelled : Nat → Bool) (fuel : Nat) :
    (expansions P settings cancelled fuel).Pairwise fun n m =>
      n.state = m.state → m.cost < n.cost := by
  have hpairwise : ∀ t, ((expansions P settings cancelled fuel).filter
      fun n => n.state = t).Pairwise fun n m => m.cost < n.cost := by
    intro t
    have : IsTrans (SearchNode σ ο Nat) fun n m => m.cost < n.cost :=
      ⟨fun _ _ _ hnm hml => Nat.lt_trans hml hnm⟩
    refine List.isChain_iff_pairwise.1 ((isChain_expansions P settings cancelled fuel t).imp ?_)
    exact fun n m h => Nat.lt_of_not_le (of_decide_eq_false h)
  refine List.pairwise_iff_forall_sublist.2 fun {n m} hsublist heq => ?_
  have hboth :=
    List.pairwise_iff_forall_sublist.1 (List.pairwise_filter.1 (hpairwise m.state)) hsublist
  exact hboth (decide_eq_true heq) (decide_eq_true rfl)

/-- The nodes that a search expands, which are as many as it counts, record paths to their states
and the costs of these. When a state is expanded again, it is at a cost which that of the last time
does not cover, whatever the estimate and the type of the costs; with whole numbers as costs it is
lower than each time before. If the estimate is consistent, such as one that is always zero, each
state is expanded at most once, and no path to it is cheaper; no expanded state is opened again. -/
theorem expansions_cheaper_and_once (settings : SearchSettings) (cancelled : Nat → Bool)
    (fuel : Nat) :
    (∀ (κ : Type w) [Cost κ] (P : SearchSpace σ ο κ),
      (∀ report, solve P settings cancelled fuel = some report →
        (expansions P settings cancelled fuel).length = report.stats.expanded) ∧
      (∀ n ∈ expansions P settings cancelled fuel, SearchNode.Recorded P n) ∧
      ∀ t, ((expansions P settings cancelled fuel).filter fun n => n.state = t).IsChain
        fun n m => Cost.atMost n.cost m.cost = false) ∧
    ∀ P : SearchSpace σ ο Nat,
      ((expansions P settings cancelled fuel).Pairwise fun n m =>
        n.state = m.state → m.cost < n.cost) ∧
      ((∀ s, P.estimate s = 0) → P.Consistent) ∧
      (P.Consistent →
        ((expansions P settings cancelled fuel).map SearchNode.state).Nodup ∧
        (∀ n ∈ expansions P settings cancelled fuel, P.Cheapest n.state n.cost) ∧
        ∀ report, solve P settings cancelled fuel = some report → report.stats.reopened = 0) := by
  refine ⟨fun κ _ P => ⟨fun _ => length_expansions,
      recorded_of_mem_expansions P settings cancelled fuel,
      isChain_expansions P settings cancelled fuel⟩,
    fun P => ⟨pairwise_expansions P settings cancelled fuel,
      SearchSpace.consistent_of_estimate_eq_zero, fun hconsistent => ?_⟩⟩
  have hstart := settled_start P settings.tieBreak
  rcases expansions_eq_nil_or_eq_run P settings cancelled fuel with
    ⟨hnone, outcome, hsolve⟩ | ⟨hruns, hsolve⟩
  · rw [hnone, hsolve]
    refine ⟨List.nodup_nil, fun _ hn => absurd hn List.not_mem_nil, fun report hreport => ?_⟩
    cases Option.some.inj hreport
    rfl
  · obtain ⟨hall, hnodup⟩ := hstart.cheapest_and_nodup_runExpansions hconsistent
      settings.maxExpansions cancelled fuel
    rw [hruns, hsolve]
    refine ⟨hnodup, fun n hn => (hall n hn).1, fun report hreport => ?_⟩
    obtain ⟨s, hs, hend⟩ :=
      run_induction (I := Settled P) (fun _ _ h => h.step hconsistent) hstart hreport
    rw [(step_eq_inl hend).2]
    exact hs.reopened_eq_zero

def levelDetour : SearchSpace Nat (Nat × Nat) Nat :=
  { detour with estimate := fun s => if s = 3 then 0 else 4 }

theorem consistent_levelDetour : levelDetour.Consistent := by
  intro _ s _ o hoffered _
  rcases s with _ | _ | _ | s <;> simp [levelDetour, detour] at hoffered ⊢ <;> grind

/-- State 1 is expanded twice on the detour, the second time at a lower cost, and once if the
estimate is consistent. -/
theorem expansions_detour :
    ((expansions detour .default (fun _ => false) 10).map (fun n => (n.state, n.cost)) =
        [(0, 0), (1, 2), (2, 0), (1, 0)] ∧
      (expansions detour .default (fun _ => false) 10).Pairwise fun n m =>
        n.state = m.state → m.cost < n.cost) ∧
    ((expansions levelDetour .default (fun _ => false) 10).map (fun n => (n.state, n.cost)) =
        [(0, 0), (2, 0), (1, 0)] ∧
      ∀ n ∈ expansions levelDetour .default (fun _ => false) 10,
        levelDetour.Cheapest n.state n.cost) := by
  obtain ⟨_, hspaces⟩ := expansions_cheaper_and_once.{0, 0, 0} (σ := Nat) (ο := Nat × Nat)
    .default (fun _ => false) 10
  refine ⟨⟨?_, (hspaces detour).1⟩, ?_, fun n hn => ?_⟩
  · simp [expansions, runExpansions, expanding, step, start, expand, follow, covers, enqueue,
      detour, Frontier.push, Frontier.pop?, Frontier.empty, Entry.place, Entry.Overtakes,
      Entry.Before, SearchSettings.default, finish, Std.HashMap.getElem_insert]
  · simp [expansions, runExpansions, expanding, step, start, expand, follow, covers, enqueue,
      levelDetour, detour, Frontier.push, Frontier.pop?, Frontier.empty, Entry.place,
      Entry.Overtakes, Entry.Before, SearchSettings.default, finish, Std.HashMap.getElem_insert]
  · exact ((hspaces levelDetour).2.2 consistent_levelDetour).2.1 n hn

end Search

end LiftedPlanning
