import Mathlib.Order.WellFoundedSet
import LiftedPlanning.Proofs.Search.Coverage
import LiftedPlanning.Proofs.Search.Exhaustion

/-!
# Searches that end

With whole numbers as costs, a search ends if the nodes that it takes are in finitely many states
(`Search.exists_run_of_finite`), and so if finitely many states can be reached
(`Search.exists_run_eq_some`). A step that expands a node closes its state at a lower cost than
before, and leaves the costs of all other closed states as they are; a step that drops a node leaves
one open node less. The costs at which these states are closed, compared state by state, and then
the number of open nodes cannot fall for ever. The estimate plays no part: a state may be opened
again as often as a cheaper path to it turns up.
-/

namespace LiftedPlanning

universe u v

theorem SearchNode.inherited_reachable {σ : Type u} {ο : Type v} (P : SearchSpace σ ο Nat) :
    Inherited P fun n => P.Reachable n.state :=
  ⟨.initial, fun _ _ _ hn _ hoffered _ => hn.apply hoffered⟩

namespace Search

variable {σ : Type u} {ο : Type v} [DecidableEq σ] [Hashable σ] {P : SearchSpace σ ο Nat}
  {maxExpansions : Option Nat} {cancelled : Nat → Bool} {s s' : Search σ ο Nat}
  {n : SearchNode σ ο Nat} {t : σ}

def closedCost (s : Search σ ο Nat) (t : σ) : WithTop Nat :=
  match s.closed[t]? with
  | some c => .some c
  | none => ⊤

theorem closedCost_expand (P : SearchSpace σ ο Nat) (n : SearchNode σ ο Nat) (s : Search σ ο Nat)
    (t : σ) :
    (s.expand P n).closedCost t = if t = n.state then .some n.cost else s.closedCost t := by
  rw [closedCost, closed_expand, Std.HashMap.getElem?_insert]
  by_cases h : t = n.state
  · simp [h]
  · have h' : ¬ n.state = t := fun heq => h heq.symm
    simp [h, h', closedCost]

/-- A node that is expanded is cheaper than the one with which its state was expanded before. -/
theorem lt_closedCost (h : covers s.closed n.state n.cost = false) :
    .some n.cost < s.closedCost n.state := by
  rw [closedCost]
  split
  · next c hc =>
    refine WithTop.coe_lt_coe.2 (Nat.lt_of_not_le fun hle => ?_)
    have hcovers : covers s.closed n.state n.cost = true :=
      covers_eq_true_iff.2 ⟨c, hc, decide_eq_true hle⟩
    rw [h] at hcovers
    cases hcovers
  · exact WithTop.coe_lt_top _

theorem closedCost_expand_lt (h : covers s.closed n.state n.cost = false) :
    (s.expand P n).closedCost n.state < s.closedCost n.state := by
  rw [closedCost_expand, if_pos rfl]
  exact lt_closedCost h

theorem closedCost_expand_le (h : covers s.closed n.state n.cost = false) (t : σ) :
    (s.expand P n).closedCost t ≤ s.closedCost t := by
  by_cases ht : t = n.state
  · rw [ht]
    exact (closedCost_expand_lt h).le
  · rw [closedCost_expand, if_neg ht]

/-- The costs of some states, and the number of open nodes. -/
def rank (T : Set σ) (s : Search σ ο Nat) : (T → WithTop Nat) ×ₗ Nat :=
  toLex (fun t => s.closedCost t, s.frontier.entries.length)

theorem rank_lt_of_step {T : Set σ}
    (htaken : ∀ e es, s.frontier.entries = e :: es → e.node.state ∈ T)
    (h : s.step P maxExpansions cancelled = .inr s') : rank T s' < rank T s := by
  obtain ⟨e, es, hentries, ⟨_, rfl⟩ | ⟨hcovers, _, rfl⟩⟩ := step_eq_inr h
  -- A stale node was dropped.
  · refine Prod.Lex.toLex_lt_toLex.2 (.inr ⟨rfl, ?_⟩)
    change es.length < s.frontier.entries.length
    rw [hentries]
    exact Nat.lt_succ_self _
  · refine Prod.Lex.toLex_lt_toLex.2
      (.inl (Pi.lt_def.2 ⟨fun t => ?_, ⟨_, htaken e es hentries⟩, ?_⟩))
    · exact closedCost_expand_le (s := s.leaving es) hcovers t
    · exact closedCost_expand_lt (s := s.leaving es) hcovers

/-- A search ends if the open nodes that it takes are in finitely many states, by a property that
its steps keep. -/
theorem exists_run_of_finite {T : Set σ} (hfinite : T.Finite) {I : Search σ ο Nat → Prop}
    (hstep : ∀ s s', I s → s.step P maxExpansions cancelled = .inr s' → I s')
    (htaken : ∀ s, I s → ∀ e es, s.frontier.entries = e :: es → e.node.state ∈ T) (hs : I s) :
    ∃ fuel report, s.run P maxExpansions cancelled fuel = some report := by
  have : Finite T := hfinite.to_subtype
  refine exists_run_of_wellFounded (InvImage.wf (rank T) wellFounded_lt)
    (fun s s' hs h => ⟨hstep s s' hs h, ?_⟩) hs
  exact rank_lt_of_step (htaken s hs) h

abbrev OpenReachable (P : SearchSpace σ ο Nat) : Search σ ο Nat → Prop :=
  AllOpen fun n => P.Reachable n.state

theorem exists_run_eq_some (hfinite : {t | P.Reachable t}.Finite) (maxExpansions : Option Nat)
    (cancelled : Nat → Bool) (hs : s.OpenReachable P) :
    ∃ fuel report, s.run P maxExpansions cancelled fuel = some report := by
  refine exists_run_of_finite hfinite (I := OpenReachable P) (fun _ _ hs => ?_)
    (fun s hs e es hentries => ?_) hs
  · exact hs.step (SearchNode.inherited_reachable P)
  · exact hs e (hentries ▸ List.mem_cons_self ..)

theorem exists_solve_eq_some (hfinite : {t | P.Reachable t}.Finite) (settings : SearchSettings)
    (cancelled : Nat → Bool) :
    ∃ fuel report, ∀ more, fuel ≤ more → solve P settings cancelled more = some report := by
  rcases solve_eq_some_or_eq_run P with ⟨outcome, hsolve⟩ | ⟨_, _, hsolve⟩
  · exact ⟨0, _, fun more _ => hsolve settings cancelled more⟩
  · have hopen := allOpen_start (SearchNode.inherited_reachable P) settings.tieBreak
    obtain ⟨fuel, report, hrun⟩ :=
      exists_run_eq_some hfinite settings.maxExpansions cancelled hopen
    refine ⟨fuel, report, fun more hmore => ?_⟩
    rw [hsolve]
    exact run_mono hrun hmore

/-- Without a budget, and if nobody cancels it, a search that ends has an outcome. -/
theorem exists_outcome_of_solve {settings : SearchSettings} {fuel : Nat}
    {report : SearchReport σ ο Nat} (hbudget : settings.maxExpansions = none)
    (hcancelled : ∀ n, cancelled n = false)
    (h : solve P settings cancelled fuel = some report) :
    ∃ outcome, report.result = .ok outcome := by
  rcases solve_eq_some_or_eq_run P with ⟨outcome, hsolve⟩ | ⟨_, _, hsolve⟩
  · rw [hsolve] at h
    cases Option.some.inj h
    exact ⟨outcome, rfl⟩
  · rw [hsolve] at h
    obtain ⟨s, _, hend⟩ :=
      run_induction (I := fun _ => True) (fun _ _ _ _ => trivial) trivial h
    obtain ⟨hends, _⟩ := step_eq_inl hend
    generalize report.result = result at hends ⊢
    cases hends with
    | exhausted _ => exact ⟨_, rfl⟩
    | solved _ _ _ => exact ⟨_, rfl⟩
    | stopped _ hstop =>
      rw [hcancelled] at hstop
      cases hstop
    | exceeded _ _ _ hmax _ =>
      rw [hbudget] at hmax
      cases hmax

end Search

end LiftedPlanning
