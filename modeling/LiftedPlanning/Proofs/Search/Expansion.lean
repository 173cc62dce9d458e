import Mathlib.Data.List.Chain
import LiftedPlanning.Proofs.Search.Coverage

/-!
# Expansions

`Search.expansions` lists the nodes that a search expands, in their order and as far as its fuel
lasts. A search that ends has counted them (`Search.length_expansions`). Between two expansions of
one state the closed states remember the cost of the first, so that the second is not as dear
(`Search.isChain_expansions`), for any estimate and any costs.
-/

namespace LiftedPlanning

universe u v w

namespace Search

variable {σ : Type u} {ο : Type v} {κ : Type w} [DecidableEq σ] [Hashable σ] [Cost κ]
  {P : SearchSpace σ ο κ} {maxExpansions : Option Nat} {cancelled : Nat → Bool}
  {s s' : Search σ ο κ} {report : SearchReport σ ο κ} {fuel : Nat}

/-- The node that a search expands in its next step, if it goes on: the first open node, unless a
closed state covers it. -/
def expanding (s : Search σ ο κ) : List (SearchNode σ ο κ) :=
  match s.frontier.pop? with
  | none => []
  | some (n, _) => if covers s.closed n.state n.cost then [] else [n]

def runExpansions (P : SearchSpace σ ο κ) (maxExpansions : Option Nat) (cancelled : Nat → Bool) :
    Nat → Search σ ο κ → List (SearchNode σ ο κ)
  | 0, _ => []
  | fuel + 1, s =>
    match s.step P maxExpansions cancelled with
    | .inl _ => []
    | .inr s' => s.expanding ++ runExpansions P maxExpansions cancelled fuel s'

def expansions (P : SearchSpace σ ο κ) (settings : SearchSettings) (cancelled : Nat → Bool)
    (fuel : Nat) : List (SearchNode σ ο κ) :=
  if !P.isValid P.initial then []
  else if P.isFinal P.initial then []
  else (start P settings.tieBreak).runExpansions P settings.maxExpansions cancelled fuel

/-- What a step changes when it expands no node. -/
structure Idle (s s' : Search σ ο κ) : Prop where
  expanding : s.expanding = []
  closed : s'.closed = s.closed
  expanded : s'.stats.expanded = s.stats.expanded
  reopened : s'.stats.reopened = s.stats.reopened
  dropped : s'.frontier.entries.length < s.frontier.entries.length

/-- What a step changes when it expands a node. -/
structure Expands (P : SearchSpace σ ο κ) (s : Search σ ο κ) (n : SearchNode σ ο κ)
    (s' : Search σ ο κ) : Prop where
  expanding : s.expanding = [n]
  first : ∃ e es, s.frontier.entries = e :: es ∧ e.node = n
  uncovered : covers s.closed n.state n.cost = false
  closed : s'.closed = s.closed.insert n.state n.cost
  expanded : s'.stats.expanded = s.stats.expanded + 1
  reopened : s'.stats.reopened =
    s.stats.reopened + if s.closed.contains n.state then 1 else 0

theorem idle_or_expands (h : s.step P maxExpansions cancelled = .inr s') :
    Idle s s' ∨ ∃ n, Expands P s n s' := by
  obtain ⟨e, es, hentries, ⟨hcovers, rfl⟩ | ⟨hcovers, _, rfl⟩⟩ := step_eq_inr h
  · refine .inl ⟨?_, rfl, rfl, rfl, ?_⟩
    · simp [expanding, Frontier.pop?, hentries, hcovers]
    · rw [hentries]
      exact Nat.lt_succ_self _
  · refine .inr ⟨e.node, ?_, ⟨e, es, hentries, rfl⟩, hcovers, closed_expand .., expanded_expand ..,
      reopened_expand ..⟩
    simp [expanding, Frontier.pop?, hentries, hcovers]

/-- What holds of no expansions, and is kept when a step puts its own in front, holds of the
expansions of a run. `I` is what the steps keep. -/
theorem runExpansions_induction {I : Search σ ο κ → Prop}
    {motive : Search σ ο κ → List (SearchNode σ ο κ) → Prop}
    (hstep : ∀ s s', I s → s.step P maxExpansions cancelled = .inr s' → I s')
    (nil : ∀ s, I s → motive s [])
    (idle : ∀ s s' ns, I s → Idle s s' → motive s' ns → motive s ns)
    (expands : ∀ s n s' ns, I s → Expands P s n s' → motive s' ns → motive s (n :: ns))
    (fuel : Nat) {s : Search σ ο κ} (hs : I s) :
    motive s (s.runExpansions P maxExpansions cancelled fuel) := by
  induction fuel generalizing s with
  | zero => exact nil s hs
  | succ fuel ih =>
    rw [runExpansions]
    cases hnext : s.step P maxExpansions cancelled with
    | inl report => exact nil s hs
    | inr s' =>
      have hrest := ih (hstep s s' hs hnext)
      rcases idle_or_expands hnext with hidle | ⟨n, hexpands⟩
      · simpa [hidle.expanding] using idle s s' _ hs hidle hrest
      · simpa [hexpands.expanding] using expands s n s' _ hs hexpands hrest

theorem length_runExpansions (h : s.run P maxExpansions cancelled fuel = some report) :
    s.stats.expanded + (s.runExpansions P maxExpansions cancelled fuel).length =
      report.stats.expanded := by
  induction fuel generalizing s with
  | zero => cases h
  | succ fuel ih =>
    rw [run_succ] at h
    rw [runExpansions]
    cases hnext : s.step P maxExpansions cancelled with
    | inl r =>
      rw [hnext] at h
      cases Option.some.inj h
      rw [(step_eq_inl hnext).2]
      rfl
    | inr s' =>
      rw [hnext] at h
      rw [← ih h, List.length_append]
      rcases idle_or_expands hnext with hidle | ⟨n, hexpands⟩
      · rw [hidle.expanding, hidle.expanded, List.length_nil, Nat.zero_add]
      · rw [hexpands.expanding, hexpands.expanded, List.length_singleton, Nat.add_assoc]

theorem expansions_eq_nil_or_eq_run (P : SearchSpace σ ο κ) (settings : SearchSettings)
    (cancelled : Nat → Bool) (fuel : Nat) :
    (expansions P settings cancelled fuel = [] ∧
      ∃ outcome, solve P settings cancelled fuel = some ⟨.ok outcome, {}⟩) ∨
    (expansions P settings cancelled fuel =
        (start P settings.tieBreak).runExpansions P settings.maxExpansions cancelled fuel ∧
      solve P settings cancelled fuel =
        (start P settings.tieBreak).run P settings.maxExpansions cancelled fuel) := by
  unfold expansions solve
  split
  · exact .inl ⟨rfl, _, rfl⟩
  · split
    · exact .inl ⟨rfl, _, rfl⟩
    · exact .inr ⟨rfl, rfl⟩

theorem length_expansions {settings : SearchSettings}
    (h : solve P settings cancelled fuel = some report) :
    (expansions P settings cancelled fuel).length = report.stats.expanded := by
  rcases expansions_eq_nil_or_eq_run P settings cancelled fuel with
    ⟨hnone, outcome, hsolve⟩ | ⟨hruns, hsolve⟩
  · rw [hsolve] at h
    cases Option.some.inj h
    rw [hnone, List.length_nil]
  · rw [hsolve] at h
    rw [hruns, ← length_runExpansions h]
    exact (Nat.zero_add _).symm

theorem AllOpen.runExpansions {N : SearchNode σ ο κ → Prop} (hN : SearchNode.Inherited P N)
    (h : s.AllOpen N) (maxExpansions : Option Nat) (cancelled : Nat → Bool) (fuel : Nat) :
    ∀ n ∈ s.runExpansions P maxExpansions cancelled fuel, N n := by
  refine runExpansions_induction (I := AllOpen N) (motive := fun _ ns => ∀ n ∈ ns, N n)
    (fun _ _ => AllOpen.step hN) (fun _ _ _ hn => absurd hn List.not_mem_nil)
    (fun _ _ _ _ _ hns => hns) (fun s n s' ns hs hexpands hns => ?_) fuel h
  obtain ⟨e, es, hentries, rfl⟩ := hexpands.first
  exact List.forall_mem_cons.2 ⟨hs e (hentries ▸ List.mem_cons_self ..), hns⟩

theorem recorded_of_mem_expansions (P : SearchSpace σ ο κ) (settings : SearchSettings)
    (cancelled : Nat → Bool) (fuel : Nat) :
    ∀ n ∈ expansions P settings cancelled fuel, SearchNode.Recorded P n := by
  have hN := SearchNode.inherited_recorded P
  rcases expansions_eq_nil_or_eq_run P settings cancelled fuel with ⟨hnone, _⟩ | ⟨hruns, _⟩
  · rw [hnone]
    exact fun n hn => absurd hn List.not_mem_nil
  · rw [hruns]
    exact (allOpen_start hN settings.tieBreak).runExpansions hN _ cancelled fuel

/-- Each expansion of a state is at a cost which that of the one before does not cover. The first
one is not covered by the cost at which the state was expanded before the run. -/
theorem isChain_runExpansions (P : SearchSpace σ ο κ) (maxExpansions : Option Nat)
    (cancelled : Nat → Bool) (fuel : Nat) (s : Search σ ο κ) (t : σ) :
    (s.closed[t]?.toList ++
      ((s.runExpansions P maxExpansions cancelled fuel).filter fun n => n.state = t).map
        SearchNode.cost).IsChain fun c d => Cost.atMost c d = false := by
  refine runExpansions_induction (I := fun _ => True) (motive := fun s ns =>
    (s.closed[t]?.toList ++ (ns.filter fun n => n.state = t).map SearchNode.cost).IsChain
      fun c d => Cost.atMost c d = false) (fun _ _ _ _ => trivial) ?nil ?idle ?expands fuel trivial
  case nil =>
    intro s _
    cases s.closed[t]? <;> simp
  case idle =>
    intro s s' ns _ hidle h
    rwa [hidle.closed] at h
  case expands =>
    intro s n s' ns _ hexpands h
    rw [hexpands.closed, Std.HashMap.getElem?_insert] at h
    by_cases hn : n.state = t
    · subst hn
      simp only [beq_self_eq_true, if_true, Option.toList_some, List.singleton_append] at h
      simp only [decide_true, List.filter_cons_of_pos, List.map_cons]
      cases hseen : s.closed[n.state]? with
      | none => exact h
      | some c =>
        refine .cons_cons (Bool.eq_false_iff.2 fun hle => ?_) h
        exact Bool.eq_false_iff.1 hexpands.uncovered (covers_eq_true_iff.2 ⟨c, hseen, hle⟩)
    · simpa [hn] using h

/-- A state is expanded again only at a cost which that of its last expansion does not cover. -/
theorem isChain_expansions (P : SearchSpace σ ο κ) (settings : SearchSettings)
    (cancelled : Nat → Bool) (fuel : Nat) (t : σ) :
    ((expansions P settings cancelled fuel).filter fun n => n.state = t).IsChain
      fun n m => Cost.atMost n.cost m.cost = false := by
  rcases expansions_eq_nil_or_eq_run P settings cancelled fuel with ⟨hnone, _⟩ | ⟨hruns, _⟩
  · rw [hnone]
    exact .nil
  · have h := isChain_runExpansions P settings.maxExpansions cancelled fuel
      (start P settings.tieBreak) t
    have hclosed : (start P settings.tieBreak).closed[t]? = none := by simp [start]
    rw [hclosed] at h
    rw [hruns]
    exact List.isChain_map _ |>.1 h

end Search

end LiftedPlanning
