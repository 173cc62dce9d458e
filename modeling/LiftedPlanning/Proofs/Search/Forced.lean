import LiftedPlanning.Proofs.Search.Path

/-!
# Searches without a choice

Where each state offers one operator, up to the first final state, a search can but follow the
operators (`Search.solve_of_forced`). Nothing else is reached if the final state offers none
(`SearchSpace.Forced.mem_visited`).
-/

namespace LiftedPlanning

universe u v w

namespace SearchSpace

variable {σ : Type u} {ο : Type v} {κ : Type w} {P : SearchSpace σ ο κ} {s t u : σ} {o : ο}
  {os rs : List ο}

/-- Each state offers one operator until the first final state is reached. -/
inductive Forced (P : SearchSpace σ ο κ) : σ → List ο → σ → Prop where
  | nil {s : σ} (final : P.isFinal s = true) : Forced P s [] s
  | cons {s t : σ} {o : ο} {os : List ο} (open_ : P.isFinal s = false) (options : P.options s = [o])
      (valid : P.isValid (P.apply o s) = true) (rest : Forced P (P.apply o s) os t) :
      Forced P s (o :: os) t

def visited (P : SearchSpace σ ο κ) (s : σ) : List ο → List σ
  | [] => [s]
  | o :: os => s :: P.visited (P.apply o s) os

theorem mem_visited_self (P : SearchSpace σ ο κ) (s : σ) (os : List ο) : s ∈ P.visited s os := by
  cases os <;> exact List.mem_cons_self ..

theorem Forced.mem_visited (h : P.Forced s os t) (hlast : P.options t = [])
    (hpath : P.Path s rs u) : u ∈ P.visited s os := by
  induction h generalizing rs with
  | nil _ =>
    cases hpath with
    | nil => exact List.mem_singleton_self _
    | cons hoffered _ _ => cases hlast ▸ hoffered
  | cons _ hoptions _ _ ih =>
    cases hpath with
    | nil => exact List.mem_cons_self ..
    | cons hoffered _ hrest =>
      rw [hoptions, List.mem_singleton] at hoffered
      subst hoffered
      exact List.mem_cons_of_mem _ (ih hlast hrest)

end SearchSpace

namespace Search

variable {σ : Type u} {ο : Type v} [DecidableEq σ] [Hashable σ] {P : SearchSpace σ ο Nat}
  {n : SearchNode σ ο Nat} {s : Search σ ο Nat} {t : σ} {o : ο} {os : List ο}

def offers (turn : Nat) : List ο → List (Offer ο)
  | [] => []
  | o :: os => ⟨o, turn⟩ :: offers (turn + 1) os

theorem step_of_options_eq_singleton {total estimate : Nat} (hfinal : P.isFinal n.state = false)
    (hoptions : P.options n.state = [o]) (hvalid : P.isValid (P.apply o n.state) = true)
    (hne : P.apply o n.state ≠ n.state) (hentries : s.frontier.entries = [⟨total, estimate, n⟩])
    (hopen : n.state ∉ s.closed) (hclosed : P.apply o n.state ∉ s.closed)
    (hwaiting : P.apply o n.state ∉ s.waiting) :
    ∃ s', s.step P none (fun _ => false) = .inr s' ∧
      (∃ total estimate, s'.frontier.entries = [⟨total, estimate, n.child P o s.stats.expanded⟩]) ∧
      s'.closed = s.closed.insert n.state n.cost ∧
      s'.waiting = (s.waiting.erase n.state).insert (P.apply o n.state) (n.cost + P.cost o) ∧
      s'.stats = { s.stats with
        expanded := s.stats.expanded + 1
        generated := s.stats.generated + 1 } := by
  have hcontains : s.closed.contains n.state = false := by simpa using hopen
  have hcovered : covers s.closed n.state n.cost = false := by
    simp [covers, Std.HashMap.getElem?_eq_none hopen]
  have hcovered' : covers (s.closed.insert n.state n.cost) (P.apply o n.state)
      (n.cost + P.cost o) = false := by
    simp [covers, Std.HashMap.getElem?_insert, hne.symm, Std.HashMap.getElem?_eq_none hclosed]
  have hcovered'' : covers (s.waiting.erase n.state) (P.apply o n.state)
      (n.cost + P.cost o) = false := by
    simp [covers, Std.HashMap.getElem?_erase, hne.symm, Std.HashMap.getElem?_eq_none hwaiting]
  simp [step, Frontier.pop?, hentries, hcovered, hfinal, expand, hoptions, follow, hvalid,
    hcovered', hcovered'', hcontains, enqueue, Frontier.push, Entry.place, SearchNode.child]

theorem run_of_forced (h : P.Forced n.state os t) (hnodup : (P.visited n.state os).Nodup)
    (hentries : ∃ total estimate, s.frontier.entries = [⟨total, estimate, n⟩])
    (hclosed : ∀ u ∈ P.visited n.state os, u ∉ s.closed)
    (hwaiting : ∀ u ∈ P.visited n.state os, u ≠ n.state → u ∉ s.waiting) :
    s.run P none (fun _ => false) (os.length + 1) =
      some ⟨.ok (.solved
          ⟨n.trail.reverse ++ offers s.stats.expanded os, n.cost + P.totalCost os, t⟩),
        { s.stats with
          expanded := s.stats.expanded + os.length
          generated := s.stats.generated + os.length }⟩ := by
  obtain ⟨total, estimate, hentries⟩ := hentries
  have hopen := hclosed _ (P.mem_visited_self n.state os)
  induction os generalizing n s total estimate with
  | nil =>
    cases h with
    | nil hfinal =>
      have hcovered : covers s.closed n.state n.cost = false := by
        simp [covers, Std.HashMap.getElem?_eq_none hopen]
      simp [run, step, Frontier.pop?, hentries, hcovered, hfinal, finish, SearchNode.plan, offers,
        SearchSpace.totalCost]
  | cons o os ih =>
    cases h with
    | cons hfinal hoptions hvalid hrest =>
      obtain ⟨hnot, hnodup⟩ := List.nodup_cons.1 hnodup
      have hmem : P.apply o n.state ∈ P.visited (P.apply o n.state) os :=
        P.mem_visited_self (P.apply o n.state) os
      have hchild : P.apply o n.state ∈ P.visited n.state (o :: os) :=
        List.mem_cons.2 (.inr hmem)
      have hnew : ∀ u ∈ P.visited (P.apply o n.state) os, n.state ≠ u := fun u hu heq =>
        hnot (heq ▸ hu)
      have hne : P.apply o n.state ≠ n.state := (hnew _ hmem).symm
      -- No state is visited twice, so the next one is neither closed nor waiting.
      obtain ⟨s', hstep, ⟨total', estimate', hentries'⟩, hclosed', hwaiting', hstats⟩ :=
        step_of_options_eq_singleton hfinal hoptions hvalid hne hentries hopen
          (hclosed _ hchild) (hwaiting _ hchild hne)
      have hclosed'' : ∀ u ∈ P.visited (P.apply o n.state) os, u ∉ s'.closed := by
        intro u hu
        have hu' := hclosed u (List.mem_cons_of_mem _ hu)
        simpa [hclosed', hnew u hu] using hu'
      have hwaiting'' : ∀ u ∈ P.visited (P.apply o n.state) os, u ≠ P.apply o n.state →
          u ∉ s'.waiting := by
        intro u hu hchild
        have hu' := hwaiting u (List.mem_cons_of_mem _ hu) (hnew u hu).symm
        simp [hwaiting', hchild.symm, hu']
      have hrun := ih hrest hnodup hclosed'' hwaiting'' total' estimate' hentries'
        (hclosed'' _ hmem)
      rw [List.length_cons, run_succ, hstep]
      refine hrun.trans ?_
      rw [hstats]
      simp [offers, SearchNode.child, SearchSpace.totalCost_cons, Nat.add_assoc, Nat.add_comm 1]

/-- A search that has no choice finds the plan. -/
theorem solve_of_forced (hvalid : P.isValid P.initial = true) (h : P.Forced P.initial (o :: os) t)
    (hnodup : (P.visited P.initial (o :: os)).Nodup) :
    solve P .default (fun _ => false) (os.length + 2) =
      some ⟨.ok (.solved ⟨offers 0 (o :: os), P.totalCost (o :: os), t⟩),
        { expanded := os.length + 1, generated := os.length + 1 }⟩ := by
  have hopen : P.isFinal P.initial = false := by cases h with | cons hopen _ _ _ => exact hopen
  have hsolve : solve P .default (fun _ => false) (os.length + 2) =
      (start P .oldest).run P none (fun _ => false) ((o :: os).length + 1) := by
    simp [solve, hvalid, hopen, SearchSettings.default]
  rw [hsolve, run_of_forced (n := ⟨P.initial, 0, []⟩) h hnodup ⟨_, _, rfl⟩ (by simp [start])
    (fun u _ hu => by simp [start, hu.symm])]
  simp [start]

end Search

end LiftedPlanning
