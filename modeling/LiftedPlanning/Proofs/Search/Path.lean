import LiftedPlanning.Search.Run

/-!
# Paths of a search space

`SearchSpace.Path P s os t` says that the operators `os` lead from `s` to `t`: each of them is
offered in the state that it leaves, and none leads to a state that is not valid.

The second half is about runs of a search. `Search.step_eq_inr` lists what one step can do,
`Search.run_induction` turns what every step keeps into what holds when the run ends, and
`Search.path_of_solve_eq_solved` says that a plan that is found is a path to a final state.
-/

namespace LiftedPlanning

universe u v w

namespace SearchSpace

variable {σ : Type u} {ο : Type v} {κ : Type w} {P : SearchSpace σ ο κ} {s t : σ}

/-- The operators lead from one state to another through valid states. -/
inductive Path (P : SearchSpace σ ο κ) : σ → List ο → σ → Prop where
  | nil (s : σ) : Path P s [] s
  | cons {s t : σ} {o : ο} {os : List ο} (offered : o ∈ P.options s)
      (valid : P.isValid (P.apply o s) = true) (rest : Path P (P.apply o s) os t) :
      Path P s (o :: os) t

theorem Path.append {r : σ} {os ps : List ο} (h : P.Path r os s) (h' : P.Path s ps t) :
    P.Path r (os ++ ps) t := by
  induction h with
  | nil _ => exact h'
  | cons hoffered hvalid _ ih => exact .cons hoffered hvalid (ih h')

theorem Path.concat {os : List ο} {o : ο} (h : P.Path s os t) (hoffered : o ∈ P.options t)
    (hvalid : P.isValid (P.apply o t) = true) : P.Path s (os ++ [o]) (P.apply o t) :=
  h.append (.cons hoffered hvalid (.nil _))

theorem Path.exists_of_mem {os : List ο} {o : ο} (h : P.Path s os t) (ho : o ∈ os) :
    ∃ r ps qs, P.Path s ps r ∧ o ∈ P.options r ∧ P.Path (P.apply o r) qs t := by
  induction h with
  | nil s => cases ho
  | @cons s t o' os hoffered hvalid hrest ih =>
    rcases List.mem_cons.1 ho with rfl | ho
    · exact ⟨s, [], os, .nil s, hoffered, hrest⟩
    · obtain ⟨r, ps, qs, hps, hoffered', hqs⟩ := ih ho
      exact ⟨r, o' :: ps, qs, .cons hoffered hvalid hps, hoffered', hqs⟩

/-- The states to which offered operators lead, whether they are valid or not. -/
inductive Reachable (P : SearchSpace σ ο κ) : σ → Prop where
  | initial : Reachable P P.initial
  | apply {s : σ} {o : ο} (reached : Reachable P s) (offered : o ∈ P.options s) :
      Reachable P (P.apply o s)

/-- Offered operators lead from one state to another, whether the states on the way are valid or
not. -/
inductive Walk (P : SearchSpace σ ο κ) : σ → List ο → σ → Prop where
  | nil (s : σ) : Walk P s [] s
  | cons {s t : σ} {o : ο} {os : List ο} (offered : o ∈ P.options s)
      (rest : Walk P (P.apply o s) os t) : Walk P s (o :: os) t

theorem Path.walk {os : List ο} (h : P.Path s os t) : P.Walk s os t := by
  induction h with
  | nil s => exact .nil s
  | cons hoffered _ _ ih => exact .cons hoffered ih

theorem Walk.reachable {os : List ο} (h : P.Walk s os t) (hs : P.Reachable s) : P.Reachable t := by
  induction h with
  | nil _ => exact hs
  | cons hoffered _ ih => exact ih (hs.apply hoffered)

section

variable [Cost κ]

def totalCost (P : SearchSpace σ ο κ) (os : List ο) : κ :=
  os.foldl (fun c o => Cost.add c (P.cost o)) Cost.zero

theorem totalCost_concat (P : SearchSpace σ ο κ) (os : List ο) (o : ο) :
    P.totalCost (os ++ [o]) = Cost.add (P.totalCost os) (P.cost o) := by
  rw [totalCost, List.foldl_append]
  rfl

end

theorem foldl_cost_eq (P : SearchSpace σ ο Nat) (os : List ο) (c : Nat) :
    os.foldl (fun c o => Cost.add c (P.cost o)) c = c + P.totalCost os := by
  induction os generalizing c with
  | nil => rfl
  | cons o os ih =>
    rw [totalCost, List.foldl_cons, List.foldl_cons, ih, ih, Cost.add_nat, Cost.add_nat,
      Cost.zero_nat, Nat.zero_add, Nat.add_assoc]

theorem totalCost_cons (P : SearchSpace σ ο Nat) (o : ο) (os : List ο) :
    P.totalCost (o :: os) = P.cost o + P.totalCost os := by
  rw [totalCost, List.foldl_cons, foldl_cost_eq, Cost.add_nat, Cost.zero_nat, Nat.zero_add]

end SearchSpace

namespace SearchNode

variable {σ : Type u} {ο : Type v} {κ : Type w} [Cost κ] {P : SearchSpace σ ο κ}
  {n : SearchNode σ ο κ}

def operators (n : SearchNode σ ο κ) : List ο := n.plan.operators.map Offer.operator

def child (P : SearchSpace σ ο κ) (n : SearchNode σ ο κ) (o : ο) (turn : Nat) :
    SearchNode σ ο κ :=
  ⟨P.apply o n.state, Cost.add n.cost (P.cost o), ⟨o, turn⟩ :: n.trail⟩

@[simp] theorem operators_child (P : SearchSpace σ ο κ) (n : SearchNode σ ο κ) (o : ο)
    (turn : Nat) : (n.child P o turn).operators = n.operators ++ [o] := by
  simp [operators, plan, child]

/-- A property that the initial node has, and that passes from an expanded node to the nodes to
which it leads. -/
structure Inherited (P : SearchSpace σ ο κ) (N : SearchNode σ ο κ → Prop) : Prop where
  initial : N ⟨P.initial, Cost.zero, []⟩
  child : ∀ n o turn, N n → P.isFinal n.state = false → o ∈ P.options n.state →
    P.isValid (P.apply o n.state) = true → N (n.child P o turn)

/-- A node records a path from the initial state and its cost. -/
structure Recorded (P : SearchSpace σ ο κ) (n : SearchNode σ ο κ) : Prop where
  path : P.Path P.initial n.operators n.state
  cost_eq : n.cost = P.totalCost n.operators

theorem inherited_recorded (P : SearchSpace σ ο κ) : Inherited P (Recorded P) := by
  refine ⟨⟨.nil _, rfl⟩, fun n o turn hn _ hoffered hvalid => ⟨?_, ?_⟩⟩
  · rw [operators_child]
    exact hn.path.concat hoffered hvalid
  · rw [operators_child, P.totalCost_concat, ← hn.cost_eq]
    rfl

end SearchNode

namespace Search

variable {σ : Type u} {ο : Type v} {κ : Type w} [DecidableEq σ] [Hashable σ] [Cost κ]
  {P : SearchSpace σ ο κ} {maxExpansions : Option Nat} {cancelled : Nat → Bool}
  {s s' : Search σ ο κ} {report : SearchReport σ ο κ} {plan : Plan σ (Offer ο) κ}

def leaving (s : Search σ ο κ) (entries : List (Entry κ (SearchNode σ ο κ))) : Search σ ο κ :=
  { s with frontier := { s.frontier with entries := entries }, taken := s.taken + 1 }

theorem step_eq_inr (h : s.step P maxExpansions cancelled = .inr s') :
    ∃ e es, s.frontier.entries = e :: es ∧
      ((covers s.closed e.node.state e.node.cost = true ∧
          s' = { s.leaving es with
            stats := { s.stats with prunedClosed := s.stats.prunedClosed + 1 } }) ∨
        (covers s.closed e.node.state e.node.cost = false ∧ P.isFinal e.node.state = false ∧
          s' = (s.leaving es).expand P e.node)) := by
  unfold step Frontier.pop? at h
  cases hentries : s.frontier.entries with
  | nil =>
    rw [hentries] at h
    cases h
  | cons e es =>
    rw [hentries] at h
    refine ⟨e, es, rfl, ?_⟩
    simp only [finish] at h
    split at h
    · cases h
    · split at h
      · next hcovers => exact .inl ⟨hcovers, (Sum.inr.inj h).symm⟩
      · next hcovers =>
        split at h
        · cases h
        · next hfinal =>
          split at h
          · cases h
          · exact .inr ⟨Bool.eq_false_iff.2 hcovers, Bool.eq_false_iff.2 hfinal,
              (Sum.inr.inj h).symm⟩

inductive Ends (P : SearchSpace σ ο κ) (maxExpansions : Option Nat) (cancelled : Nat → Bool)
    (s : Search σ ο κ) : Except SearchError (Outcome σ (Offer ο) κ) → Prop where
  | exhausted (entries : s.frontier.entries = []) : Ends P maxExpansions cancelled s
      (.ok .unreachable)
  | stopped {e : Entry κ (SearchNode σ ο κ)} {es : List (Entry κ (SearchNode σ ο κ))}
      (entries : s.frontier.entries = e :: es) (stop : cancelled s.taken = true) :
      Ends P maxExpansions cancelled s (.error (.cancelled s.stats.expanded))
  | solved {e : Entry κ (SearchNode σ ο κ)} {es : List (Entry κ (SearchNode σ ο κ))}
      (entries : s.frontier.entries = e :: es)
      (uncovered : covers s.closed e.node.state e.node.cost = false)
      (final : P.isFinal e.node.state = true) :
      Ends P maxExpansions cancelled s (.ok (.solved e.node.plan))
  | exceeded {e : Entry κ (SearchNode σ ο κ)} {es : List (Entry κ (SearchNode σ ο κ))} {max : Nat}
      (entries : s.frontier.entries = e :: es)
      (uncovered : covers s.closed e.node.state e.node.cost = false)
      (notFinal : P.isFinal e.node.state = false) (budget : maxExpansions = some max)
      (spent : max ≤ s.stats.expanded) :
      Ends P maxExpansions cancelled s (.error (.budgetExhausted s.stats.expanded))

theorem step_eq_inl (h : s.step P maxExpansions cancelled = .inl report) :
    s.Ends P maxExpansions cancelled report.result ∧ report.stats = s.stats := by
  unfold step Frontier.pop? at h
  cases hentries : s.frontier.entries with
  | nil =>
    rw [hentries] at h
    cases Sum.inl.inj h
    exact ⟨.exhausted hentries, rfl⟩
  | cons e es =>
    rw [hentries] at h
    simp only [finish] at h
    split at h
    · next hstop =>
      cases Sum.inl.inj h
      exact ⟨.stopped hentries hstop, rfl⟩
    · split at h
      · cases h
      · next hcovers =>
        have huncovered := Bool.eq_false_iff.2 hcovers
        split at h
        · next hfinal =>
          cases Sum.inl.inj h
          exact ⟨.solved hentries huncovered hfinal, rfl⟩
        · next hfinal =>
          split at h
          · next hbudget =>
            cases Sum.inl.inj h
            obtain ⟨max, hmax, hspent⟩ := Option.any_eq_true .. |>.1 hbudget
            exact ⟨.exceeded hentries huncovered (Bool.eq_false_iff.2 hfinal) hmax
              (of_decide_eq_true hspent), rfl⟩
          · cases h

/-- A search that ends with a plan has taken an open node whose state is final. -/
theorem step_eq_solved (h : s.step P maxExpansions cancelled = .inl report)
    (hsolved : report.result = .ok (.solved plan)) :
    ∃ e es, s.frontier.entries = e :: es ∧ P.isFinal e.node.state = true ∧ plan = e.node.plan := by
  obtain ⟨hends, _⟩ := step_eq_inl h
  rw [hsolved] at hends
  cases hends with
  | solved hentries _ hfinal => exact ⟨_, _, hentries, hfinal, rfl⟩

theorem step_eq_unreachable (h : s.step P maxExpansions cancelled = .inl report)
    (hresult : report.result = .ok .unreachable) : s.frontier.entries = [] := by
  obtain ⟨hends, _⟩ := step_eq_inl h
  rw [hresult] at hends
  cases hends with
  | exhausted hentries => exact hentries

theorem step_ne_alreadySatisfied (h : s.step P maxExpansions cancelled = .inl report) :
    report.result ≠ .ok .alreadySatisfied := by
  intro hresult
  obtain ⟨hends, _⟩ := step_eq_inl h
  rw [hresult] at hends
  cases hends

/-- What every step keeps holds in the state in which a run ends. -/
theorem run_induction {I : Search σ ο κ → Prop}
    (hstep : ∀ s s', I s → s.step P maxExpansions cancelled = .inr s' → I s') {fuel : Nat}
    (h : I s) (hrun : s.run P maxExpansions cancelled fuel = some report) :
    ∃ s', I s' ∧ s'.step P maxExpansions cancelled = .inl report := by
  induction fuel generalizing s with
  | zero => cases hrun
  | succ fuel ih =>
    rw [run_succ] at hrun
    cases hs : s.step P maxExpansions cancelled with
    | inl r =>
      rw [hs] at hrun
      cases Option.some.inj hrun
      exact ⟨s, h, hs⟩
    | inr t =>
      rw [hs] at hrun
      exact ih (hstep s t h hs) hrun

/-- A search ends if each of its steps descends in a well-founded order. -/
theorem exists_run_of_wellFounded {I : Search σ ο κ → Prop}
    {below : Search σ ο κ → Search σ ο κ → Prop} (hbelow : WellFounded below)
    (hstep : ∀ s s', I s → s.step P maxExpansions cancelled = .inr s' → I s' ∧ below s' s)
    (h : I s) : ∃ fuel report, s.run P maxExpansions cancelled fuel = some report := by
  induction s using hbelow.induction with
  | _ s ih =>
    cases hnext : s.step P maxExpansions cancelled with
    | inl report =>
      refine ⟨1, report, ?_⟩
      rw [run_succ, hnext]
    | inr s' =>
      obtain ⟨hs', hlt⟩ := hstep s s' h hnext
      obtain ⟨fuel, report, hrun⟩ := ih s' hlt hs'
      refine ⟨fuel + 1, report, ?_⟩
      rw [run_succ, hnext]
      exact hrun

/-- Following an operator opens a node for the valid state to which it leads, unless that state is
covered already. -/
theorem follow_cases (P : SearchSpace σ ο κ) (n : SearchNode σ ο κ) (turn : Nat)
    (s : Search σ ο κ) (o : ο) :
    ∃ stats,
      (P.isValid (P.apply o n.state) = false ∧ s.follow P n turn o = { s with stats := stats }) ∨
      ((covers s.closed (P.apply o n.state) (Cost.add n.cost (P.cost o)) = true ∨
          covers s.waiting (P.apply o n.state) (Cost.add n.cost (P.cost o)) = true) ∧
        s.follow P n turn o = { s with stats := stats }) ∨
      (P.isValid (P.apply o n.state) = true ∧
        s.follow P n turn o = enqueue P { s with stats := stats } (n.child P o turn)) := by
  unfold follow
  simp only [Bool.not_eq_true', Bool.or_eq_true]
  split
  · next hinvalid => exact ⟨_, .inl ⟨hinvalid, rfl⟩⟩
  · next hvalid =>
    split
    · next hcovered => exact ⟨_, .inr (.inl ⟨hcovered, rfl⟩)⟩
    · exact ⟨_, .inr (.inr ⟨by simpa using hvalid, rfl⟩)⟩

theorem follow_unchanged (P : SearchSpace σ ο κ) (n : SearchNode σ ο κ) (turn : Nat)
    (s : Search σ ο κ) (o : ο) :
    (s.follow P n turn o).closed = s.closed ∧
      (s.follow P n turn o).stats.expanded = s.stats.expanded ∧
      (s.follow P n turn o).stats.reopened = s.stats.reopened := by
  unfold follow
  dsimp only
  split
  · exact ⟨rfl, rfl, rfl⟩
  · split
    · exact ⟨rfl, rfl, rfl⟩
    · exact ⟨rfl, rfl, rfl⟩

theorem foldl_follow_unchanged (P : SearchSpace σ ο κ) (n : SearchNode σ ο κ) (turn : Nat)
    (s : Search σ ο κ) (os : List ο) :
    (os.foldl (follow P n turn) s).closed = s.closed ∧
      (os.foldl (follow P n turn) s).stats.expanded = s.stats.expanded ∧
      (os.foldl (follow P n turn) s).stats.reopened = s.stats.reopened := by
  induction os generalizing s with
  | nil => exact ⟨rfl, rfl, rfl⟩
  | cons o os ih =>
    obtain ⟨hclosed, hexpanded, hreopened⟩ := ih (s.follow P n turn o)
    obtain ⟨hclosed', hexpanded', hreopened'⟩ := follow_unchanged P n turn s o
    exact ⟨hclosed.trans hclosed', hexpanded.trans hexpanded', hreopened.trans hreopened'⟩

theorem closed_expand (P : SearchSpace σ ο κ) (n : SearchNode σ ο κ) (s : Search σ ο κ) :
    (s.expand P n).closed = s.closed.insert n.state n.cost :=
  (foldl_follow_unchanged P n _ _ _).1

theorem expanded_expand (P : SearchSpace σ ο κ) (n : SearchNode σ ο κ) (s : Search σ ο κ) :
    (s.expand P n).stats.expanded = s.stats.expanded + 1 :=
  (foldl_follow_unchanged P n _ _ _).2.1

theorem reopened_expand (P : SearchSpace σ ο κ) (n : SearchNode σ ο κ) (s : Search σ ο κ) :
    (s.expand P n).stats.reopened =
      s.stats.reopened + if s.closed.contains n.state then 1 else 0 :=
  (foldl_follow_unchanged P n _ _ _).2.2

theorem mem_entries_enqueue {n : SearchNode σ ο κ} {e : Entry κ (SearchNode σ ο κ)} :
    e ∈ (enqueue P s n).frontier.entries ↔
      e = ⟨Cost.add n.cost (P.estimate n.state), P.estimate n.state, n⟩ ∨
        e ∈ s.frontier.entries := by
  rw [← List.mem_cons]
  exact (s.frontier.perm_push _).mem_iff

def AllOpen (N : SearchNode σ ο κ → Prop) (s : Search σ ο κ) : Prop :=
  ∀ e ∈ s.frontier.entries, N e.node

section

variable {N : SearchNode σ ο κ → Prop} {n : SearchNode σ ο κ}

theorem AllOpen.enqueue (h : s.AllOpen N) (hn : N n) : (s.enqueue P n).AllOpen N := by
  intro e he
  rcases mem_entries_enqueue.1 he with rfl | he
  · exact hn
  · exact h e he

theorem AllOpen.follow (hN : SearchNode.Inherited P N) (hn : N n)
    (hfinal : P.isFinal n.state = false) {o : ο} (hoffered : o ∈ P.options n.state) (turn : Nat)
    (h : s.AllOpen N) : (s.follow P n turn o).AllOpen N := by
  obtain ⟨stats, ⟨_, heq⟩ | ⟨_, heq⟩ | ⟨hvalid, heq⟩⟩ := follow_cases P n turn s o
  · rw [heq]
    exact h
  · rw [heq]
    exact h
  · rw [heq]
    have h' : AllOpen N { s with stats := stats } := h
    exact h'.enqueue (hN.child n o turn hn hfinal hoffered hvalid)

theorem AllOpen.foldl_follow (hN : SearchNode.Inherited P N) (hn : N n)
    (hfinal : P.isFinal n.state = false) (turn : Nat) {os : List ο}
    (hos : ∀ o ∈ os, o ∈ P.options n.state) (h : s.AllOpen N) :
    (os.foldl (Search.follow P n turn) s).AllOpen N := by
  induction os generalizing s with
  | nil => exact h
  | cons o os ih =>
    rw [List.forall_mem_cons] at hos
    exact ih hos.2 (h.follow hN hn hfinal hos.1 turn)

theorem AllOpen.step (hN : SearchNode.Inherited P N) (h : s.AllOpen N)
    (hs : s.step P maxExpansions cancelled = .inr s') : s'.AllOpen N := by
  obtain ⟨e, es, hentries, hcases⟩ := step_eq_inr hs
  have hnodes : ∀ f ∈ e :: es, N f.node := hentries ▸ h
  obtain ⟨hnode, hrest⟩ := List.forall_mem_cons.1 hnodes
  rcases hcases with ⟨_, rfl⟩ | ⟨_, hfinal, rfl⟩
  · exact hrest
  · exact AllOpen.foldl_follow hN hnode hfinal _ (fun _ ho => ho) hrest

theorem allOpen_start (hN : SearchNode.Inherited P N) (tieBreak : TieBreak) :
    (start P tieBreak).AllOpen N := by
  intro e he
  cases List.mem_singleton.1 he
  exact hN.initial

end

theorem solve_eq_some_or_eq_run (P : SearchSpace σ ο κ) :
    (∃ outcome, ∀ settings cancelled fuel,
      solve P settings cancelled fuel = some ⟨.ok outcome, {}⟩) ∨
    (P.isValid P.initial = true ∧ P.isFinal P.initial = false ∧ ∀ settings cancelled fuel,
      solve P settings cancelled fuel =
        (start P settings.tieBreak).run P settings.maxExpansions cancelled fuel) := by
  cases hvalid : P.isValid P.initial with
  | false => exact .inl ⟨.unreachable, fun _ _ _ => by simp [solve, hvalid]⟩
  | true =>
    cases hfinal : P.isFinal P.initial with
    | true => exact .inl ⟨.alreadySatisfied, fun _ _ _ => by simp [solve, hvalid, hfinal]⟩
    | false => exact .inr ⟨rfl, rfl, fun _ _ _ => by simp [solve, hvalid, hfinal]⟩

theorem run_of_solve_eq_solved {settings : SearchSettings} {fuel : Nat}
    (h : solve P settings cancelled fuel = some report)
    (hsolved : report.result = .ok (.solved plan)) :
    P.isValid P.initial = true ∧ P.isFinal P.initial = false ∧
      (start P settings.tieBreak).run P settings.maxExpansions cancelled fuel = some report := by
  unfold solve at h
  split at h
  · cases Option.some.inj h
    cases hsolved
  · next hvalid =>
    split at h
    · cases Option.some.inj h
      cases hsolved
    · next hfinal =>
      refine ⟨?_, Bool.eq_false_iff.2 hfinal, h⟩
      simpa using hvalid

/-- A plan that is found is the plan of a node whose state is final. The node has every property
that nodes inherit. -/
theorem exists_node_of_solve_eq_solved {settings : SearchSettings} {fuel : Nat}
    {N : SearchNode σ ο κ → Prop} (hN : SearchNode.Inherited P N)
    (h : solve P settings cancelled fuel = some report)
    (hsolved : report.result = .ok (.solved plan)) :
    ∃ n : SearchNode σ ο κ, N n ∧ P.isFinal n.state = true ∧ plan = n.plan := by
  obtain ⟨_, _, hrun⟩ := run_of_solve_eq_solved h hsolved
  obtain ⟨s, hs, hend⟩ := run_induction (I := AllOpen N) (fun _ _ => AllOpen.step hN)
    (allOpen_start hN settings.tieBreak) hrun
  obtain ⟨e, es, hentries, hfinal, hplan⟩ := step_eq_solved hend hsolved
  exact ⟨e.node, hs e (hentries ▸ List.mem_cons_self ..), hfinal, hplan⟩

theorem path_of_solve_eq_solved {settings : SearchSettings} {fuel : Nat}
    (h : solve P settings cancelled fuel = some report)
    (hsolved : report.result = .ok (.solved plan)) :
    P.Path P.initial (plan.operators.map Offer.operator) plan.terminal ∧
      P.isFinal plan.terminal = true ∧
      plan.cost = P.totalCost (plan.operators.map Offer.operator) := by
  obtain ⟨n, hn, hfinal, rfl⟩ :=
    exists_node_of_solve_eq_solved (SearchNode.inherited_recorded P) h hsolved
  exact ⟨hn.path, hfinal, hn.cost_eq⟩

end Search

end LiftedPlanning
