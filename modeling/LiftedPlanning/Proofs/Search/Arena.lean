import Mathlib.Data.List.Forall2
import LiftedPlanning.Proofs.Search.Optimality
import LiftedPlanning.Proofs.Search.Plan
import LiftedPlanning.Search.Arena

/-!
# Plans from an arena

The search with an arena takes the same nodes as the search whose nodes carry their paths, and ends
in the same way (`ArenaSearch.solve_eq`). Parents have smaller indices, since nodes are only ever
added at the end of the arena. So the way back from a node ends, and meets no node twice, which is
why the operators that have been taken out of the nodes are not missed
(`ArenaNode.retrace_eq_some`). A plan that is found is therefore a path
(`ArenaSearch.isSome_step_and_path_of_solved`).
-/

namespace LiftedPlanning

universe u v w

variable {σ : Type u} {ο : Type v} {κ : Type w}

namespace ArenaNode

variable {nodes nodes' : Array (ArenaNode σ ο κ)} {i : Nat} {m : ArenaNode σ ο κ}
  {os : List (Offer ο)}

/-! ## The way back -/

/-- The operators on the way back from a node to one without a parent. -/
inductive Trail (nodes : Array (ArenaNode σ ο κ)) : Nat → List (Offer ο) → Prop where
  | root {i : Nat} {state : σ} {cost : κ} (node : nodes[i]? = some ⟨state, cost, none, none⟩) :
      Trail nodes i []
  | child {i p : Nat} {state : σ} {cost : κ} {o : Offer ο} {os : List (Offer ο)}
      (node : nodes[i]? = some ⟨state, cost, some p, some o⟩) (earlier : p < i)
      (rest : Trail nodes p os) : Trail nodes i (o :: os)

/-- Only nodes with smaller indices matter. -/
theorem Trail.congr (h : Trail nodes i os) (hsame : ∀ j ≤ i, nodes'[j]? = nodes[j]?) :
    Trail nodes' i os := by
  induction h with
  | root hnode => exact .root ((hsame _ (Nat.le_refl _)).trans hnode)
  | child hnode hlt _ ih =>
    exact .child ((hsame _ (Nat.le_refl _)).trans hnode) hlt
      (ih fun j hj => hsame j (Nat.le_trans hj (Nat.le_of_lt hlt)))

theorem retrace_none (nodes : Array (ArenaNode σ ο κ)) (operators : Array (Offer ο)) (most : Nat) :
    retrace nodes operators most none = some operators := by
  rw [retrace]

theorem retrace_some (hnode : nodes[i]? = some m) (operators : Array (Offer ο)) (most : Nat) :
    retrace nodes operators (most + 1) (some i) =
      retrace (nodes.setIfInBounds i { m with via := none })
        (m.via.elim operators operators.push) most m.parent := by
  rw [retrace, hnode]

/-- The way back ends, with its operators. As indices fall on it, it is no longer than the index of
its first node says. -/
theorem retrace_eq_some {most : Nat} (h : Trail nodes i os) (hi : i < most)
    (operators : Array (Offer ο)) :
    retrace nodes operators most (some i) = some (operators ++ os.toArray) := by
  induction most generalizing nodes i os operators with
  | zero => cases hi
  | succ most ih =>
    cases h with
    | root hnode =>
      rw [retrace_some hnode, retrace_none]
      simp
    | @child _ p state cost o os hnode hlt hrest =>
      -- The node that loses its operator is not met again.
      have hrest' : Trail (nodes.setIfInBounds i ⟨state, cost, some p, none⟩) p os :=
        hrest.congr fun j hj =>
          Array.getElem?_setIfInBounds_ne (Nat.ne_of_gt (Nat.lt_of_le_of_lt hj hlt))
      rw [retrace_some hnode, ih hrest' (Nat.lt_of_lt_of_le hlt (Nat.le_of_lt_succ hi))]
      simp

/-- A node has its place in the arena, with the way back from there. -/
structure Placed (nodes : Array (ArenaNode σ ο κ)) (i : Nat) (m : ArenaNode σ ο κ)
    (os : List (Offer ο)) : Prop where
  node : nodes[i]? = some m
  trail : Trail nodes i os

theorem Placed.push (h : Placed nodes i m os) (n : ArenaNode σ ο κ) :
    Placed (nodes.push n) i m os := by
  have hi := (Array.getElem?_eq_some_iff.1 h.node).1
  have hsame (j : Nat) (hj : j ≤ i) : (nodes.push n)[j]? = nodes[j]? := by
    rw [Array.getElem?_push, if_neg (Nat.ne_of_lt (Nat.lt_of_le_of_lt hj hi))]
  exact ⟨(hsame i (Nat.le_refl i)).trans h.node, h.trail.congr hsame⟩

theorem Placed.push_child (h : Placed nodes i m os) (state : σ) (cost : κ) (o : Offer ο) :
    Placed (nodes.push ⟨state, cost, some i, some o⟩) nodes.size ⟨state, cost, some i, some o⟩
      (o :: os) := by
  have hi := (Array.getElem?_eq_some_iff.1 h.node).1
  exact ⟨Array.getElem?_push_size, .child Array.getElem?_push_size hi (h.push _).trail⟩

theorem Placed.reconstruct_eq_some (h : Placed nodes i m os) :
    reconstruct nodes i = some ⟨os.reverse, m.cost, m.state⟩ := by
  have hi := (Array.getElem?_eq_some_iff.1 h.node).1
  simp [reconstruct, h.node, retrace_eq_some h.trail hi]

/-! ## Entries -/

/-- An entry with an index agrees with one that has the node itself, which carries its path. -/
inductive Agrees (nodes : Array (ArenaNode σ ο κ)) :
    Entry κ Nat → Entry κ (SearchNode σ ο κ) → Prop where
  | intro {total estimate : κ} {i : Nat} {m : ArenaNode σ ο κ} {os : List (Offer ο)}
      (placed : Placed nodes i m os) :
      Agrees nodes ⟨total, estimate, i⟩ ⟨total, estimate, m.state, m.cost, os⟩

variable {e : Entry κ Nat} {f : Entry κ (SearchNode σ ο κ)} {es : List (Entry κ Nat)}
  {fs : List (Entry κ (SearchNode σ ο κ))}

theorem Agrees.push (h : Agrees nodes e f) (m : ArenaNode σ ο κ) : Agrees (nodes.push m) e f := by
  obtain ⟨hplaced⟩ := h
  exact .intro (hplaced.push m)

theorem Agrees.place [Cost κ] (tieBreak : TieBreak) (h : Agrees nodes e f)
    (hold : List.Forall₂ (Agrees nodes) es fs) :
    List.Forall₂ (Agrees nodes) (e.place tieBreak es) (f.place tieBreak fs) := by
  induction hold with
  | nil => exact .cons h .nil
  | @cons e' f' es fs hold holds ih =>
    have hovertakes : e.Overtakes tieBreak e' ↔ f.Overtakes tieBreak f' := by
      obtain ⟨_⟩ := h
      obtain ⟨_⟩ := hold
      cases tieBreak <;> rfl
    rw [Entry.place, Entry.place]
    by_cases hover : e.Overtakes tieBreak e'
    · rw [if_pos hover, if_pos (hovertakes.1 hover)]
      exact .cons h (.cons hold holds)
    · rw [if_neg hover, if_neg (mt hovertakes.2 hover)]
      exact .cons hold ih

end ArenaNode

namespace ArenaSearch

open ArenaNode

variable [DecidableEq σ] [Hashable σ] [Cost κ] {P : SearchSpace σ ο κ}
  {a : ArenaSearch σ ο κ} {s : Search σ ο κ} {maxExpansions : Option Nat} {cancelled : Nat → Bool}
  {settings : SearchSettings} {fuel : Nat} {report : SearchReport σ ο κ}
  {plan : Plan σ (Offer ο) κ}

/-- The search with an arena is in the same state as the one without. -/
inductive Represents : ArenaSearch σ ο κ → Search σ ο κ → Prop where
  | intro {nodes : Array (ArenaNode σ ο κ)} {tieBreak : TieBreak} {es : List (Entry κ Nat)}
      {fs : List (Entry κ (SearchNode σ ο κ))} {waiting closed : Std.HashMap σ κ}
      {stats : SearchStats} {taken : Nat} (entries : List.Forall₂ (Agrees nodes) es fs) :
      Represents ⟨nodes, ⟨tieBreak, es⟩, waiting, closed, stats, taken⟩
        ⟨⟨tieBreak, fs⟩, waiting, closed, stats, taken⟩

/-! ## Step by step -/

theorem represents_start (P : SearchSpace σ ο κ) (tieBreak : TieBreak) :
    Represents (start P tieBreak) (Search.start P tieBreak) := by
  have hnode : (#[⟨P.initial, Cost.zero, none, none⟩] : Array (ArenaNode σ ο κ))[0]? =
      some ⟨P.initial, Cost.zero, none, none⟩ := rfl
  exact .intro (.cons (.intro ⟨hnode, .root hnode⟩) .nil)

theorem Represents.enqueue (h : Represents a s) {m : ArenaNode σ ο κ} {os : List (Offer ο)}
    (hplaced : Placed (a.nodes.push m) a.nodes.size m os) :
    Represents (a.enqueue P m) (s.enqueue P ⟨m.state, m.cost, os⟩) := by
  obtain ⟨hentries⟩ := h
  exact .intro ((Agrees.intro hplaced).place _ (hentries.imp fun _ _ he => he.push m))

theorem Represents.follow (h : Represents a s) {i : Nat} {m : ArenaNode σ ο κ}
    {os : List (Offer ο)} (hplaced : Placed a.nodes i m os) (turn : Nat) (o : ο) :
    Represents (a.follow P i m turn o) (s.follow P ⟨m.state, m.cost, os⟩ turn o) ∧
      Placed (a.follow P i m turn o).nodes i m os := by
  obtain ⟨hentries⟩ := h
  unfold ArenaSearch.follow Search.follow
  dsimp only
  split
  · exact ⟨.intro hentries, hplaced⟩
  · split
    · exact ⟨.intro hentries, hplaced⟩
    · exact ⟨.enqueue (.intro hentries) (hplaced.push_child ..), hplaced.push _⟩

theorem Represents.expand (h : Represents a s) {i : Nat} {m : ArenaNode σ ο κ}
    {os : List (Offer ο)} (hplaced : Placed a.nodes i m os) :
    Represents (a.expand P i m) (s.expand P ⟨m.state, m.cost, os⟩) := by
  have hfold (turn : Nat) (ps : List ο) {a : ArenaSearch σ ο κ} {s : Search σ ο κ}
      (h : Represents a s) (hplaced : Placed a.nodes i m os) :
      Represents (ps.foldl (ArenaSearch.follow P i m turn) a)
        (ps.foldl (Search.follow P ⟨m.state, m.cost, os⟩ turn) s) := by
    induction ps generalizing a s with
    | nil => exact h
    | cons o ps ih =>
      obtain ⟨hfollow, hplaced'⟩ := h.follow hplaced turn o
      exact ih hfollow hplaced'
  obtain ⟨hentries⟩ := h
  exact hfold _ _ (.intro hentries) hplaced

/-- Both searches end in the same way, or both go on. -/
theorem Represents.step (h : Represents a s) (P : SearchSpace σ ο κ) (maxExpansions : Option Nat)
    (cancelled : Nat → Bool) :
    ∃ x, a.step P maxExpansions cancelled = some x ∧
      Sum.LiftRel Eq Represents x (s.step P maxExpansions cancelled) := by
  obtain ⟨hentries⟩ := h
  unfold ArenaSearch.step Search.step Frontier.pop?
  cases hentries with
  | nil => exact ⟨_, rfl, .inl rfl⟩
  | cons he hes =>
    obtain ⟨hplaced⟩ := he
    simp only [hplaced.node, Option.bind_some, hplaced.reconstruct_eq_some]
    split
    · exact ⟨_, rfl, .inl rfl⟩
    · split
      · exact ⟨_, rfl, .inr (.intro hes)⟩
      · split
        · exact ⟨_, rfl, .inl rfl⟩
        · split
          · exact ⟨_, rfl, .inl rfl⟩
          · exact ⟨_, rfl, .inr (.expand (.intro hes) hplaced)⟩

theorem Represents.run (h : Represents a s) (fuel : Nat) :
    a.run P maxExpansions cancelled fuel = s.run P maxExpansions cancelled fuel := by
  induction fuel generalizing a s with
  | zero => rfl
  | succ fuel ih =>
    obtain ⟨x, hx, hrel⟩ := h.step P maxExpansions cancelled
    rw [ArenaSearch.run, Search.run, hx]
    generalize s.step P maxExpansions cancelled = y at hrel
    cases hrel with
    | inl heq => rw [heq]
    | inr h' => exact ih h'

/-- The search with an arena reports what the search reports whose nodes carry their paths. -/
theorem solve_eq (P : SearchSpace σ ο κ) (settings : SearchSettings) (cancelled : Nat → Bool)
    (fuel : Nat) : solve P settings cancelled fuel = Search.solve P settings cancelled fuel := by
  rw [solve, Search.solve, (represents_start P settings.tieBreak).run]

/-! ## Plans -/

/-- The states of a search, from its start on. -/
inductive Reached (P : SearchSpace σ ο κ) (settings : SearchSettings) (cancelled : Nat → Bool) :
    ArenaSearch σ ο κ → Prop where
  | start : Reached P settings cancelled (start P settings.tieBreak)
  | step {a a' : ArenaSearch σ ο κ} (reached : Reached P settings cancelled a)
      (next : a.step P settings.maxExpansions cancelled = some (.inr a')) :
      Reached P settings cancelled a'

theorem Reached.exists_represents (h : Reached P settings cancelled a) : ∃ s, Represents a s := by
  induction h with
  | start => exact ⟨_, represents_start P settings.tieBreak⟩
  | step _ hnext ih =>
    obtain ⟨s, hs⟩ := ih
    obtain ⟨x, hx, hrel⟩ := hs.step P settings.maxExpansions cancelled
    cases Option.some.inj (hnext.symm.trans hx)
    generalize s.step P settings.maxExpansions cancelled = y at hrel
    cases hrel with
    | inr h' => exact ⟨_, h'⟩

/-- No step is without a result: the indices of open nodes lead to nodes, and the way back from a
node ends. A plan that is found is a path: each operator is offered in the state in which it is
taken, no state on the way is invalid, and the first final state is the last one. Its cost is the
sum of the costs of the operators in their order, from zero on. -/
theorem isSome_step_and_path_of_solved (P : SearchSpace σ ο κ) (settings : SearchSettings)
    (cancelled : Nat → Bool) :
    (∀ a, Reached P settings cancelled a →
      (a.step P settings.maxExpansions cancelled).isSome = true) ∧
    ∀ fuel report plan, solve P settings cancelled fuel = some report →
      report.result = .ok (.solved plan) →
      plan.operators ≠ [] ∧ P.isValid P.initial = true ∧
        P.Path P.initial (plan.operators.map Offer.operator) plan.terminal ∧
        P.isFinal plan.terminal = true ∧
        (∀ t ∈ P.departures P.initial (plan.operators.map Offer.operator),
          P.isFinal t = false) ∧
        plan.cost = (plan.operators.map Offer.operator).foldl
          (fun c o => Cost.add c (P.cost o)) Cost.zero := by
  refine ⟨fun a ha => ?_, fun fuel report plan hreport hsolved => ?_⟩
  · obtain ⟨s, hs⟩ := ha.exists_represents
    obtain ⟨x, hx, _⟩ := hs.step P settings.maxExpansions cancelled
    rw [hx, Option.isSome_some]
  · rw [solve_eq] at hreport
    exact Search.path_and_cost_eq_of_solve_eq_solved hreport hsolved

/-- The plan goes through state 1, which was expanded before on a dearer path. -/
theorem isSome_step_and_path_detour :
    (∃ report, solve Search.detour .default (fun _ => false) 10 = some report ∧
      report.result = .ok (.solved ⟨[⟨(2, 0), 0⟩, ⟨(1, 0), 2⟩, ⟨(3, 4), 3⟩], 4, 3⟩)) ∧
    Search.detour.Path 0 [(2, 0), (1, 0), (3, 4)] 3 ∧
      (∀ t ∈ [0, 2, 1], Search.detour.isFinal t = false) ∧
      Search.detour.totalCost [(2, 0), (1, 0), (3, 4)] = 4 := by
  have hsolve := (solve_eq _ _ _ _).trans Search.solve_detour
  obtain ⟨_, _, hpath, _, hdepartures, hcost⟩ :=
    (isSome_step_and_path_of_solved _ _ _).2 _ _ _ hsolve rfl
  exact ⟨⟨_, hsolve, rfl⟩, hpath, hdepartures, hcost.symm⟩

end ArenaSearch

end LiftedPlanning
