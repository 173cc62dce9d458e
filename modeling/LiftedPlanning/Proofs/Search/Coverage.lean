import LiftedPlanning.Proofs.Search.Path

/-!
# Covered states

`Search.Covered R s t c` says that a search need not be told of a path to `t` at cost `c`: the state
was expanded, or an open node reaches it, at a cost that stands in the relation `R` to `c`. What a
search keeps is that the initial state is covered at zero, and that a state to which an expanded one
leads is covered at the cost of the step (`Search.Coverage`). So the states of any path are covered
one after the other, up to an open node or to the end of the path.

The relation may be any `Cost.Dominance`. With the order of whole numbers coverage compares paths by
their costs; with the relation that always holds it only says which states are not forgotten, and
nothing needs to be known of costs.
-/

namespace LiftedPlanning

universe u v w

namespace Cost

/-- A relation that agrees with the test by which a path is left out, and that longer paths
inherit. -/
structure Dominance {κ : Type w} [Cost κ] (R : κ → κ → Prop) : Prop where
  refl : ∀ a, R a a
  trans : ∀ a b c, R a b → R b c → R a c
  add : ∀ a b c, R a b → R (Cost.add a c) (Cost.add b c)
  of_atMost : ∀ a b, Cost.atMost a b = true → R a b
  of_not_atMost : ∀ a b, Cost.atMost a b = false → R b a

theorem dominance_le : Dominance fun a b : Nat => a ≤ b where
  refl := Nat.le_refl
  trans _ _ _ := Nat.le_trans
  add _ _ c h := Nat.add_le_add_right h c
  of_atMost _ _ := of_decide_eq_true
  of_not_atMost _ _ h := Nat.le_of_not_le (of_decide_eq_false h)

theorem dominance_true {κ : Type w} [Cost κ] : Dominance fun _ _ : κ => True := by
  constructor <;> intros <;> trivial

end Cost

namespace Search

variable {σ : Type u} {ο : Type v} {κ : Type w} [DecidableEq σ] [Hashable σ] [Cost κ]
  {P : SearchSpace σ ο κ} {maxExpansions : Option Nat} {cancelled : Nat → Bool}
  {R : κ → κ → Prop} {s s' : Search σ ο κ} {t : σ} {c d : κ}

theorem covers_eq_true_iff {costs : Std.HashMap σ κ} :
    covers costs t c = true ↔ ∃ d, costs[t]? = some d ∧ Cost.atMost d c = true := by
  simp [covers, Option.any_eq_true]

/-- A state was expanded, or is reached by an open node, at a cost that dominates the given one. -/
def Covered (R : κ → κ → Prop) (s : Search σ ο κ) (t : σ) (c : κ) : Prop :=
  (∃ d, s.closed[t]? = some d ∧ R d c) ∨
    ∃ e ∈ s.frontier.entries, e.node.state = t ∧ R e.node.cost c

theorem Covered.mono (hR : Cost.Dominance R) (h : s.Covered R t c) (hcd : R c d) :
    s.Covered R t d := by
  rcases h with ⟨b, hb, hbc⟩ | ⟨e, he, hstate, hcost⟩
  · exact .inl ⟨b, hb, hR.trans _ _ _ hbc hcd⟩
  · exact .inr ⟨e, he, hstate, hR.trans _ _ _ hcost hcd⟩

theorem exists_of_covers (hR : Cost.Dominance R) (h : covers s.closed t c = true) :
    ∃ d, s.closed[t]? = some d ∧ R d c := by
  obtain ⟨d, hd, hdc⟩ := covers_eq_true_iff.1 h
  exact ⟨d, hd, hR.of_atMost _ _ hdc⟩

/-- What a search keeps, but for the operators of expanded states that are still `pending`. -/
structure Coverage (R : κ → κ → Prop) (P : SearchSpace σ ο κ) (pending : σ → ο → Prop)
    (s : Search σ ο κ) : Prop where
  covered_initial : s.Covered R P.initial Cost.zero
  covered_of_waiting : ∀ t c, s.waiting[t]? = some c → s.Covered R t c
  not_final_of_closed : ∀ t c, s.closed[t]? = some c → P.isFinal t = false
  covered_of_closed : ∀ t c, s.closed[t]? = some c → ∀ o ∈ P.options t,
    P.isValid (P.apply o t) = true → ¬ pending t o →
      s.Covered R (P.apply o t) (Cost.add c (P.cost o))

namespace Coverage

variable {pending : σ → ο → Prop} {n : SearchNode σ ο κ}

/-- Coverage is kept by changes that cover no less, as long as no state is expanded. -/
theorem of_covered (h : s.Coverage R P pending) (hclosed : s'.closed = s.closed)
    (hmono : ∀ t c, s.Covered R t c → s'.Covered R t c)
    (hwaiting : ∀ t c, s'.waiting[t]? = some c → s'.Covered R t c) :
    s'.Coverage R P pending := by
  refine ⟨hmono _ _ h.covered_initial, hwaiting, ?_, ?_⟩
  · rw [hclosed]
    exact h.not_final_of_closed
  · rw [hclosed]
    intro t c ht o ho hvalid hpending
    exact hmono _ _ (h.covered_of_closed t c ht o ho hvalid hpending)

theorem withStats (h : s.Coverage R P pending) (stats : SearchStats) :
    ({ s with stats := stats } : Search σ ο κ).Coverage R P pending :=
  h.of_covered rfl (fun _ _ hc => hc) h.covered_of_waiting

theorem enqueue (hR : Cost.Dominance R) (h : s.Coverage R P pending) (n : SearchNode σ ο κ) :
    (s.enqueue P n).Coverage R P pending := by
  have hmono : ∀ t c, s.Covered R t c → (s.enqueue P n).Covered R t c := by
    rintro t c (hclosed | ⟨e, he, hcost⟩)
    · exact .inl hclosed
    · exact .inr ⟨e, mem_entries_enqueue.2 (.inr he), hcost⟩
  refine h.of_covered rfl hmono fun t c hwaiting => ?_
  change (s.waiting.insert n.state n.cost)[t]? = some c at hwaiting
  rw [Std.HashMap.getElem?_insert] at hwaiting
  split at hwaiting
  · next heq =>
    cases Option.some.inj hwaiting
    exact .inr ⟨_, mem_entries_enqueue.2 (.inl rfl), eq_of_beq heq, hR.refl _⟩
  · exact hmono t c (h.covered_of_waiting t c hwaiting)

theorem follow (hR : Cost.Dominance R) {o : ο} (turn : Nat)
    (hclosed : s.closed[n.state]? = some n.cost)
    (h : s.Coverage R P fun t p => (t = n.state ∧ p = o) ∨ pending t p) :
    (s.follow P n turn o).Coverage R P pending ∧
      (s.follow P n turn o).closed[n.state]? = some n.cost := by
  -- It is enough that the operator leads to a covered state, if to a valid one.
  have settle : ∀ {r : Search σ ο κ},
      (r.Coverage R P fun t p => (t = n.state ∧ p = o) ∨ pending t p) →
      r.closed[n.state]? = some n.cost →
      (P.isValid (P.apply o n.state) = true →
        r.Covered R (P.apply o n.state) (Cost.add n.cost (P.cost o))) →
      r.Coverage R P pending := by
    intro r hr hrclosed hcovered
    refine { hr with covered_of_closed := ?_ }
    intro t c htc p hp hvalid hpending
    by_cases hto : t = n.state ∧ p = o
    · obtain ⟨rfl, rfl⟩ := hto
      rw [hrclosed] at htc
      cases Option.some.inj htc
      exact hcovered hvalid
    · exact hr.covered_of_closed t c htc p hp hvalid (not_or.2 ⟨hto, hpending⟩)
  obtain ⟨stats, ⟨hinvalid, heq⟩ | ⟨hcovers, heq⟩ | ⟨hvalid, heq⟩⟩ := follow_cases P n turn s o
  · rw [heq]
    refine ⟨settle (h.withStats stats) hclosed fun hvalid => ?_, hclosed⟩
    rw [hinvalid] at hvalid
    cases hvalid
  · rw [heq]
    refine ⟨settle (h.withStats stats) hclosed fun _ => ?_, hclosed⟩
    rcases hcovers with hcovers | hcovers
    · exact .inl (exists_of_covers hR hcovers)
    · obtain ⟨c, hc, hle⟩ := covers_eq_true_iff.1 hcovers
      exact ((h.withStats stats).covered_of_waiting _ c hc).mono hR (hR.of_atMost _ _ hle)
  · rw [heq]
    refine ⟨settle ((h.withStats stats).enqueue hR _) hclosed fun _ => ?_, hclosed⟩
    exact .inr ⟨_, mem_entries_enqueue.2 (.inl rfl), rfl, hR.refl _⟩

theorem foldl_follow (hR : Cost.Dominance R) (turn : Nat) {os : List ο}
    (hclosed : s.closed[n.state]? = some n.cost)
    (h : s.Coverage R P fun t p => t = n.state ∧ p ∈ os) :
    (os.foldl (Search.follow P n turn) s).Coverage R P fun _ _ => False := by
  induction os generalizing s with
  | nil =>
    have hnone : (fun (t : σ) (p : ο) => t = n.state ∧ p ∈ ([] : List ο)) = fun _ _ => False := by
      funext t p
      simp
    exact hnone ▸ h
  | cons o os ih =>
    have hsplit : (fun (t : σ) (p : ο) => t = n.state ∧ p ∈ o :: os) =
        fun t p => (t = n.state ∧ p = o) ∨ (t = n.state ∧ p ∈ os) := by
      funext t p
      rw [List.mem_cons, and_or_left]
    obtain ⟨hcoverage, hstill⟩ := follow hR turn hclosed (hsplit ▸ h)
    exact ih hstill hcoverage

variable {e : Entry κ (SearchNode σ ο κ)} {es : List (Entry κ (SearchNode σ ο κ))}

/-- The first open node may be dropped if its state was expanded at a cost that dominates its
own. -/
theorem dropFirst (hR : Cost.Dominance R) (h : s.Coverage R P pending)
    (hentries : s.frontier.entries = e :: es)
    (hexpanded : ∃ d, s.closed[e.node.state]? = some d ∧ R d e.node.cost) :
    (s.leaving es).Coverage R P pending := by
  obtain ⟨d, hd, hde⟩ := hexpanded
  have hmono : ∀ t c, s.Covered R t c → (s.leaving es).Covered R t c := by
    rintro t c (hclosed | ⟨f, hf, rfl, hcost⟩)
    · exact .inl hclosed
    · rw [hentries, List.mem_cons] at hf
      rcases hf with rfl | hf
      · exact .inl ⟨d, hd, hR.trans _ _ _ hde hcost⟩
      · exact .inr ⟨f, hf, rfl, hcost⟩
  exact h.of_covered rfl hmono fun t c hw => hmono t c (h.covered_of_waiting t c hw)

end Coverage

def close (s : Search σ ο κ) (t : σ) (c : κ) : Search σ ο κ :=
  { s with waiting := s.waiting.erase t, closed := s.closed.insert t c }

theorem Covered.close {r : σ} (hR : Cost.Dominance R) (hcovers : covers s.closed r d = false)
    (h : s.Covered R t c) : (s.close r d).Covered R t c := by
  rcases h with ⟨b, hb, hbc⟩ | h
  -- Closing a state again replaces its cost by a better one.
  · by_cases hrt : r = t
    · subst hrt
      have hbd : Cost.atMost b d = false := by
        refine Bool.eq_false_iff.2 fun hbd => ?_
        rw [covers_eq_true_iff.2 ⟨b, hb, hbd⟩] at hcovers
        cases hcovers
      refine .inl ⟨d, ?_, hR.trans _ _ _ (hR.of_not_atMost _ _ hbd) hbc⟩
      simp [Search.close]
    · refine .inl ⟨b, ?_, hbc⟩
      simp [Search.close, Std.HashMap.getElem?_insert, hrt, hb]
  · exact .inr h

theorem Coverage.close {n : SearchNode σ ο κ} (hR : Cost.Dominance R)
    (h : s.Coverage R P fun _ _ => False) (hcovers : covers s.closed n.state n.cost = false)
    (hfinal : P.isFinal n.state = false) :
    (s.close n.state n.cost).Coverage R P fun t o => t = n.state ∧ o ∈ P.options n.state := by
  refine ⟨h.covered_initial.close hR hcovers, ?_, ?_, ?_⟩
  · intro t c hwaiting
    change (s.waiting.erase n.state)[t]? = some c at hwaiting
    rw [Std.HashMap.getElem?_erase] at hwaiting
    split at hwaiting
    · cases hwaiting
    · exact (h.covered_of_waiting t c hwaiting).close hR hcovers
  · intro t c hclosed
    change (s.closed.insert n.state n.cost)[t]? = some c at hclosed
    rw [Std.HashMap.getElem?_insert] at hclosed
    split at hclosed
    · next heq => exact eq_of_beq heq ▸ hfinal
    · exact h.not_final_of_closed t c hclosed
  · intro t c hclosed o ho hvalid hpending
    change (s.closed.insert n.state n.cost)[t]? = some c at hclosed
    rw [Std.HashMap.getElem?_insert] at hclosed
    split at hclosed
    · next heq =>
      have hnt := eq_of_beq heq
      exact absurd ⟨hnt.symm, hnt ▸ ho⟩ hpending
    · exact (h.covered_of_closed t c hclosed o ho hvalid id).close hR hcovers

theorem Coverage.step (hR : Cost.Dominance R) (h : s.Coverage R P fun _ _ => False)
    (hs : s.step P maxExpansions cancelled = .inr s') : s'.Coverage R P fun _ _ => False := by
  obtain ⟨e, es, hentries, hcases⟩ := step_eq_inr hs
  rcases hcases with ⟨hcovers, rfl⟩ | ⟨hcovers, hfinal, rfl⟩
  · exact (h.dropFirst hR hentries (exists_of_covers hR hcovers)).withStats _
  · have hclosed : (s.close e.node.state e.node.cost).closed[e.node.state]? =
        some e.node.cost := by
      simp [Search.close]
    have hopen := ((h.close hR hcovers hfinal).dropFirst hR hentries
      ⟨_, hclosed, hR.refl _⟩).withStats
      { s.stats with
        expanded := s.stats.expanded + 1
        reopened := s.stats.reopened + if s.closed.contains e.node.state then 1 else 0 }
    exact Coverage.foldl_follow hR _ hclosed hopen

theorem coverage_start (hR : Cost.Dominance R) (P : SearchSpace σ ο κ) (tieBreak : TieBreak) :
    (start P tieBreak).Coverage R P fun _ _ => False := by
  have hcovered : (start P tieBreak).Covered R P.initial Cost.zero :=
    .inr ⟨_, List.mem_singleton_self _, rfl, hR.refl _⟩
  refine ⟨hcovered, ?_, ?_, ?_⟩
  · intro t c hwaiting
    change ((∅ : Std.HashMap σ κ).insert P.initial Cost.zero)[t]? = some c at hwaiting
    rw [Std.HashMap.getElem?_insert] at hwaiting
    split at hwaiting
    · next heq =>
      cases Option.some.inj hwaiting
      exact eq_of_beq heq ▸ hcovered
    · simp at hwaiting
  · intro t c hclosed
    simp [start] at hclosed
  · intro t c hclosed
    simp [start] at hclosed

end Search

end LiftedPlanning
