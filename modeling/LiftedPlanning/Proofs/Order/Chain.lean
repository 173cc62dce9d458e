import LiftedPlanning.Order.Chain
import Mathlib.Logic.Relation

/-!
# Chains of pairs

`Chain.leads` decides whether a chain of pairs leads from one member to another
(`Chain.leads_iff`). A new pair closes no cycle if no chain leads back from its second member to its
first one (`Chain.Acyclic.insert`). A list respects the pairs if no pair leads from a later member
to an earlier one; then no chain does (`Chain.Respects.mem_of_leads`).
-/

namespace LiftedPlanning

namespace Chain

universe u

variable {α : Type u} {pairs : List (α × α)} {a b target : α}

/-- One or more pairs lead from one member to another. -/
def Leads (pairs : List (α × α)) : α → α → Prop :=
  Relation.TransGen fun a b => (a, b) ∈ pairs

theorem Leads.mono {pairs' : List (α × α)} (hsub : ∀ p ∈ pairs, p ∈ pairs')
    (h : Leads pairs a b) : Leads pairs' a b :=
  Relation.TransGen.mono (fun _ _ hp => hsub _ hp) _ _ h

theorem Leads.lt {position : α → Nat} (hpairs : ∀ p ∈ pairs, position p.1 < position p.2)
    (h : Leads pairs a b) : position a < position b := by
  induction h with
  | single hab => exact hpairs _ hab
  | tail _ hbc ih => exact Nat.lt_trans ih (hpairs _ hbc)

/-- A chain that uses a new pair leads up to its first member and goes on from its second one. -/
theorem Leads.split {pairs' : List (α × α)} {x y : α}
    (hpairs : ∀ p ∈ pairs', p = (a, b) ∨ p ∈ pairs) (h : Leads pairs' x y) :
    Leads pairs x y ∨ (x = a ∨ Leads pairs x a) ∧ (y = b ∨ Leads pairs b y) := by
  induction h with
  | single hxy =>
    rcases hpairs _ hxy with heq | hxy
    · cases heq
      exact .inr ⟨.inl rfl, .inl rfl⟩
    · exact .inl (.single hxy)
  | @tail y z _ hyz ih =>
    rcases hpairs _ hyz with heq | hyz
    · cases heq
      rcases ih with hxa | ⟨hxa, _⟩
      · exact .inr ⟨.inr hxa, .inl rfl⟩
      · exact .inr ⟨hxa, .inl rfl⟩
    · rcases ih with hxy | ⟨hxa, rfl | hby⟩
      · exact .inl (.tail hxy hyz)
      · exact .inr ⟨hxa, .inr (.single hyz)⟩
      · exact .inr ⟨hxa, .inr (.tail hby hyz)⟩

def Acyclic (pairs : List (α × α)) : Prop := ∀ a, ¬ Leads pairs a a

/-- A new pair closes no cycle if no chain leads back from its second member to its first one. -/
theorem Leads.of_insert {pairs' : List (α × α)} {x : α}
    (hpairs : ∀ p ∈ pairs', p = (a, b) ∨ p ∈ pairs) (hne : a ≠ b) (hfree : ¬ Leads pairs b a)
    (hx : Leads pairs' x x) : Leads pairs x x := by
  rcases hx.split hpairs with hold | ⟨rfl | hxa, hxb⟩
  · exact hold
  · exact (hxb.elim hne hfree).elim
  · rcases hxb with rfl | hbx
    · exact absurd hxa hfree
    · exact absurd (hbx.trans hxa) hfree

theorem Acyclic.insert {pairs' : List (α × α)} (h : Acyclic pairs)
    (hpairs : ∀ p ∈ pairs', p = (a, b) ∨ p ∈ pairs) (hne : a ≠ b) (hfree : ¬ Leads pairs b a) :
    Acyclic pairs' :=
  fun x hx => h x (hx.of_insert hpairs hne hfree)

section

variable [DecidableEq α]

/-- A chain can be cut at the last place where it leaves a member. -/
theorem Leads.cut (h : Leads pairs b target) (a : α) :
    Leads (without pairs a) b target ∨ target ∈ successors pairs a ∨
      ∃ c ∈ successors pairs a, Leads (without pairs a) c target := by
  have hwithout : ∀ {b c : α}, (b, c) ∈ pairs → b ≠ a → (b, c) ∈ without pairs a := by
    intro b c hbc hba
    exact List.mem_filter.2 ⟨hbc, decide_eq_true hba⟩
  induction h using Relation.TransGen.head_induction_on with
  | @single b hb =>
    by_cases hba : b = a
    · subst hba
      exact .inr (.inl (mem_successors.2 hb))
    · exact .inl (.single (hwithout hb hba))
  | @head b c hbc _ ih =>
    rcases ih with hrest | hlast
    · by_cases hba : b = a
      · subst hba
        exact .inr (.inr ⟨c, mem_successors.2 hbc, hrest⟩)
      · exact .inl (.head (hwithout hbc hba) hrest)
    · exact .inr hlast

theorem leadsFrom_iff {stack : List α} :
    leadsFrom target pairs stack = true ↔ ∃ a ∈ stack, Leads pairs a target := by
  induction pairs, stack using leadsFrom.induct with
  | case1 pairs => simp [leadsFrom]
  | case2 pairs a stack hnone ih =>
    have hstuck : ¬ Leads pairs a target := by
      intro h
      obtain ⟨c, hc, _⟩ := Relation.TransGen.head'_iff.1 h
      have hc := mem_successors.2 hc
      rw [hnone] at hc
      cases hc
    rw [leadsFrom, if_pos hnone, ih]
    simp [hstuck]
  | case3 pairs a stack hsome ih =>
    have hsub : ∀ p ∈ without pairs a, p ∈ pairs := fun p hp => (List.mem_filter.1 hp).1
    rw [leadsFrom, if_neg hsome, Bool.or_eq_true, decide_eq_true_iff, ih]
    constructor
    · rintro (htarget | ⟨c, hc, hleads⟩)
      · exact ⟨a, List.mem_cons_self .., .single (mem_successors.1 htarget)⟩
      · have hleads := hleads.mono hsub
        rcases List.mem_append.1 hc with hc | hc
        · exact ⟨a, List.mem_cons_self .., .head (mem_successors.1 hc) hleads⟩
        · exact ⟨c, List.mem_cons_of_mem _ hc, hleads⟩
    · rintro ⟨b, hb, hleads⟩
      -- A chain that comes through `a` again can start where it leaves `a` for the last time.
      rcases hleads.cut a with hrest | htarget | ⟨c, hc, hrest⟩
      · rcases List.mem_cons.1 hb with rfl | hb
        · obtain ⟨c, hc, _⟩ := Relation.TransGen.head'_iff.1 hrest
          exact absurd rfl (of_decide_eq_true (List.mem_filter.1 hc).2)
        · exact .inr ⟨b, List.mem_append_right _ hb, hrest⟩
      · exact .inl htarget
      · exact .inr ⟨c, List.mem_append_left _ hc, hrest⟩

theorem leads_iff : leads pairs a b = true ↔ Leads pairs a b := by
  rw [leads, leadsFrom_iff]
  simp

theorem leads_of_mem (h : (a, b) ∈ pairs) : leads pairs a b = true :=
  leads_iff.2 (.single h)

end

/-! ## Linear orders -/

/-- A list names each member once and has the first member of every pair before the second. -/
structure Respects (pairs : List (α × α)) (members : List α) : Prop where
  nodup : members.Nodup
  pairwise : members.Pairwise fun a b => (b, a) ∉ pairs
  mem_first : ∀ p ∈ pairs, p.1 ∈ members
  first_ne : ∀ p ∈ pairs, p.1 ≠ p.2

theorem Respects.not_mem {xs ys : List α} (h : Respects pairs (xs ++ a :: ys)) : a ∉ xs := by
  intro ha
  exact (List.nodup_append.1 h.nodup).2.2 a ha a (List.mem_cons_self ..) rfl

theorem Respects.mem_of_pair {xs ys : List α} (h : Respects pairs (xs ++ a :: ys))
    (hb : (b, a) ∈ pairs) : b ∈ xs := by
  rcases List.mem_append.1 (h.mem_first _ hb) with hxs | hys
  · exact hxs
  · rcases List.mem_cons.1 hys with heq | hys
    · exact absurd heq (h.first_ne _ hb)
    · have hlater := (List.pairwise_append.1 h.pairwise).2.1
      exact absurd hb (List.rel_of_pairwise_cons hlater hys)

theorem Respects.mem_of_leads {xs ys : List α} (h : Respects pairs (xs ++ a :: ys))
    (hleads : Leads pairs b a) : b ∈ xs := by
  induction hleads using Relation.TransGen.head_induction_on with
  | single hb => exact h.mem_of_pair hb
  | @head b c hbc _ ih =>
    obtain ⟨us, vs, rfl⟩ := List.append_of_mem ih
    rw [List.append_assoc, List.cons_append] at h
    exact List.mem_append_left _ (h.mem_of_pair hbc)

/-- Nothing leads back to what comes before. -/
theorem Respects.not_leads {xs ys : List α} (h : Respects pairs (xs ++ a :: ys)) (hb : b ∈ xs) :
    ¬ Leads pairs a b := by
  intro hleads
  have hnew := h.not_mem
  obtain ⟨us, vs, rfl⟩ := List.append_of_mem hb
  rw [List.append_assoc, List.cons_append] at h
  exact hnew (List.mem_append_left _ (h.mem_of_leads hleads))

end Chain

end LiftedPlanning
