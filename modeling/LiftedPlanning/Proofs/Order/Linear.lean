import Mathlib.Tactic.ByContra
import LiftedPlanning.Order.Linear
import LiftedPlanning.Proofs.Order.Chain

/-!
# Positions along chains

Pairs that lie on no cycle lead from members of which fewer members come first to those of which
more do (`Chain.depth_lt`). A list of members in a linear order names exactly those that neither lie
on a cycle nor come after one (`Chain.mem_linearize_iff`), and no chain leads back
(`Chain.pairwise_linearize`). Among the lists of all members that respect the pairs it is the first
one in the lexicographic order: where another list begins with a different member, that one is free
as well and comes later (`Chain.isLE_compare_linearize`).
-/

namespace LiftedPlanning

universe u

theorem length_filter_lt_length_filter {α : Type u} {p q : α → Bool} {as : List α} {a : α}
    (hpq : ∀ b ∈ as, p b = true → q b = true) (ha : a ∈ as) (hq : q a = true) (hp : p a = false) :
    (as.filter p).length < (as.filter q).length := by
  have hfilter : as.filter p = (as.filter q).filter p := by
    rw [List.filter_filter]
    refine List.filter_congr fun b hb => ?_
    cases hpb : p b with
    | false => rfl
    | true => rw [hpq b hb hpb, Bool.and_self]
  rw [hfilter]
  exact List.length_filter_lt_length_iff_exists.2 ⟨a, List.mem_filter.2 ⟨ha, hq⟩, by simp [hp]⟩

namespace Chain

variable {α : Type u} [DecidableEq α] {pairs : List (α × α)} {members : List α} {a b c : α}

def depth (pairs : List (α × α)) (members : List α) (a : α) : Nat :=
  (members.filter fun b => leads pairs b a).length

theorem depth_lt (hself : leads pairs a a = false) (hab : (a, b) ∈ pairs) (ha : a ∈ members) :
    depth pairs members a < depth pairs members b := by
  -- Whatever comes before `a` comes before `b`, and so does `a`, which does not precede itself.
  refine length_filter_lt_length_filter (fun c _ hc => ?_) ha (leads_of_mem hab) hself
  exact leads_iff.2 ((leads_iff.1 hc).tail hab)

theorem not_leads_of_isFree (hfree : isFree pairs b = true) : ¬ Leads pairs a b := by
  intro hab
  obtain ⟨c, _, hcb⟩ := Relation.TransGen.tail'_iff.1 hab
  exact isFree_iff.1 hfree c hcb

/-- A chain that begins elsewhere never comes to a free member. -/
theorem Leads.without (hfree : isFree pairs b = true) (hne : a ≠ b) (h : Leads pairs a c) :
    Leads (without pairs b) a c := by
  have hwithout : ∀ {x y : α}, (x, y) ∈ pairs → x ≠ b → (x, y) ∈ Chain.without pairs b :=
    fun hxy hx => List.mem_filter.2 ⟨hxy, decide_eq_true hx⟩
  induction h with
  | single hac => exact .single (hwithout hac hne)
  | @tail c d hac hcd ih =>
    refine ih.tail (hwithout hcd ?_)
    rintro rfl
    exact not_leads_of_isFree hfree hac

theorem Leads.of_without (h : Leads (Chain.without pairs b) a c) : Leads pairs a c :=
  h.mono fun _ hp => (List.mem_filter.1 hp).1

/-- If no member is free, each one lies on a cycle or comes after one. -/
theorem exists_cycle_of_find?_eq_none (hnone : members.find? (isFree pairs) = none)
    (hfirst : ∀ p ∈ pairs, p.1 ∈ members) (ha : a ∈ members) :
    ∃ c, Leads pairs c c ∧ (c = a ∨ Leads pairs c a) := by
  by_contra hclean
  have hclean : ∀ c, c = a ∨ Leads pairs c a → ¬ Leads pairs c c := fun c hc hself =>
    hclean ⟨c, hself, hc⟩
  -- Of the members from which a chain leads to `a`, one of least depth would be free.
  have hbusy : ∀ n, ∀ b ∈ members, b = a ∨ Leads pairs b a → depth pairs members b = n → False := by
    intro n
    induction n using Nat.strongRecOn with
    | ind n ih =>
      rintro b hb hba rfl
      have hblocked := List.find?_eq_none.1 hnone b hb
      rw [isFree_iff, not_forall] at hblocked
      obtain ⟨c, hcb⟩ := hblocked
      have hcb := not_not.1 hcb
      have hca : Leads pairs c a := by
        rcases hba with rfl | hba
        · exact .single hcb
        · exact .head hcb hba
      have hself : leads pairs c c = false :=
        Bool.eq_false_iff.2 fun hself => hclean c (.inr hca) (leads_iff.1 hself)
      exact ih _ (depth_lt hself hcb (hfirst _ hcb)) c (hfirst _ hcb) (.inr hca) rfl
  exact hbusy _ a ha (.inl rfl) rfl

/-- The members that are listed are those that neither lie on a cycle nor come after one. -/
theorem mem_linearize_iff (hfirst : ∀ p ∈ pairs, p.1 ∈ members) :
    a ∈ linearize pairs members ↔
      a ∈ members ∧ ∀ c, Leads pairs c c → c ≠ a ∧ ¬ Leads pairs c a := by
  induction pairs, members using linearize.induct with
  | case1 pairs members hnone =>
    rw [linearize, hnone]
    refine iff_of_false List.not_mem_nil fun h => ?_
    obtain ⟨ha, hclean⟩ := h
    obtain ⟨c, hself, hc⟩ := exists_cycle_of_find?_eq_none hnone hfirst ha
    exact hc.elim (hclean c hself).1 (hclean c hself).2
  | case2 pairs members b hsome ih =>
    have hfree := List.find?_some hsome
    -- A free member is on no cycle, so taking it away leaves all cycles.
    have hcycle : ∀ c, Leads pairs c c → c ≠ b := by
      rintro c hself rfl
      exact not_leads_of_isFree hfree hself
    have hfirst' : ∀ p ∈ Chain.without pairs b, p.1 ∈ members.erase b := by
      intro p hp
      obtain ⟨hp, hne⟩ := List.mem_filter.1 hp
      exact (List.mem_erase_of_ne (of_decide_eq_true hne)).2 (hfirst p hp)
    rw [linearize, hsome, List.mem_cons, ih hfirst']
    by_cases hab : a = b
    · subst hab
      refine iff_of_true (.inl rfl) ⟨List.mem_of_find?_eq_some hsome, fun c hself => ?_⟩
      exact ⟨hcycle c hself, not_leads_of_isFree hfree⟩
    · rw [or_iff_right hab, List.mem_erase_of_ne hab]
      refine and_congr_right fun _ => ⟨fun h c hself => ?_, fun h c hself => ?_⟩
      · obtain ⟨hne, hleads⟩ := h c (hself.without hfree (hcycle c hself))
        exact ⟨hne, fun hca => hleads (hca.without hfree (hcycle c hself))⟩
      · obtain ⟨hne, hleads⟩ := h c hself.of_without
        exact ⟨hne, fun hca => hleads hca.of_without⟩

theorem mem_linearize (position : α → Nat) (hpairs : ∀ p ∈ pairs, position p.1 < position p.2)
    (hfirst : ∀ p ∈ pairs, p.1 ∈ members) (ha : a ∈ members) : a ∈ linearize pairs members := by
  refine (mem_linearize_iff hfirst).2 ⟨ha, fun c hself => ?_⟩
  exact absurd (hself.lt hpairs) (Nat.lt_irrefl _)

theorem pairwise_linearize (hnodup : members.Nodup) :
    (linearize pairs members).Pairwise fun a b => ¬ Leads pairs b a := by
  induction pairs, members using linearize.induct with
  | case1 pairs members hnone =>
    rw [linearize, hnone]
    exact .nil
  | case2 pairs members b hsome ih =>
    have hfree := List.find?_some hsome
    rw [linearize, hsome]
    refine .cons (fun a _ => not_leads_of_isFree hfree) ?_
    refine (ih (hnodup.erase b)).imp_of_mem fun {x y} _ hy hyx hleads => hyx ?_
    refine hleads.without hfree ?_
    rintro rfl
    exact hnodup.not_mem_erase (mem_of_mem_linearize hy)

theorem nodup_linearize (hnodup : members.Nodup) : (linearize pairs members).Nodup := by
  induction pairs, members using linearize.induct with
  | case1 pairs members hnone =>
    rw [linearize, hnone]
    exact List.nodup_nil
  | case2 pairs members b hsome ih =>
    rw [linearize, hsome]
    refine List.nodup_cons.2 ⟨fun hb => ?_, ih (hnodup.erase b)⟩
    exact hnodup.not_mem_erase (mem_of_mem_linearize hb)

theorem Respects.tail {order : List α} (h : Respects pairs (a :: order)) :
    Respects (without pairs a) order where
  nodup := (List.nodup_cons.1 h.nodup).2
  pairwise := (List.pairwise_cons.1 h.pairwise).2.imp fun hxy hyx =>
    hxy (List.mem_filter.1 hyx).1
  mem_first p hp := by
    obtain ⟨hp, hne⟩ := List.mem_filter.1 hp
    exact (List.mem_cons.1 (h.mem_first p hp)).resolve_left (of_decide_eq_true hne)
  first_ne p hp := h.first_ne p (List.mem_filter.1 hp).1

/-- No list of the same members that respects the pairs comes before the one that takes the first
free member each time. -/
theorem isLE_compare_linearize [Ord α] [Std.TransOrd α] {order : List α}
    (hascending : members.Pairwise fun a b => compare a b = .lt) (h : Respects pairs order)
    (hperm : order.Perm members) : (compare (linearize pairs members) order).isLE = true := by
  induction pairs, members using linearize.induct generalizing order with
  | case1 pairs members hnone =>
    rw [linearize, hnone]
    exact List.isLE_compare_nil_left
  | case2 pairs members a hsome ih =>
    rw [linearize, hsome]
    cases order with
    | nil =>
      have ha := hperm.mem_iff.2 (List.mem_of_find?_eq_some hsome)
      exact absurd ha List.not_mem_nil
    | cons b order =>
      -- Nothing stands before `b`, so no pair ends there.
      have hnone (c : α) (hc : (c, b) ∈ pairs) : c ∈ [] := h.mem_of_pair hc
      have hfree : isFree pairs b = true :=
        isFree_iff.2 fun c hc => List.not_mem_nil (hnone c hc)
      obtain ⟨_, before, after, rfl, hbefore⟩ := List.find?_eq_some_iff_append.1 hsome
      have hb : b ∈ a :: after := by
        refine (List.mem_append.1 (hperm.mem_iff.1 (List.mem_cons_self ..))).resolve_left ?_
        intro hb
        have hbusy := hbefore b hb
        rw [hfree] at hbusy
        cases hbusy
      rw [List.compare_cons_cons]
      rcases List.mem_cons.1 hb with rfl | hb
      · have hrest := ih (hascending.sublist List.erase_sublist) h.tail
          (List.cons_perm_iff_perm_erase.1 hperm).2
        rw [Std.ReflOrd.compare_self]
        exact hrest
      · have hlater := (List.pairwise_append.1 hascending).2.1
        rw [List.rel_of_pairwise_cons hlater hb]
        rfl

end Chain

end LiftedPlanning
