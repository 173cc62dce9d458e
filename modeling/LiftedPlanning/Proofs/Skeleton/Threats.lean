import LiftedPlanning.Proofs.Skeleton.Extension
import Mathlib.Data.Finset.Card

/-!
# Repairs of threats

A threat is repaired by one more precedence or by narrower bindings (`Skeleton.mem_repairs`), so
that its step no longer endangers its link (`Skeleton.endangers_eq_false_of_mem_repairs`). No threat
is added by this (`Skeleton.Assembled.mem_threats_of_refine`), so that there are fewer of them
(`Skeleton.Assembled.threatCount_refine_lt`).

No repair is missing either: if steps are placed in accordance with the precedences, and the step of
a threat is not placed between the ends of its link or does not undo the literal in some model of
the bindings, then one of the repairs allows for these places and this model
(`Skeleton.Assembled.exists_repair_iff`).
-/

namespace LiftedPlanning

namespace Skeleton

variable {s s' : Skeleton} {S : Situation} {g : Goal} {a b : Instance} {k : CausalLink} {t : Threat}
  {ts : List Threat} {p : Precedence} {c : Bindings} {r : Refinement} {actions : List Action}
  {position : Instance → Nat} {m : Assignment}

theorem endangers_iff :
    s.endangers a k = true ↔
      a ≠ k.producer ∧ a ≠ k.consumer ∧ a.clobbers k.proposition s.bindings = true ∧
        s.precedes a k.producer = false ∧ s.precedes k.consumer a = false := by
  simp only [endangers, Bool.and_eq_true, decide_eq_true_iff, Bool.not_eq_true', and_assoc]

/-! ## Offered repairs -/

theorem refinements_of_threats (hthreats : s.threats = t :: ts) (S : Situation)
    (actions : List Action) : s.refinements S actions = s.repairs t := by
  rw [refinements, hthreats]

theorem mem_repairs :
    r ∈ s.repairs t ↔
      (r = .order ⟨t.step, t.link.producer⟩ ∧ s.canOrder t.step t.link.producer = true) ∨
      (r = .order ⟨t.link.consumer, t.step⟩ ∧ s.canOrder t.link.consumer t.step = true) ∨
      ∃ c ∈ t.step.protecting [t.link.proposition] s.bindings, r = .separate t.step t.link c := by
  simp only [repairs, List.mem_append, List.mem_map, List.mem_filter, List.mem_cons,
    List.not_mem_nil, or_false]
  constructor
  · rintro (⟨_, ⟨rfl | rfl, horder⟩, rfl⟩ | ⟨c, hc, rfl⟩)
    · exact .inl ⟨rfl, horder⟩
    · exact .inr (.inl ⟨rfl, horder⟩)
    · exact .inr (.inr ⟨c, hc, rfl⟩)
  · rintro (⟨rfl, horder⟩ | ⟨rfl, horder⟩ | ⟨c, hc, rfl⟩)
    · exact .inl ⟨_, ⟨.inl rfl, horder⟩, rfl⟩
    · exact .inl ⟨_, ⟨.inr rfl, horder⟩, rfl⟩
    · exact .inr ⟨c, hc, rfl⟩

theorem eq_of_mem_repairs (hr : r ∈ s.repairs t) :
    s.refine r = { s with
      precedences := (s.refine r).precedences
      bindings := (s.refine r).bindings } := by
  rcases mem_repairs.1 hr with ⟨rfl, _⟩ | ⟨rfl, _⟩ | ⟨c, _, rfl⟩ <;> rfl

/-! ## Fewer threats -/

theorem precedes_mono (h : ∀ q ∈ s.precedences, q ∈ s'.precedences)
    (hab : s.precedes a b = true) : s'.precedes a b = true := by
  refine Chain.leads_iff.2 ((Chain.leads_iff.1 hab).mono fun q hq => ?_)
  obtain ⟨q', hq', rfl⟩ := List.mem_map.1 hq
  exact mem_pairs.2 (h q' hq')

theorem endangers_mono (h : ∀ q ∈ s.precedences, q ∈ s'.precedences)
    (hwell : s.bindings.WellFormed) (hwell' : s'.bindings.WellFormed)
    (hmodels : ∀ m : Assignment, m.Models s'.bindings → m.Models s.bindings)
    (hk : s'.endangers a k = true) : s.endangers a k = true := by
  obtain ⟨hproducer, hconsumer, hclobbers, hbefore, hafter⟩ := endangers_iff.1 hk
  refine endangers_iff.2 ⟨hproducer, hconsumer, ?_, ?_, ?_⟩
  · by_contra hnone
    have hharmless := (Instance.clobbers_eq_false_iff hwell).1 (Bool.eq_false_iff.2 hnone)
    have hnone := (Instance.clobbers_eq_false_iff hwell').2 fun m hm => hharmless m (hmodels m hm)
    cases hnone.symm.trans hclobbers
  · exact Bool.eq_false_iff.2 fun hab => Bool.eq_false_iff.1 hbefore (precedes_mono h hab)
  · exact Bool.eq_false_iff.2 fun hab => Bool.eq_false_iff.1 hafter (precedes_mono h hab)

theorem endangers_eq_false_of_mem_repairs (h : s.bindings.WellFormed) (hr : r ∈ s.repairs t) :
    (s.refine r).endangers t.step t.link = false := by
  refine Bool.eq_false_iff.2 fun hstill => ?_
  obtain ⟨_, _, hclobbers, hbefore, hafter⟩ := endangers_iff.1 hstill
  have hordered : ∀ q, (s.order q).precedes q.first q.second = true := fun q =>
    Chain.leads_of_mem (mem_pairs.2 (SortedSet.mem_insert.2 (.inl rfl)))
  rcases mem_repairs.1 hr with ⟨rfl, _⟩ | ⟨rfl, _⟩ | ⟨c, hc, rfl⟩
  · cases hbefore.symm.trans (hordered ⟨t.step, t.link.producer⟩)
  · cases hafter.symm.trans (hordered ⟨t.link.consumer, t.step⟩)
  · have hwell := Instance.wellFormed_of_mem_protecting h hc
    have hnone := (Instance.clobbers_eq_false_iff hwell).2 fun m hm =>
      ((Instance.models_protecting h).1 ⟨c, hc, hm⟩).2 _ (List.mem_singleton_self _)
    cases hnone.symm.trans hclobbers

theorem not_mem_threats_of_mem_repairs (h : s.bindings.WellFormed) (hr : r ∈ s.repairs t) :
    t ∉ (s.refine r).threats := by
  intro ht
  obtain ⟨_, _, hstill⟩ := mem_threats.1 ht
  cases (endangers_eq_false_of_mem_repairs h hr).symm.trans hstill

/-- What is no threat does not become one. -/
theorem Assembled.mem_threats_of_refine (h : s.Assembled S g) (hr : r ∈ s.refinements S actions)
    (ht : t ∈ (s.refine r).threats) (hstep : t.step ∈ s.steps) (hlink : t.link ∈ s.links) :
    t ∈ s.threats := by
  obtain ⟨_, _, hendangers⟩ := mem_threats.1 ht
  refine mem_threats.2 ⟨hlink, hstep, ?_⟩
  exact endangers_mono (fun _ hq => mem_precedences_refine hq r) h.wellFormed
    (h.refine hr).wellFormed (fun _ hm => h.models_of_refine hr hm) hendangers

def threatCount (s : Skeleton) : Nat := s.threats.toFinset.card

theorem nodup_threats (s : Skeleton) : s.threats.Nodup := by
  refine List.nodup_flatMap.2 ⟨fun k _ => ?_, ?_⟩
  · refine (s.steps.nodup_toList.filter _).map fun a b hab => ?_
    exact congrArg Threat.step hab
  · refine s.links.nodup_toList.imp fun {k k'} hne => List.disjoint_left.2 fun t hk hk' => hne ?_
    obtain ⟨_, _, rfl⟩ := List.mem_map.1 hk
    obtain ⟨_, _, heq⟩ := List.mem_map.1 hk'
    exact (congrArg Threat.link heq).symm

theorem threatCount_eq_length (s : Skeleton) : s.threatCount = s.threats.length :=
  List.toFinset_card_of_nodup s.nodup_threats

/-- A repair leaves one threat less. -/
theorem Assembled.threatCount_refine_lt (h : s.Assembled S g) (hthreats : s.threats = t :: ts)
    (hr : r ∈ s.refinements S actions) : (s.refine r).threatCount < s.threatCount := by
  have hrepair : r ∈ s.repairs t := refinements_of_threats hthreats S actions ▸ hr
  have ht : t ∈ s.threats := hthreats ▸ List.mem_cons_self ..
  have heq := eq_of_mem_repairs hrepair
  refine Finset.card_lt_card (Finset.ssubset_iff_exists_cons_subset.2 ⟨t, fun hmem => ?_, ?_⟩)
  · exact not_mem_threats_of_mem_repairs h.wellFormed hrepair (List.mem_toFinset.1 hmem)
  · intro u hu
    rcases Finset.mem_cons.1 hu with rfl | hu
    · exact List.mem_toFinset.2 ht
    · have hu := List.mem_toFinset.1 hu
      obtain ⟨hlink, hstep, _⟩ := mem_threats.1 hu
      rw [heq] at hlink hstep
      exact List.mem_toFinset.2 (h.mem_threats_of_refine hr hu hstep hlink)

/-! ## No repair is missing -/

theorem ascends_order_iff :
    (s.order p).Ascends position ↔ position p.first < position p.second ∧ s.Ascends position := by
  simp only [Ascends, Skeleton.order, SortedSet.mem_insert, forall_eq_or_imp]

/-- A repair of a threat allows for given places of the steps and a given model, exactly if the step
is not placed between the ends of the link or does not undo what the link provides. -/
theorem Assembled.exists_repair_iff (h : s.Assembled S g) (ht : t ∈ s.threats)
    (hascends : s.Ascends position)
    (hinjective : ∀ a ∈ s.steps, ∀ b ∈ s.steps, position a = position b → a = b)
    (hm : m.Models s.bindings) :
    (∃ r ∈ s.repairs t, (s.refine r).Ascends position ∧ m.Models (s.refine r).bindings) ↔
      ¬ (position t.link.producer < position t.step ∧
          position t.step < position t.link.consumer) ∨
        ¬ t.step.Undoes m t.link.proposition := by
  constructor
  · rintro ⟨r, hr, hascends', hm'⟩
    rcases mem_repairs.1 hr with ⟨rfl, _⟩ | ⟨rfl, _⟩ | ⟨c, hc, rfl⟩
    · have hlt : position t.step < position t.link.producer := (ascends_order_iff.1 hascends').1
      exact .inl fun hbetween => Nat.lt_asymm hlt hbetween.1
    · have hlt : position t.link.consumer < position t.step := (ascends_order_iff.1 hascends').1
      exact .inl fun hbetween => Nat.lt_asymm hlt hbetween.2
    · obtain ⟨_, hunharmed⟩ := (Instance.models_protecting h.wellFormed).1 ⟨c, hc, hm'⟩
      exact .inr (hunharmed _ (List.mem_singleton_self _))
  · intro hsafe
    obtain ⟨hlink, hstep, hendangers⟩ := mem_threats.1 ht
    obtain ⟨hproducer, hconsumer, _⟩ := endangers_iff.1 hendangers
    have hends := h.orderly _ (h.ordered _ hlink)
    have hne : position t.step ≠ position t.link.producer := fun heq =>
      hproducer (hinjective _ hstep _ hends.first_mem heq)
    have hne' : position t.step ≠ position t.link.consumer := fun heq =>
      hconsumer (hinjective _ hstep _ hends.second_mem heq)
    have horder : ∀ {a b}, position a < position b →
        (s.order ⟨a, b⟩).Ascends position := fun hlt => ascends_order_iff.2 ⟨hlt, hascends⟩
    -- Each of the three places of the step allows for one kind of repair.
    by_cases hbefore : position t.step < position t.link.producer
    · exact ⟨_, mem_repairs.2 (.inl ⟨rfl, hascends.canOrder hbefore⟩), horder hbefore, hm⟩
    by_cases hafter : position t.link.consumer < position t.step
    · exact ⟨_, mem_repairs.2 (.inr (.inl ⟨rfl, hascends.canOrder hafter⟩)), horder hafter, hm⟩
    have hunharmed : ¬ t.step.Undoes m t.link.proposition :=
      hsafe.resolve_left fun hnot => hnot ⟨by omega, by omega⟩
    obtain ⟨c, hc, hmc⟩ := (Instance.models_protecting h.wellFormed).2
      ⟨hm, List.forall_mem_singleton.2 hunharmed⟩
    exact ⟨_, mem_repairs.2 (.inr (.inr ⟨c, hc, rfl⟩)), hascends, hmc⟩

end Skeleton

end LiftedPlanning
