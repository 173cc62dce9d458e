import LiftedPlanning.Proofs.Skeleton.Invariant

/-!
# Refinements keep the invariant

A refinement is made of few changes, each of which keeps the invariant: adding a precedence,
narrowing the bindings, replacing an open precondition by a link, and adding a step.
-/

namespace LiftedPlanning

namespace Skeleton

variable {S : Situation} {g : Goal} {s : Skeleton} {a b step producer : Instance}
  {o : OpenCondition} {c : Bindings} {p : Precedence} {l : ScopedLiteral}

/-! ## Changes -/

theorem Assembled.order (h : s.Assembled S g) (hp : s.Orderly p) : (s.order p).Assembled S g := by
  have hkeep : ∀ q ∈ s.precedences, q ∈ s.precedences.insert p := fun q hq =>
    SortedSet.mem_insert.2 (.inr hq)
  refine { h with start_first := ?_, finish_last := ?_, orderly := ?_, ordered := ?_ }
  · intro a ha hne
    exact hkeep _ (h.start_first a ha hne)
  · intro a ha hne
    exact hkeep _ (h.finish_last a ha hne)
  · intro q hq
    rcases SortedSet.mem_insert.1 hq with rfl | hq
    · exact { hp with }
    · exact { h.orderly q hq with }
  · intro k hk
    exact hkeep _ (h.ordered k hk)

theorem Assembled.rebind (h : s.Assembled S g) (hc : c.WellFormed)
    (hmodels : ∀ m : Assignment, m.Models c → m.Models s.bindings) :
    (s.rebind c).Assembled S g :=
  { h with
    orderly := fun q hq => { h.orderly q hq with }
    wellFormed := hc
    supported := fun k hk => (h.supported k hk).rebind h.wellFormed hc hmodels }

def close (s : Skeleton) (producer : Instance) (o : OpenCondition) : Skeleton :=
  { s with
    links := s.links.insert (o.linkFrom producer)
    openConditions := s.openConditions.erase o }

theorem Assembled.close (h : s.Assembled S g) (hordered : ⟨producer, o.step⟩ ∈ s.precedences)
    (hsupported : s.Supported S producer o.proposition) :
    (s.close producer o).Assembled S g := by
  refine
    { h with
      orderly := fun q hq => { h.orderly q hq with }
      required := ?_, ordered := ?_, supported := ?_, provided := ?_ }
  · intro o' ho'
    exact h.required o' (List.mem_of_mem_erase ho')
  · intro k hk
    rcases SortedSet.mem_insert.1 hk with rfl | hk
    · exact hordered
    · exact h.ordered k hk
  · intro k hk
    rcases SortedSet.mem_insert.1 hk with rfl | hk
    · exact hsupported
    · exact h.supported k hk
  · intro a ha l hl
    have hkeep : ∀ k ∈ s.links, k ∈ s.links.insert (o.linkFrom producer) := fun k hk =>
      SortedSet.mem_insert.2 (.inr hk)
    by_cases heq : (⟨a, l⟩ : OpenCondition) = o
    · subst heq
      exact .inr ⟨_, SortedSet.mem_insert.2 (.inl rfl), rfl, rfl⟩
    · rcases h.provided a ha l hl with hopen | ⟨k, hk, hconsumer⟩
      · exact .inl ((List.mem_erase_of_ne heq).2 hopen)
      · exact .inr ⟨k, hkeep k hk, hconsumer⟩

def extend (s : Skeleton) (step : Instance) : Skeleton :=
  { s with
    steps := s.steps.insert step
    precedences := (s.precedences.insert ⟨s.start, step⟩).insert ⟨step, s.finish⟩
    openConditions := s.openConditions ++ OpenCondition.ofStep step
    supply := s.supply.advance }

theorem Assembled.id_ne_of_next (h : s.Assembled S g) (hid : step.scope.id = s.supply.next)
    (ha : a ∈ s.steps) : a.scope.id ≠ step.scope.id := by
  intro heq
  have hlt := h.id_lt a ha
  rw [heq, hid] at hlt
  exact absurd hlt (Nat.lt_irrefl _)

theorem Assembled.ne_of_next (h : s.Assembled S g) (hid : step.scope.id = s.supply.next)
    (ha : a ∈ s.steps) : a ≠ step :=
  fun heq => h.id_ne_of_next hid ha (congrArg (fun i : Instance => i.scope.id) heq)

theorem Assembled.extend (h : s.Assembled S g) (hlifted : step.scope = .lifted s.supply.next) :
    (s.extend step).Assembled S g := by
  have hid : step.scope.id = s.supply.next := congrArg Scope.id hlifted
  have hstart := h.ne_of_next hid h.start_mem
  have hfinish := h.ne_of_next hid h.finish_mem
  have hmem : ∀ a ∈ s.steps, a ∈ s.steps.insert step := fun a ha =>
    SortedSet.mem_insert.2 (.inr ha)
  have hnew : step ∈ s.steps.insert step := SortedSet.mem_insert.2 (.inl rfl)
  have hprecedences : ∀ q, q ∈ (s.extend step).precedences ↔
      q = ⟨step, s.finish⟩ ∨ q = ⟨s.start, step⟩ ∨ q ∈ s.precedences := fun q => by
    rw [Skeleton.extend, SortedSet.mem_insert, SortedSet.mem_insert]
  refine
    { h with
      start_mem := hmem _ h.start_mem
      finish_mem := hmem _ h.finish_mem
      ordered := fun k hk => (hprecedences _).2 (.inr (.inr (h.ordered k hk)))
      lifted := ?lifted, id_lt := ?id_lt, id_injective := ?id_injective
      start_first := ?start_first, finish_last := ?finish_last, orderly := ?orderly
      required := ?required, provided := ?provided }
  case lifted =>
    intro a ha
    rcases SortedSet.mem_insert.1 ha with rfl | ha
    · rw [hid]
      exact hlifted
    · exact h.lifted a ha
  case id_lt =>
    intro a ha
    rcases SortedSet.mem_insert.1 ha with rfl | ha
    · rw [hid]
      exact Nat.lt_succ_self _
    · exact Nat.lt_succ_of_lt (h.id_lt a ha)
  case id_injective =>
    intro a ha b hb heq
    rcases SortedSet.mem_insert.1 ha with rfl | haold <;>
      rcases SortedSet.mem_insert.1 hb with rfl | hbold
    · rfl
    · exact absurd heq.symm (h.id_ne_of_next hid hbold)
    · exact absurd heq (h.id_ne_of_next hid haold)
    · exact h.id_injective a haold b hbold heq
  case start_first =>
    intro a ha hne
    rcases SortedSet.mem_insert.1 ha with rfl | ha
    · exact (hprecedences _).2 (.inr (.inl rfl))
    · exact (hprecedences _).2 (.inr (.inr (h.start_first a ha hne)))
  case finish_last =>
    intro a ha hne
    rcases SortedSet.mem_insert.1 ha with rfl | ha
    · exact (hprecedences _).2 (.inl rfl)
    · exact (hprecedences _).2 (.inr (.inr (h.finish_last a ha hne)))
  case orderly =>
    intro q hq
    rcases (hprecedences q).1 hq with rfl | rfl | hq
    · exact ⟨hnew, hmem _ h.finish_mem, hfinish.symm, h.start_ne_finish.symm, hfinish.symm⟩
    · exact ⟨hmem _ h.start_mem, hnew, hstart, hstart.symm, h.start_ne_finish⟩
    · have hold := h.orderly q hq
      exact { hold with first_mem := hmem _ hold.first_mem, second_mem := hmem _ hold.second_mem }
  case required =>
    intro o ho
    rcases List.mem_append.1 ho with ho | ho
    · exact (h.required o ho).imp_left (hmem _)
    · obtain ⟨l, hl, rfl⟩ := List.mem_map.1 ho
      exact ⟨hnew, hl⟩
  case provided =>
    intro a ha l hl
    rcases SortedSet.mem_insert.1 ha with rfl | ha
    · exact .inl (List.mem_append_right _ (List.mem_map_of_mem hl))
    · exact (h.provided a ha l hl).imp_left (List.mem_append_left _)

/-! ## Links and new steps -/

theorem link_eq (hne : producer ≠ o.step) :
    s.link producer o c = ((s.rebind c).order ⟨producer, o.step⟩).close producer o := by
  rw [link, if_neg hne]
  rfl

theorem length_openConditions_link (ho : o ∈ s.openConditions) :
    (s.link producer o c).openConditions.length + 1 = s.openConditions.length := by
  rw [Skeleton.link, List.length_erase_of_mem ho]
  exact Nat.sub_add_cancel (List.length_pos_of_mem ho)

theorem Assembled.link (h : s.Assembled S g) (hp : s.Orderly ⟨producer, o.step⟩)
    (hc : c.WellFormed) (hmodels : ∀ m : Assignment, m.Models c → m.Models s.bindings)
    (hsupported : (s.rebind c).Supported S producer o.proposition) :
    (s.link producer o c).Assembled S g := by
  rw [link_eq hp.first_ne_second]
  have horder := (h.rebind hc hmodels).order (p := ⟨producer, o.step⟩) { hp with }
  exact horder.close (SortedSet.mem_insert.2 (.inl rfl)) hsupported

theorem addStep_eq (hne : step ≠ o.step) (ho : o ∈ s.openConditions) :
    s.addStep step o c = (s.extend step).link step o c := by
  have hprecedences :
      ((s.precedences.insert ⟨step, o.step⟩).insert ⟨s.start, step⟩).insert ⟨step, s.finish⟩ =
        ((s.precedences.insert ⟨s.start, step⟩).insert ⟨step, s.finish⟩).insert
          ⟨step, o.step⟩ := by
    refine SortedSet.ext fun q => ?_
    simp only [SortedSet.mem_insert]
    exact ⟨fun hq => by rcases hq with hq | hq | hq | hq <;> simp [hq],
      fun hq => by rcases hq with hq | hq | hq | hq <;> simp [hq]⟩
  rw [addStep, link, link, if_neg hne, if_neg hne, extend, List.erase_append_left _ ho]
  simp only [hprecedences]

theorem Assembled.step_ne_start (h : s.Assembled S g) (ho : o ∈ s.openConditions) :
    o.step ≠ s.start := by
  intro heq
  have hprecondition := (h.required o ho).2
  rw [heq, Instance.preconditions, h.start_preconditions] at hprecondition
  cases hprecondition

theorem Assembled.addStep (h : s.Assembled S g) (ho : o ∈ s.openConditions)
    (hlifted : step.scope = .lifted s.supply.next) (hc : c.WellFormed)
    (hmodels : ∀ m : Assignment, m.Models c → m.Models s.bindings)
    (hasserts : step.asserts o.proposition c = true) : (s.addStep step o c).Assembled S g := by
  have hid : step.scope.id = s.supply.next := congrArg Scope.id hlifted
  have hmem := (h.required o ho).1
  have hne : step ≠ o.step := (h.ne_of_next hid hmem).symm
  have hstart := h.step_ne_start ho
  rw [addStep_eq hne ho]
  refine (h.extend hlifted).link ?_ hc hmodels (.inl hasserts)
  exact ⟨SortedSet.mem_insert.2 (.inl rfl), SortedSet.mem_insert.2 (.inr hmem), hne, hstart,
    (h.ne_of_next hid h.finish_mem).symm⟩

/-! ## Offered refinements -/

theorem mem_properSteps : a ∈ s.properSteps ↔ a ∈ s.steps ∧ a ≠ s.start ∧ a ≠ s.finish := by
  simp [properSteps, isProper, SortedSet.mem_toList]

theorem nodup_properSteps (s : Skeleton) : s.properSteps.Nodup := s.steps.nodup_toList.filter _

theorem mem_pairs : (a, b) ∈ s.pairs ↔ ⟨a, b⟩ ∈ s.precedences := by
  rw [pairs, List.mem_map]
  constructor
  · rintro ⟨q, hq, heq⟩
    cases heq
    exact hq
  · intro h
    exact ⟨_, h, rfl⟩

theorem mem_pairs_order {q : Instance × Instance} :
    q ∈ (s.order ⟨a, b⟩).pairs ↔ q = (a, b) ∨ q ∈ s.pairs := by
  obtain ⟨c, d⟩ := q
  rw [mem_pairs, mem_pairs, order, SortedSet.mem_insert, Precedence.mk.injEq, Prod.mk.injEq]

theorem canOrder_iff : s.canOrder a b = true ↔ a ≠ b ∧ ¬ Chain.Leads s.pairs b a := by
  rw [canOrder, Bool.and_eq_true, decide_eq_true_iff, Bool.not_eq_true', Bool.eq_false_iff,
    precedes, ne_eq, ne_eq, Chain.leads_iff]

theorem isAcyclic_iff_forall_mem_steps :
    s.isAcyclic = true ↔ ∀ a ∈ s.steps, ¬ Chain.Leads s.pairs a a := by
  simp only [isAcyclic, List.all_eq_true, Bool.not_eq_true', Bool.eq_false_iff, precedes, ne_eq,
    Chain.leads_iff, SortedSet.mem_toList]

/-! ## Positions -/

def Ascends (s : Skeleton) (position : Instance → Nat) : Prop :=
  ∀ p ∈ s.precedences, position p.first < position p.second

instance (s : Skeleton) (position : Instance → Nat) : Decidable (s.Ascends position) :=
  decidable_of_iff (∀ p ∈ s.precedences.toList, position p.first < position p.second) <| by
    simp only [Ascends, SortedSet.mem_toList]

theorem Ascends.precedes_eq_false {position : Instance → Nat} (h : s.Ascends position)
    (hab : position b ≤ position a) : s.precedes a b = false := by
  refine Bool.eq_false_iff.2 fun hleads => Nat.not_lt_of_le hab ?_
  refine (Chain.leads_iff.1 hleads).lt fun p hp => ?_
  exact h ⟨p.1, p.2⟩ (mem_pairs.1 hp)

theorem Ascends.canOrder {position : Instance → Nat} (h : s.Ascends position)
    (hab : position a < position b) : s.canOrder a b = true := by
  have hne : a ≠ b := fun heq => Nat.ne_of_lt hab (congrArg position heq)
  simp [Skeleton.canOrder, hne, h.precedes_eq_false (Nat.le_of_lt hab)]

theorem Ascends.isAcyclic {position : Instance → Nat} (h : s.Ascends position) :
    s.isAcyclic = true := by
  simp [Skeleton.isAcyclic, h.precedes_eq_false (Nat.le_refl _)]

/-- Steps that can be ordered leave the frame as it is. -/
theorem Assembled.orderly_of_canOrder (h : s.Assembled S g) (ha : a ∈ s.steps) (hb : b ∈ s.steps)
    (hab : s.canOrder a b = true) : s.Orderly ⟨a, b⟩ := by
  obtain ⟨hne, hfree⟩ := canOrder_iff.1 hab
  have hfree : ⟨b, a⟩ ∉ s.precedences := fun hba => hfree (.single (mem_pairs.2 hba))
  refine ⟨ha, hb, hne, ?_, ?_⟩
  · rintro rfl
    exact hfree (h.start_first a ha hne)
  · rintro rfl
    exact hfree (h.finish_last b hb hne.symm)

theorem Assembled.supported_of_support? (h : s.Assembled S g)
    (hc : s.support? S producer l = some c) :
    c.WellFormed ∧ (∀ m : Assignment, m.Models c → m.Models s.bindings) ∧
      (s.rebind c).Supported S producer l := by
  rw [support?] at hc
  split at hc
  · next hdenied =>
    cases hc
    exact ⟨h.wellFormed, fun _ hm => hm, .inr hdenied⟩
  · have hwell := Instance.wellFormed_establishing? h.wellFormed hc
    obtain ⟨e, he, hsame⟩ := Instance.exists_effect_of_establishing? h.wellFormed hc
    refine ⟨hwell, fun m hm => (hsame m hm).1, .inl ?_⟩
    exact (Instance.asserts_iff hwell).2 ⟨e, he, fun m hm => (hsame m hm).2⟩

/-- A refinement that is offered, and the flaw that it repairs. -/
inductive Offers (s : Skeleton) (S : Situation) (actions : List Action) : Refinement → Prop where
  | order {t : Threat} {a b : Instance} (threat : t ∈ s.threats)
      (ends : (a, b) ∈ [(t.step, t.link.producer), (t.link.consumer, t.step)])
      (orders : s.canOrder a b = true) : Offers s S actions (.order ⟨a, b⟩)
  | separate {t : Threat} {c : Bindings} (threat : t ∈ s.threats)
      (protects : c ∈ t.step.protecting [t.link.proposition] s.bindings) :
      Offers s S actions (.separate t.step t.link c)
  | link {o : OpenCondition} {a : Instance} {c : Bindings} (condition : o ∈ s.openConditions)
      (step : a ∈ s.steps) (orders : s.canOrder a o.step = true)
      (supports : s.support? S a o.proposition = some c) : Offers s S actions (.link a o c)
  | addStep {o : OpenCondition} {action : Action} {e : Literal} {c : Bindings}
      (condition : o ∈ s.openConditions) (available : action ∈ actions)
      (effect : e ∈ (Instance.lifted action s.supply.next).effectsOf o.proposition.negated)
      (unifies : (Instance.lifted action s.supply.next).unify? e.atom o.proposition s.bindings =
        some c) :
      Offers s S actions (.addStep (.lifted action s.supply.next) o c)

theorem offers_of_mem_refinements {actions : List Action} {r : Refinement}
    (hr : r ∈ s.refinements S actions) : s.Offers S actions r := by
  rw [refinements] at hr
  split at hr
  · next t _ hthreats =>
    have ht : t ∈ s.threats := hthreats ▸ List.mem_cons_self ..
    rcases List.mem_append.1 hr with hr | hr
    · obtain ⟨q, hq, rfl⟩ := List.mem_map.1 hr
      obtain ⟨hq, horders⟩ := List.mem_filter.1 hq
      exact .order ht hq horders
    · obtain ⟨c, hc, rfl⟩ := List.mem_map.1 hr
      exact .separate ht hc
  · next o _ _ hopen =>
    have ho : o ∈ s.openConditions := hopen ▸ List.mem_cons_self ..
    rcases List.mem_append.1 hr with hr | hr
    · obtain ⟨a, ha, hr⟩ := List.mem_filterMap.1 hr
      obtain ⟨ha, horders⟩ := List.mem_filter.1 ha
      obtain ⟨c, hc, rfl⟩ := Option.map_eq_some_iff.1 hr
      exact .link ho ha horders hc
    · obtain ⟨action, haction, hr⟩ := List.mem_flatMap.1 hr
      obtain ⟨c, hc, rfl⟩ := List.mem_map.1 hr
      obtain ⟨e, he, hunify⟩ := List.mem_filterMap.1 (List.mem_eraseDups.1 hc)
      exact .addStep ho haction he hunify
  · cases hr

/-- Every refinement that is offered keeps a skeleton assembled. -/
theorem Assembled.refine (h : s.Assembled S g) {actions : List Action} {r : Refinement}
    (hr : r ∈ s.refinements S actions) : (s.refine r).Assembled S g := by
  cases offers_of_mem_refinements hr with
  | order threat ends orders =>
    obtain ⟨hlink, hstep, _⟩ := mem_threats.1 threat
    have hends := h.orderly _ (h.ordered _ hlink)
    rw [List.mem_cons, List.mem_singleton, Prod.mk.injEq, Prod.mk.injEq] at ends
    rcases ends with ⟨rfl, rfl⟩ | ⟨rfl, rfl⟩
    · exact h.order (h.orderly_of_canOrder hstep hends.first_mem orders)
    · exact h.order (h.orderly_of_canOrder hends.second_mem hstep orders)
  | @separate t c threat protects =>
    refine h.rebind (Instance.wellFormed_of_mem_protecting h.wellFormed protects) fun m hm => ?_
    exact ((Instance.models_protecting h.wellFormed).1 ⟨c, protects, hm⟩).1
  | link condition step orders supports =>
    obtain ⟨hwell, hmodels, hsupported⟩ := h.supported_of_support? supports
    have hconsumer := (h.required _ condition).1
    exact h.link (h.orderly_of_canOrder step hconsumer orders) hwell hmodels hsupported
  | @addStep o action e c condition available effect unifies =>
    have hwell := h.wellFormed.wellFormed_unify? unifies
    have hmodels : ∀ m : Assignment, m.Models c → m.Models s.bindings ∧
        m.atom (.lifted s.supply.next) e.atom = (m.literal o.proposition).atom := fun m hm =>
      (Instance.models_unify? h.wellFormed).1 ⟨c, unifies, hm⟩
    refine h.addStep condition rfl hwell (fun m hm => (hmodels m hm).1) ?_
    exact (Instance.asserts_iff hwell).2 ⟨e, effect, fun m hm => (hmodels m hm).2⟩

theorem Invariant.refine (h : s.Invariant S g) {actions : List Action}
    (hactions : ∀ a ∈ actions, a.WellFormed) {r : Refinement}
    (hr : r ∈ s.refinements S actions) : (s.refine r).Invariant S g := by
  refine ⟨h.toAssembled.refine hr, ?_⟩
  cases offers_of_mem_refinements hr with
  | order _ _ _ => exact h.wellFormed_action
  | separate _ _ => exact h.wellFormed_action
  | link _ _ _ _ => exact h.wellFormed_action
  | @addStep o action e c condition available effect unifies =>
    intro a ha
    rcases SortedSet.mem_insert.1 ha with rfl | ha
    · exact hactions action available
    · exact h.wellFormed_action a ha

end Skeleton

end LiftedPlanning
