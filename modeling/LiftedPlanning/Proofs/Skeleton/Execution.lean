import LiftedPlanning.Proofs.Skeleton.Refinement

/-!
# Executing complete skeletons

The steps of a complete skeleton can be executed in every order that respects the precedences. What
is kept from step to step is `Skeleton.Carried`: the literal of each link whose producer was
executed is true until its consumer is reached. A step that is executed in between is no threat, so
that it does not undo the literal; only of the producer itself this has to be assumed.
-/

namespace LiftedPlanning

namespace Skeleton

variable {S T : Situation} {g : Goal} {s : Skeleton} {a : Instance} {m : Assignment}
  {done rest : List Instance} {k : CausalLink}

/-- The literals of all links from a step that was executed to one that was not are true. -/
def Carried (s : Skeleton) (m : Assignment) (T : Situation) (done : List Instance) : Prop :=
  ∀ k ∈ s.links, k.producer ∈ done → k.consumer ∉ done → T.holds (m.literal k.proposition) = true

theorem Invariant.carried_start (h : s.Invariant S g) (hS : S.Ground) (hm : m.Models s.bindings) :
    s.Carried m S [s.start] := by
  intro k hk hproducer _
  have hproducer : k.producer = s.start := List.mem_singleton.1 hproducer
  rw [Situation.holds_literal_iff]
  rcases h.supplied k hk m hm with ⟨e, he, heq⟩ | ⟨_, hneg, habsent⟩
  · rw [hproducer] at he heq
    obtain ⟨heffect, hpolarity⟩ := Instance.mem_effectsOf.1 he
    rw [h.start_effects] at heffect
    obtain ⟨fact, hfact, rfl⟩ := List.mem_map.1 heffect
    have hatom : fact = (m.literal k.proposition).atom := by
      rw [← heq]
      exact (Atom.instantiate_of_isGround (hS fact hfact) _).symm
    exact iff_of_true (hatom ▸ hfact) hpolarity.symm
  · rw [hneg]
    exact iff_of_false habsent Bool.noConfusion

theorem Invariant.holds_preconditions (h : s.Invariant S g) (hopen : s.openConditions = [])
    (horder : Chain.Respects s.pairs (done ++ a :: rest)) (ha : a ∈ s.steps)
    (hT : s.Carried m T done) : ∀ l ∈ a.preconditions, T.holds (m.literal l) = true := by
  intro l hl
  rcases h.provided a ha l hl with hcondition | ⟨k, hk, rfl, rfl⟩
  · rw [hopen] at hcondition
    cases hcondition
  · exact hT k hk (horder.mem_of_pair (mem_pairs.2 (h.ordered k hk))) horder.not_mem

/-- A step between the ends of a link does not undo its literal. -/
theorem Invariant.not_undoes (h : s.Invariant S g) (hcomplete : s.isComplete = true)
    (horder : Chain.Respects s.pairs (done ++ a :: rest)) (ha : a ∈ s.steps) (hk : k ∈ s.links)
    (hproducer : k.producer ∈ done) (hconsumer : k.consumer ∉ done) (hne : a ≠ k.consumer)
    (hm : m.Models s.bindings) : ¬ a.Undoes m k.proposition := by
  have hne' : a ≠ k.producer := fun heq => horder.not_mem (heq ▸ hproducer)
  have hbefore : s.precedes a k.producer = false :=
    Bool.eq_false_iff.2 fun hleads => horder.not_leads hproducer (Chain.leads_iff.1 hleads)
  have hafter : s.precedes k.consumer a = false :=
    Bool.eq_false_iff.2 fun hleads => hconsumer (horder.mem_of_leads (Chain.leads_iff.1 hleads))
  have hharmless := (isComplete_iff.1 hcomplete).2 k hk a ha
  rw [endangers, decide_eq_true hne', decide_eq_true hne, hbefore, hafter] at hharmless
  have hclobbers : a.clobbers k.proposition s.bindings = false := by simpa using hharmless
  exact (Instance.clobbers_eq_false_iff h.wellFormed).1 hclobbers m hm

theorem Invariant.carried_step (h : s.Invariant S g) (hcomplete : s.isComplete = true)
    (hself : ∀ k ∈ s.links, k.proposition.negated = true →
      k.producer.clobbers k.proposition s.bindings = false)
    (horder : Chain.Respects s.pairs (done ++ a :: rest)) (ha : a ∈ s.steps)
    (hstart : a ≠ s.start) (hground : (a.ground s.bindings).isGround = true)
    (hm : m.Models s.bindings) (hT : s.Carried m T done) :
    s.Carried m (T.apply (a.ground s.bindings)) (done ++ [a]) := by
  intro k hk hproducer hconsumer
  rw [List.mem_append, List.mem_singleton] at hproducer hconsumer
  obtain ⟨hconsumer, hne⟩ := not_or.1 hconsumer
  refine Situation.holds_apply_ground hm (h.wellFormed_action a ha) hground ?_ ?_
  · rcases hproducer with hproducer | rfl
    · exact .inl (hT k hk hproducer hconsumer)
    · rcases h.supplied k hk m hm with hachieves | ⟨heq, _⟩
      · exact .inr hachieves
      · exact absurd heq hstart
  · rcases hproducer with hproducer | rfl
    · exact .inr (h.not_undoes hcomplete horder ha hk hproducer hconsumer (Ne.symm hne) hm)
    · rcases h.supplied k hk m hm with hachieves | ⟨heq, _⟩
      · cases hneg : k.proposition.negated with
        | false => exact .inl ⟨rfl, hachieves⟩
        | true =>
          have hclobbers := hself k hk hneg
          exact .inr ((Instance.clobbers_eq_false_iff h.wellFormed).1 hclobbers m hm)
      · exact absurd heq hstart

/-- The rest of an order of the steps can be executed where what has to be true is so. -/
theorem Invariant.executeFrom (h : s.Invariant S g) (hcomplete : s.isComplete = true)
    (hself : ∀ k ∈ s.links, k.proposition.negated = true →
      k.producer.clobbers k.proposition s.bindings = false)
    (hground : ∀ a ∈ s.steps, (a.ground s.bindings).isGround = true) (hm : m.Models s.bindings)
    {todo : List Instance} (horder : Chain.Respects s.pairs (done ++ (todo ++ [s.finish])))
    (htodo : ∀ a ∈ todo, a ∈ s.steps ∧ a ≠ s.start) (hground' : T.Ground)
    (hT : s.Carried m T done) (index : Nat) :
    ∃ U, T.executeFrom index (todo.map fun a => a.ground s.bindings) = .ok U ∧ U.Ground ∧
      s.Carried m U (done ++ todo) := by
  induction todo generalizing done T index with
  | nil =>
    refine ⟨T, rfl, hground', ?_⟩
    rwa [List.append_nil]
  | cons a todo ih =>
    obtain ⟨⟨ha, hstart⟩, htodo⟩ := List.forall_mem_cons.1 htodo
    rw [List.cons_append] at horder
    have hopen := (isComplete_iff.1 hcomplete).1
    have happlicable : T.applicable (a.ground s.bindings) = true := by
      rw [Situation.applicable_ground_iff hm (h.wellFormed_action a ha) (h.lifted a ha)
        (hground a ha)]
      exact h.holds_preconditions hopen horder ha hT
    have hstep := h.carried_step hcomplete hself horder ha hstart (hground a ha) hm hT
    have hsplit : done ++ a :: (todo ++ [s.finish]) = done ++ [a] ++ (todo ++ [s.finish]) := by
      rw [List.append_assoc, List.singleton_append]
    rw [hsplit] at horder
    obtain ⟨U, hrun, hU, hcarried⟩ := ih horder htodo (hground'.apply _) hstep (index + 1)
    refine ⟨U, ?_, hU, ?_⟩
    · rw [List.map_cons, Situation.executeFrom_cons, if_pos happlicable]
      exact hrun
    · rwa [List.append_assoc, List.singleton_append] at hcarried

theorem Assembled.respects (h : s.Assembled S g) {order : List Instance}
    (hperm : order.Perm s.properSteps)
    (hpairwise : order.Pairwise fun a b => ⟨b, a⟩ ∉ s.precedences) :
    Chain.Respects s.pairs (s.start :: (order ++ [s.finish])) := by
  have hmem : ∀ a, a ∈ order ↔ a ∈ s.steps ∧ a ≠ s.start ∧ a ≠ s.finish := fun a => by
    rw [hperm.mem_iff, properSteps, List.mem_filter, isProper, Bool.and_eq_true,
      decide_eq_true_iff, decide_eq_true_iff, SortedSet.mem_toList]
  -- A precedence never leads to the first step or away from the last one.
  have horderly : ∀ {a b}, (a, b) ∈ s.pairs → s.Orderly ⟨a, b⟩ := fun hab =>
    h.orderly _ (mem_pairs.1 hab)
  have hnodup : order.Nodup := hperm.nodup_iff.2 ((SortedSet.nodup_toList s.steps).filter _)
  refine ⟨?_, ?_, ?_, ?_⟩
  · have hfinish : (order ++ [s.finish]).Nodup := by
      refine List.nodup_append.2 ⟨hnodup, List.pairwise_singleton _ _, ?_⟩
      rintro a ha b hb rfl
      exact ((hmem a).1 ha).2.2 (List.mem_singleton.1 hb)
    refine List.nodup_cons.2 ⟨?_, hfinish⟩
    intro hstart
    rcases List.mem_append.1 hstart with hstart | hstart
    · exact ((hmem _).1 hstart).2.1 rfl
    · exact h.start_ne_finish (List.mem_singleton.1 hstart)
  · refine List.pairwise_cons.2 ⟨fun b _ hb => (horderly hb).second_ne_start rfl, ?_⟩
    refine List.pairwise_append.2 ⟨?_, List.pairwise_singleton _ _, ?_⟩
    · exact hpairwise.imp fun hab hba => hab (mem_pairs.1 hba)
    · intro a _ b hb hba
      cases List.mem_singleton.1 hb
      exact (horderly hba).first_ne_finish rfl
  · rintro ⟨a, b⟩ hab
    have ha := (horderly hab).first_mem
    have hne := (horderly hab).first_ne_finish
    by_cases hstart : a = s.start
    · exact List.mem_cons.2 (.inl hstart)
    · exact List.mem_cons_of_mem _ (List.mem_append_left _ ((hmem a).2 ⟨ha, hstart, hne⟩))
  · rintro ⟨a, b⟩ hab
    exact (horderly hab).first_ne_second

end Skeleton

end LiftedPlanning
