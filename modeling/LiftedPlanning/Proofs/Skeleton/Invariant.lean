import LiftedPlanning.Proofs.Action.Interference
import LiftedPlanning.Proofs.Bindings.Generic
import LiftedPlanning.Proofs.Order.Chain
import LiftedPlanning.Proofs.World.Execution
import LiftedPlanning.Skeleton.Refinement

/-!
# What refinements keep

`Skeleton.Assembled` says what holds of every skeleton that arises from a goal: the frame provides
the facts and requires the goal and encloses all other steps, every precondition is open or provided
by a link, and the producer of a link supports its literal (`Skeleton.Supported`) and comes before
the consumer. `Skeleton.Invariant` adds that the actions of the steps are well-formed. Both hold at
the outset (`Skeleton.invariant_ofGoal`), and are kept by each of the changes of which refinements
are made and therefore by every refinement (`Skeleton.Assembled.refine`,
`Skeleton.Invariant.refine`).
-/

namespace LiftedPlanning

namespace Skeleton

variable {S : Situation} {g : Goal} {s : Skeleton} {a b step producer : Instance}
  {o : OpenCondition} {c : Bindings} {m : Assignment} {l : ScopedLiteral}

/-- The first step provides the facts, and the last one requires the goal. -/
structure Framed (S : Situation) (g : Goal) (s : Skeleton) : Prop where
  start_preconditions : s.start.action.preconditions = []
  start_effects : s.start.action.effects = S.facts.toList.map Literal.pos
  finish_preconditions : s.finish.action.preconditions = g.literals
  finish_effects : s.finish.action.effects = []
  start_ne_finish : s.start ≠ s.finish

/-- A precedence of two different steps, of which the later one is not the first step of the frame
and the earlier one not the last. -/
structure Orderly (s : Skeleton) (p : Precedence) : Prop where
  first_mem : p.first ∈ s.steps
  second_mem : p.second ∈ s.steps
  first_ne_second : p.first ≠ p.second
  second_ne_start : p.second ≠ s.start
  first_ne_finish : p.first ≠ s.finish

/-- A step makes a literal true: by an effect or, being the first step, by leaving a denied atom out
of the facts. -/
def Supplies (S : Situation) (s : Skeleton) (m : Assignment) (producer : Instance)
    (l : ScopedLiteral) : Prop :=
  producer.Achieves m l ∨
    (producer = s.start ∧ l.negated = true ∧ (m.literal l).atom ∉ S.facts)

/-- A step is known to make a literal true: by an effect or, being the first step, by leaving a
denied ground atom out of the facts. -/
def Supported (S : Situation) (s : Skeleton) (producer : Instance) (l : ScopedLiteral) : Prop :=
  producer.asserts l s.bindings = true ∨
    (producer = s.start ∧ s.deniedInitially S l = true)

/-- What every refinement keeps, whatever the actions are. -/
structure Assembled (S : Situation) (g : Goal) (s : Skeleton) : Prop extends Framed S g s where
  start_mem : s.start ∈ s.steps
  finish_mem : s.finish ∈ s.steps
  lifted : ∀ a ∈ s.steps, a.scope = .lifted a.scope.id
  id_lt : ∀ a ∈ s.steps, a.scope.id.toNat < s.supply.next.toNat
  id_injective : ∀ a ∈ s.steps, ∀ b ∈ s.steps, a.scope.id = b.scope.id → a = b
  start_first : ∀ a ∈ s.steps, a ≠ s.start → ⟨s.start, a⟩ ∈ s.precedences
  finish_last : ∀ a ∈ s.steps, a ≠ s.finish → ⟨a, s.finish⟩ ∈ s.precedences
  orderly : ∀ p ∈ s.precedences, s.Orderly p
  wellFormed : s.bindings.WellFormed
  required : ∀ o ∈ s.openConditions, o.step ∈ s.steps ∧ o.proposition ∈ o.step.preconditions
  ordered : ∀ k ∈ s.links, ⟨k.producer, k.consumer⟩ ∈ s.precedences
  supported : ∀ k ∈ s.links, s.Supported S k.producer k.proposition
  provided : ∀ a ∈ s.steps, ∀ l ∈ a.preconditions,
    ⟨a, l⟩ ∈ s.openConditions ∨ ∃ k ∈ s.links, k.consumer = a ∧ k.proposition = l

/-- What every refinement by well-formed actions keeps. -/
structure Invariant (S : Situation) (g : Goal) (s : Skeleton) : Prop extends Assembled S g s where
  wellFormed_action : ∀ a ∈ s.steps, a.action.WellFormed

/-! ## Support -/

theorem deniedInitially_eq_true_iff :
    s.deniedInitially S l = true ↔
      l.negated = true ∧ ∃ a, s.bindings.ground? l.scope l.atom = some a ∧ a ∉ S.facts := by
  simp only [deniedInitially, Bool.and_eq_true, Option.any_eq_true, decide_eq_true_iff]

/-- What is known to be true is true in every model. -/
theorem Supported.supplies (h : s.Supported S producer l) (hwell : s.bindings.WellFormed)
    (hm : m.Models s.bindings) : s.Supplies S m producer l := by
  rcases h with hasserts | ⟨hstart, hdenied⟩
  · obtain ⟨e, he, hsame⟩ := (Instance.asserts_iff hwell).1 hasserts
    exact .inl ⟨e, he, hsame m hm⟩
  · obtain ⟨hneg, atom, hground, habsent⟩ := deniedInitially_eq_true_iff.1 hdenied
    have hatom : (m.literal l).atom = atom := Bindings.atom_eq_of_ground?_eq_some hm hground
    exact .inr ⟨hstart, hneg, hatom ▸ habsent⟩

theorem Supported.rebind (h : s.Supported S producer l) (hwell : s.bindings.WellFormed)
    (hc : c.WellFormed) (hmodels : ∀ m : Assignment, m.Models c → m.Models s.bindings) :
    (s.rebind c).Supported S producer l := by
  rcases h with hasserts | ⟨hstart, hdenied⟩
  · obtain ⟨e, he, hsame⟩ := (Instance.asserts_iff hwell).1 hasserts
    exact .inl ((Instance.asserts_iff hc).2 ⟨e, he, fun m hm => hsame m (hmodels m hm)⟩)
  · obtain ⟨hneg, atom, hground, habsent⟩ := deniedInitially_eq_true_iff.1 hdenied
    have hground := hwell.ground?_mono hc hmodels hground
    exact .inr ⟨hstart, deniedInitially_eq_true_iff.2 ⟨hneg, atom, hground, habsent⟩⟩

theorem Assembled.supplied (h : s.Assembled S g) (k : CausalLink) (hk : k ∈ s.links)
    (m : Assignment) (hm : m.Models s.bindings) : s.Supplies S m k.producer k.proposition :=
  (h.supported k hk).supplies h.wellFormed hm

/-! ## The first skeleton -/

theorem map_lifted_eq_ok {result : Except SchemaError Action} {id : ScopeId}
    (h : (result.map fun x => Instance.lifted x id) = .ok a) :
    ∃ action, result = .ok action ∧ a = .lifted action id := by
  cases result with
  | error e => cases h
  | ok action =>
    cases h
    exact ⟨action, rfl, rfl⟩

theorem ofGoal_eq_ok (h : ofGoal S g = .ok s) :
    ∃ first last : Action, first.WellFormed ∧ last.WellFormed ∧ first.preconditions = [] ∧
      first.effects = S.facts.toList.map Literal.pos ∧ last.preconditions = g.literals ∧
      last.effects = [] ∧ s = frame (.lifted first ⟨1⟩) (.lifted last ⟨2⟩) := by
  rw [ofGoal] at h
  split at h
  · cases h
  · next start hstart =>
    obtain ⟨first, hfirst, rfl⟩ := map_lifted_eq_ok hstart
    obtain ⟨hwell₁, rfl⟩ := Action.check_eq_ok_iff.1 hfirst
    cases hfinish : finishStep g with
    | error e =>
      rw [hfinish] at h
      cases h
    | ok finish =>
      rw [hfinish] at h
      obtain ⟨last, hlast, rfl⟩ := map_lifted_eq_ok hfinish
      obtain ⟨hwell₂, rfl⟩ := Action.check_eq_ok_iff.1 hlast
      cases h
      exact ⟨_, _, hwell₁, hwell₂, rfl, rfl, rfl, rfl, rfl⟩

theorem mem_steps_frame {start finish : Instance} :
    a ∈ (frame start finish).steps ↔ a ∈ [start, finish] :=
  SortedSet.mem_ofList

theorem mem_precedences_frame {start finish : Instance} {p : Precedence} :
    p ∈ (frame start finish).precedences ↔ p = ⟨start, finish⟩ :=
  SortedSet.mem_ofList.trans List.mem_singleton

theorem invariant_frame {start finish : Instance} (hframed : (frame start finish).Framed S g)
    (hlifted : ∀ a ∈ [start, finish], a.scope = .lifted a.scope.id)
    (hwell : ∀ a ∈ [start, finish], a.action.WellFormed)
    (hid : ∀ a ∈ [start, finish], a.scope.id.toNat < 3) (hids : start.scope.id ≠ finish.scope.id) :
    (frame start finish).Invariant S g := by
  have hne : start ≠ finish := hframed.start_ne_finish
  have hpair := mem_precedences_frame.2 (rfl : (⟨start, finish⟩ : Precedence) = ⟨start, finish⟩)
  have hstart : start ∈ (frame start finish).steps :=
    mem_steps_frame.2 (List.mem_cons_self ..)
  have hfinish : finish ∈ (frame start finish).steps :=
    mem_steps_frame.2 (List.mem_cons_of_mem _ (List.mem_singleton_self _))
  have hcases : ∀ a ∈ (frame start finish).steps, a = start ∨ a = finish := by
    intro a ha
    simpa using mem_steps_frame.1 ha
  refine
    { toFramed := hframed
      start_mem := hstart
      finish_mem := hfinish
      lifted := fun a ha => hlifted a (mem_steps_frame.1 ha)
      wellFormed_action := fun a ha => hwell a (mem_steps_frame.1 ha)
      id_lt := fun a ha => hid a (mem_steps_frame.1 ha)
      wellFormed := Bindings.wellFormed_empty
      ordered := fun k hk => absurd hk (SortedSet.not_mem_empty _)
      supported := fun k hk => absurd hk (SortedSet.not_mem_empty _)
      id_injective := ?id_injective, start_first := ?start_first, finish_last := ?finish_last
      orderly := ?orderly, required := ?required, provided := ?provided }
  case id_injective =>
    intro a ha b hb heq
    rcases hcases a ha with rfl | rfl <;> rcases hcases b hb with rfl | rfl
    · rfl
    · exact absurd heq hids
    · exact absurd heq.symm hids
    · rfl
  case start_first =>
    intro a ha hfirst
    rcases hcases a ha with rfl | rfl
    · exact absurd rfl hfirst
    · exact hpair
  case finish_last =>
    intro a ha hlast
    rcases hcases a ha with rfl | rfl
    · exact hpair
    · exact absurd rfl hlast
  case orderly =>
    intro p hp
    cases mem_precedences_frame.1 hp
    exact ⟨hstart, hfinish, hne, hne.symm, hne⟩
  case required =>
    intro o ho
    obtain ⟨l, hl, rfl⟩ := List.mem_map.1 ho
    exact ⟨hfinish, hl⟩
  case provided =>
    intro a ha l hl
    rcases hcases a ha with rfl | rfl
    · have hnone : a.action.preconditions = [] := hframed.start_preconditions
      rw [Instance.preconditions, hnone] at hl
      cases hl
    · exact .inl (List.mem_map_of_mem hl)

theorem invariant_ofGoal (h : ofGoal S g = .ok s) : s.Invariant S g := by
  obtain ⟨first, last, hwell₁, hwell₂, hnone, hfacts, hgoal, hlast, rfl⟩ := ofGoal_eq_ok h
  have hids : (⟨1⟩ : ScopeId) ≠ ⟨2⟩ := by decide
  refine invariant_frame ⟨hnone, hfacts, hgoal, hlast, ?_⟩ ?_ ?_ ?_ hids
  · exact fun heq => hids (congrArg (fun i : Instance => i.scope.id) heq)
  · simp [Instance.lifted]
  · simp [Instance.lifted, hwell₁, hwell₂]
  · simp [Instance.lifted]

end Skeleton

end LiftedPlanning
