import Mathlib.Data.List.Sections
import Mathlib.Data.Set.Finite.Powerset
import LiftedPlanning.Proofs.Planning.ForwardRun
import LiftedPlanning.Proofs.Search.Termination

/-!
# Forward search ends

Executing an instance adds facts over objects of the situation and of the effects only. So all facts
that can ever hold are among finitely many (`PlanningProblem.possibleFacts`), finitely many
situations can be reached, and forward search ends (`PlanningProblem.exists_solve_forward`).
-/

namespace LiftedPlanning

theorem mem_sections_replicate {α : Type*} {names objects : List α} {n : Nat} :
    names ∈ (List.replicate n objects).sections ↔
      names.length = n ∧ ∀ o ∈ names, o ∈ objects := by
  rw [List.mem_sections]
  induction n generalizing names with
  | zero => cases names <;> simp
  | succ n ih =>
    cases names with
    | nil => simp [List.replicate_succ]
    | cons name names =>
      rw [List.replicate_succ, List.forall₂_cons, ih, List.length_cons, Nat.succ_inj,
        List.forall_mem_cons, and_left_comm]

namespace Situation

variable {S : Situation} {i : Instance} {a : Atom} {negated : Bool}

theorem exists_effect_of_mem_groundEffects (hwell : i.action.WellFormed) (hover : S.OverObjects i)
    (ha : a ∈ groundEffects i negated) :
    ∃ e ∈ i.action.effects, ∃ names : List String, names.length = e.atom.arity ∧
      a = ⟨e.atom.name, names.map Term.const⟩ ∧
        ∀ o ∈ names, o ∈ S.objects ∨ o ∈ e.atom.objects := by
  obtain ⟨e, he, hground⟩ := mem_changes.1 (mem_groundEffects.1 ha)
  obtain ⟨names, hargs, hatom⟩ := Bindings.ground?_eq_some_iff.1 hground.2
  refine ⟨e, he, names, ?_, hatom, fun o ho => ?_⟩
  · have hlength := congrArg List.length hargs
    rw [List.length_map, List.length_map] at hlength
    exact hlength.symm
  · have hmem : Denotation.object o ∈ e.atom.args.map (Bindings.empty.denote i.scope) :=
      hargs ▸ List.mem_map_of_mem ho
    obtain ⟨x, hx, hdenote⟩ := List.mem_map.1 hmem
    -- An argument of the effect is an object, or a parameter that stands for one.
    cases x with
    | const name =>
      cases hdenote
      exact .inr (Atom.mem_objects.2 hx)
    | var name =>
      have hname := hwell.mem_parameters e (List.mem_append_right _ he) name (Atom.mem_vars.2 hx)
      obtain ⟨o', ho', hvalue⟩ := hover name hname
      rw [Bindings.denote, hvalue] at hdenote
      cases hdenote
      exact .inl ho'

end Situation

namespace PlanningProblem

variable {p : PlanningProblem} {S : Situation} {a : Atom}

def knownObjects (p : PlanningProblem) : List String :=
  p.initial.objects.toList ++ p.actions.flatMap fun a => a.effects.flatMap fun e => e.atom.objects

/-- The initial facts, and the instances of the atoms of effects over the known objects. -/
def possibleFacts (p : PlanningProblem) : List Atom :=
  p.initial.facts.toList ++ p.actions.flatMap fun a => a.effects.flatMap fun e =>
    (List.replicate e.atom.arity p.knownObjects).sections.map fun names =>
      ⟨e.atom.name, names.map Term.const⟩

theorem mem_possibleFacts :
    a ∈ p.possibleFacts ↔ a ∈ p.initial.facts ∨ ∃ action ∈ p.actions, ∃ e ∈ action.effects,
      ∃ names : List String, names.length = e.atom.arity ∧ (∀ o ∈ names, o ∈ p.knownObjects) ∧
        a = ⟨e.atom.name, names.map Term.const⟩ := by
  simp only [possibleFacts, List.mem_append, SortedSet.mem_toList, List.mem_flatMap, List.mem_map,
    mem_sections_replicate, and_assoc, eq_comm (a := a)]

theorem mem_knownObjects_of_effect {action : Action} {e : Literal} {o : String}
    (haction : action ∈ p.actions) (he : e ∈ action.effects) (ho : o ∈ e.atom.objects) :
    o ∈ p.knownObjects :=
  List.mem_append_right _
    (List.mem_flatMap.2 ⟨action, haction, List.mem_flatMap.2 ⟨e, he, ho⟩⟩)

theorem mem_knownObjects_of_possibleFact {o : String} (ha : a ∈ p.possibleFacts)
    (ho : o ∈ a.objects) : o ∈ p.knownObjects := by
  rcases mem_possibleFacts.1 ha with ha | ⟨action, _, e, _, names, _, hnames, rfl⟩
  · exact List.mem_append_left _ (SortedSet.mem_toList.2 (Situation.mem_objects ha ho))
  · obtain ⟨name, hname, heq⟩ := List.mem_map.1 (Atom.mem_objects.1 ho)
    cases heq
    exact hnames o hname

/-- All facts of a situation are possible. -/
def Possible (p : PlanningProblem) (S : Situation) : Prop := ∀ a ∈ S.facts, a ∈ p.possibleFacts

theorem Possible.objects (h : p.Possible S) {o : String} (ho : o ∈ S.objects) :
    o ∈ p.knownObjects := by
  obtain ⟨a, ha, ho⟩ := List.mem_flatMap.1 (SortedSet.mem_ofList.1 ho)
  exact mem_knownObjects_of_possibleFact (h a (SortedSet.mem_toList.1 ha)) ho

theorem Possible.apply {i : Instance} (h : p.Possible S) (hwell : i.action.WellFormed)
    (hi : p.Admits S i) : p.Possible (S.apply i) := by
  intro a ha
  rcases Situation.mem_facts_apply.1 ha with ⟨ha, _⟩ | ha
  · exact h a ha
  · obtain ⟨e, he, names, hlength, hatom, hnames⟩ :=
      Situation.exists_effect_of_mem_groundEffects hwell hi.overObjects ha
    refine mem_possibleFacts.2 (.inr ⟨_, hi.action_mem, e, he, names, hlength, ?_, hatom⟩)
    intro o ho
    rcases hnames o ho with hobject | heffect
    · exact h.objects hobject
    · exact mem_knownObjects_of_effect hi.action_mem he heffect

theorem possible_of_reachable (hinitial : p.initial.Ground)
    (hactions : ∀ a ∈ p.actions, a.WellFormed) (hS : p.forward.Reachable S) : p.Possible S := by
  induction hS with
  | initial => exact fun a ha => mem_possibleFacts.2 (.inl ha)
  | @apply S i hreached hoffered ih =>
    have hadmits :=
      admits_of_mem_executable hactions (ground_of_reachable hinitial hreached) hoffered
    exact ih.apply (hactions _ hadmits.action_mem) hadmits

/-- Finitely many situations have possible facts only. -/
theorem finite_possible (p : PlanningProblem) : {S | p.Possible S}.Finite := by
  have hsubsets : {facts : Set Atom | facts ⊆ {a | a ∈ p.possibleFacts}}.Finite :=
    (List.finite_toSet p.possibleFacts).finite_subsets
  let facts : Situation → Set Atom := fun S => {a | a ∈ S.facts}
  have hmaps : Set.MapsTo facts {S | p.Possible S} {facts | facts ⊆ {a | a ∈ p.possibleFacts}} :=
    fun S hS => hS
  refine Set.Finite.of_injOn hmaps ?_ hsubsets
  intro S _ T _ heq
  exact congrArg Situation.mk (SortedSet.ext fun a => Set.ext_iff.1 heq a)

/-- Forward search ends, under every estimate and tie break, and whatever budget it is given or
whenever it is cancelled. If there is neither a budget nor a cancellation, it ends with an
outcome. -/
theorem exists_solve_forward (hinitial : p.initial.Ground)
    (hactions : ∀ a ∈ p.actions, a.WellFormed) (settings : SearchSettings)
    (cancelled : Nat → Bool) :
    ∃ fuel result,
      (∀ more, fuel ≤ more → p.solve .forward settings cancelled more = some result) ∧
      (settings.maxExpansions = none → (∀ n, cancelled n = false) →
        ∃ solution, result = .ok solution) := by
  have hfinite : {S | p.forward.Reachable S}.Finite :=
    p.finite_possible.subset fun S hS => possible_of_reachable hinitial hactions hS
  obtain ⟨fuel, report, hsolve⟩ := Search.exists_solve_eq_some hfinite settings cancelled
  cases hresult : report.result with
  | error e =>
    refine ⟨fuel, .error (.search e), fun more hmore => ?_, fun hbudget hcancelled => ?_⟩
    · rw [solve, solveIn_eq, hsolve more hmore, Option.map_some, hresult]
    · obtain ⟨outcome, houtcome⟩ :=
        Search.exists_outcome_of_solve hbudget hcancelled (hsolve fuel le_rfl)
      rw [hresult] at houtcome
      cases houtcome
  | ok outcome =>
    refine ⟨fuel, .ok ⟨outcome.mapPlan p.planForward, report.stats⟩, fun more hmore => ?_,
      fun _ _ => ⟨_, rfl⟩⟩
    rw [solve, solveIn_eq, hsolve more hmore, Option.map_some, hresult]

/-- A lamp can be switched on and off for ever, and never breaks. -/
def switching : PlanningProblem where
  initial := .ofAtoms [⟨"dark", [.const "A"]⟩]
  actions := [
    ⟨"on", ["x"], [.pos ⟨"dark", [.var "x"]⟩],
      [.neg ⟨"dark", [.var "x"]⟩, .pos ⟨"lit", [.var "x"]⟩]⟩,
    ⟨"off", ["x"], [.pos ⟨"lit", [.var "x"]⟩],
      [.neg ⟨"lit", [.var "x"]⟩, .pos ⟨"dark", [.var "x"]⟩]⟩]
  goal := ⟨[.pos ⟨"broken", [.var "y"]⟩]⟩
  rules := []
  heuristic := .goalCount

theorem exists_solve_switching :
    ∃ fuel solution, ∀ more, fuel ≤ more →
      switching.solve .forward .default (fun _ => false) more = some (.ok solution) := by
  obtain ⟨fuel, result, hsolve, houtcome⟩ :=
    exists_solve_forward (p := switching) (Situation.ground_ofAtoms _) (by decide) .default
      fun _ => false
  obtain ⟨solution, rfl⟩ := houtcome rfl fun _ => rfl
  exact ⟨fuel, solution, hsolve⟩

end PlanningProblem

end LiftedPlanning
