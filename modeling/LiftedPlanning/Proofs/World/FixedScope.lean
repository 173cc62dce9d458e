import LiftedPlanning.Domain
import LiftedPlanning.Proofs.Bindings.Request
import LiftedPlanning.Proofs.Bindings.Value
import LiftedPlanning.Proofs.World.Reading

/-!
# Literals in the scope of a grounded instance

A plan reads the literals of an instance under a binding set, in the scope of the instance. When the
instance is executed, the binding set is gone and only the scope is left, in which grounding has
fixed the values of the parameters. The two readings agree on all literals of a schema that was
accepted, because such a schema has no variables besides its parameters
(`Instance.ground?_ground_eq`). If moreover all parameters have values, every literal is ground:
executing the instance makes all its effects happen, and whether it is applicable depends on the
facts alone (`Instance.grounded_readings_and_execution`).
-/

namespace LiftedPlanning

theorem Action.wellFormed_of_ofParts {name : String} {declared : List String}
    {preconditions effects : List Literal} {a : Action}
    (h : ofParts name declared preconditions effects = .ok a) : a.WellFormed := by
  obtain ⟨hwell, rfl⟩ := check_eq_ok_iff.1 h
  exact hwell

theorem Atom.isGround_instantiate {ν : String → String} {a : Atom} :
    (a.instantiate ν).isGround = true := by
  rw [isGround_iff]
  intro x hx
  obtain ⟨y, _, rfl⟩ := List.mem_map.1 hx
  rfl

/-! ## Two readings of one atom -/

namespace Bindings

variable {c d : Bindings} {s t : Scope} {a : Atom}

theorem value?_empty (s : Scope) (x : String) : empty.value? s x = s.value? x := by
  rw [value?, denote]
  cases s.value? x <;> rfl

theorem ground?_congr (h : ∀ x ∈ a.vars, c.value? s x = d.value? t x) :
    c.ground? s a = d.ground? t a := by
  have hargs : ∀ x ∈ a.args, (c.denote s x).object? = (d.denote t x).object? := by
    intro x hx
    cases x with
    | const name => rfl
    | var name => exact h name (Atom.mem_vars.2 hx)
  have hmap (c : Bindings) (s : Scope) : (a.args.mapM fun x => (c.denote s x).object?) =
      (a.args.map fun x => (c.denote s x).object?).mapM id := by
    rw [List.mapM_map]
    rfl
  rw [ground?, ground?, hmap, hmap, List.map_congr_left hargs]

end Bindings

namespace Instance

variable {c : Bindings} {i : Instance} {l : Literal}

theorem ground?_ground_eq (hwell : i.action.WellFormed) (hl : l ∈ i.action.literals) :
    Bindings.empty.ground? (i.ground c).scope l.atom = c.ground? i.scope l.atom := by
  refine Bindings.ground?_congr fun x hx => ?_
  rw [Bindings.value?_empty, scope_value?_ground (hwell.mem_parameters l hl x hx)]

/-! ## Instances whose scope fixes all parameters -/

theorem ground?_of_isGround (hwell : i.action.WellFormed) (hground : i.isGround = true)
    (hl : l ∈ i.action.literals) :
    Bindings.empty.ground? i.scope l.atom = some (l.atom.instantiate i.values) := by
  rw [(Assignment.reads_extend default .goal hground).ground? hwell hl, Option.some.injEq]
  refine Atom.instantiate_eq_iff_vars.2 fun x _ => ?_
  exact Assignment.term_extend default .goal i.values x

theorem changes_of_isGround (hwell : i.action.WellFormed) (hground : i.isGround = true) :
    Situation.changes i = i.action.effects.map (Literal.instantiate i.values) := by
  rw [Situation.changes, ← List.filterMap_eq_map]
  refine List.filterMap_congr fun e he => ?_
  rw [ground?_of_isGround hwell hground (List.mem_append_right _ he)]
  rfl

theorem applicable_iff_of_isGround {S : Situation} (hwell : i.action.WellFormed)
    (hground : i.isGround = true) :
    S.applicable i = true ↔
      ∀ l ∈ i.action.preconditions, S.holds (l.instantiate i.values) = true := by
  rw [Situation.applicable, List.all_eq_true]
  refine forall₂_congr fun l hl => ?_
  rw [ground?_of_isGround hwell hground (List.mem_append_left _ hl)]
  rfl

/-- In the scope of a grounded instance of an accepted schema, where nothing else is known, each
literal is ground or not, and to the same fact, as it was under the bindings in the instance's own
scope. If the grounded instance is ground, then so are all literals: each effect adds or deletes a
fact, where additions come last, and whether the instance is applicable can be read off the facts.
Neither the instance's own scope nor the bindings are restricted. -/
theorem grounded_readings_and_execution {name : String} {declared : List String}
    {preconditions effects : List Literal}
    (ha : Action.ofParts name declared preconditions effects = .ok i.action) (c : Bindings) :
    (∀ l ∈ i.action.literals,
      Bindings.empty.ground? (i.ground c).scope l.atom = c.ground? i.scope l.atom) ∧
    ((i.ground c).isGround = true →
      let ν := (i.ground c).values
      (∀ l ∈ i.action.literals, (l.atom.instantiate ν).isGround = true ∧
        Bindings.empty.ground? (i.ground c).scope l.atom = some (l.atom.instantiate ν)) ∧
      ∀ S : Situation,
        (∀ b, b ∈ (S.apply (i.ground c)).facts ↔
          (b ∈ S.facts ∧ ∀ e ∈ i.action.effects, e.negated = true → e.atom.instantiate ν ≠ b) ∨
            ∃ e ∈ i.action.effects, e.negated = false ∧ e.atom.instantiate ν = b) ∧
        (S.applicable (i.ground c) = true ↔ ∀ l ∈ i.action.preconditions,
          (l.atom.instantiate ν ∈ S.facts ↔ l.negated = false))) := by
  have hwell := Action.wellFormed_of_ofParts ha
  have hwell' : (i.ground c).action.WellFormed := hwell
  refine ⟨fun l hl => ground?_ground_eq hwell hl, fun hground => ?_⟩
  refine ⟨fun l hl => ?_, fun S => ⟨?_, ?_⟩⟩
  · exact ⟨Atom.isGround_instantiate, ground?_of_isGround hwell' hground hl⟩
  · intro b
    -- All effects are ground, so each of them is a change.
    have heffect : ∀ negated : Bool, ⟨negated, b⟩ ∈ Situation.changes (i.ground c) ↔
        ∃ e ∈ i.action.effects,
          e.negated = negated ∧ e.atom.instantiate (i.ground c).values = b := by
      intro negated
      rw [changes_of_isGround hwell' hground, List.mem_map]
      refine exists_congr fun e => and_congr_right fun _ => ?_
      rw [Literal.instantiate, Literal.mk.injEq]
    rw [Situation.mem_facts_apply, Situation.mem_groundEffects, Situation.mem_groundEffects,
      heffect, heffect]
    simp only [not_exists, not_and, ne_eq]
  · rw [applicable_iff_of_isGround hwell' hground]
    simp only [Situation.holds_iff]
    rfl

def stacking : Instance := .lifted Blocks.stack ⟨1⟩

def held : Bindings := (Request.bind ⟨⟨1⟩, "x"⟩ "A").after .empty

def placed : Bindings :=
  (Request.unify stacking.scope (Blocks.on (.var "x") (.var "y")) .facts
    (Blocks.on (.const "A") (.const "B"))).after held

/-- While one of the blocks is open, so is the effect of stacking in both scopes. When both are
known, stacking can be executed where the facts allow it, and adds what the plan expects. -/
theorem grounded_readings_stacking :
    Action.ofParts "stack" ["?x", " y "] Blocks.stack.preconditions Blocks.stack.effects =
        .ok stacking.action ∧
      Bindings.empty.ground? (stacking.ground held).scope (Blocks.on (.var "x") (.var "y")) = none ∧
      (stacking.ground placed).isGround = true ∧
      let S := Situation.ofAtoms [Blocks.holding (.const "A"), Blocks.clear (.const "B")]
      S.applicable (stacking.ground placed) = true ∧
        Blocks.on (.const "A") (.const "B") ∈ (S.apply (stacking.ground placed)).facts := by
  have haccepted : Action.ofParts "stack" ["?x", " y "] Blocks.stack.preconditions
      Blocks.stack.effects = .ok stacking.action := by decide
  have hground : (stacking.ground placed).isGround = true := by decide
  have hon : Literal.pos (Blocks.on (.var "x") (.var "y")) ∈ stacking.action.literals := by decide
  obtain ⟨hopen, _⟩ := grounded_readings_and_execution haccepted held
  obtain ⟨_, hrun⟩ := grounded_readings_and_execution haccepted placed
  obtain ⟨hfacts, happlicable⟩ :=
    (hrun hground).2 (.ofAtoms [Blocks.holding (.const "A"), Blocks.clear (.const "B")])
  refine ⟨haccepted, (hopen _ hon).trans (by decide), hground, happlicable.2 (by decide), ?_⟩
  exact (hfacts _).2 (.inr ⟨.pos (Blocks.on (.var "x") (.var "y")), by decide, rfl, by decide⟩)

end Instance

end LiftedPlanning
