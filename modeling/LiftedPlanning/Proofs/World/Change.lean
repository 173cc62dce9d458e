import LiftedPlanning.Proofs.World.Matching
import Mathlib.Data.List.Induction
import Mathlib.Data.List.Perm.Subperm

/-!
# What an instance changes

The effects of an instance that are ground in its scope are the ground literals that it can make
true (`Situation.changes`). A literal that is true after an execution, and is not among them, was
true before and is not undone either (`Situation.holds_before`). It follows that what becomes true
along a sequence of instances is a change of one of them, and that what is true at the end was
settled at some point from which on no instance changes it any more (`Situation.exists_settled`).
-/

namespace LiftedPlanning

/-- If each member of a list without repetitions is in one of the lists that belong to the members
of another one, there are at most as many as those lists have places. -/
theorem length_le_length_mul {α β : Type*} {as : List α} {bs : List β} {f : β → List α}
    {n : Nat} (hnodup : as.Nodup) (hmem : ∀ a ∈ as, ∃ b ∈ bs, a ∈ f b)
    (hlength : ∀ b ∈ bs, (f b).length ≤ n) : as.length ≤ bs.length * n := by
  have hsub : as ⊆ bs.flatMap f := fun a ha => List.mem_flatMap.2 (hmem a ha)
  have hplaces : ∀ {bs : List β}, (∀ b ∈ bs, (f b).length ≤ n) →
      (bs.flatMap f).length ≤ bs.length * n := by
    intro bs hbs
    induction bs with
    | nil => exact Nat.zero_le _
    | cons b bs ih =>
      obtain ⟨hb, hbs⟩ := List.forall_mem_cons.1 hbs
      rw [List.flatMap_cons, List.length_append, List.length_cons, Nat.succ_mul, Nat.add_comm]
      exact Nat.add_le_add (ih hbs) hb
  exact Nat.le_trans (hnodup.subperm hsub).length_le (hplaces hlength)

namespace Situation

variable {S : Situation} {i : Instance} {l : Literal} {is : List Instance}

theorem holds_iff : S.holds l = true ↔ (l.atom ∈ S.facts ↔ l.negated = false) := by
  rw [holds]
  cases l.negated <;> simp

/-- The ground literals that the effects of an instance can make true. -/
def changes (i : Instance) : List Literal :=
  i.action.effects.filterMap fun e =>
    (Bindings.empty.ground? i.scope e.atom).map fun a => ⟨e.negated, a⟩

theorem mem_changes :
    l ∈ changes i ↔ ∃ e ∈ i.action.effects, e.negated = l.negated ∧
      Bindings.empty.ground? i.scope e.atom = some l.atom := by
  simp only [changes, List.mem_filterMap, Option.map_eq_some_iff]
  constructor
  · rintro ⟨e, he, a, ha, rfl⟩
    exact ⟨e, he, rfl, ha⟩
  · rintro ⟨e, he, hneg, ha⟩
    refine ⟨e, he, l.atom, ha, ?_⟩
    rw [hneg]

theorem length_changes_le (i : Instance) : (changes i).length ≤ i.action.effects.length :=
  List.length_filterMap_le ..

theorem mem_groundEffects {negated : Bool} {a : Atom} :
    a ∈ groundEffects i negated ↔ ⟨negated, a⟩ ∈ changes i := by
  rw [mem_changes, groundEffects, List.mem_filterMap]
  simp only [List.mem_filter, decide_eq_true_iff, and_assoc]

theorem holds_before (h : (S.apply i).holds l = true) (hl : l ∉ changes i) :
    S.holds l = true ∧ l.negate ∉ changes i := by
  obtain ⟨negated, a⟩ := l
  rw [holds_iff, mem_facts_apply, mem_groundEffects, mem_groundEffects] at h
  rw [holds_iff]
  cases negated with
  | false =>
    rcases h.2 rfl with ⟨hbefore, hkept⟩ | hadded
    · exact ⟨iff_of_true hbefore rfl, hkept⟩
    · exact absurd hadded hl
  | true =>
    have habsent := mt h.1 Bool.noConfusion
    obtain ⟨hbefore, hadded⟩ := not_or.1 habsent
    exact ⟨iff_of_false (fun hfact => hbefore ⟨hfact, hl⟩) Bool.noConfusion, hadded⟩

def after (S : Situation) (is : List Instance) : Situation := is.foldl apply S

@[simp] theorem after_nil (S : Situation) : S.after [] = S := rfl

theorem after_concat (S : Situation) (is : List Instance) (i : Instance) :
    S.after (is ++ [i]) = (S.after is).apply i := by
  rw [after, List.foldl_append]
  rfl

theorem Ground.after (h : S.Ground) (is : List Instance) : (S.after is).Ground := by
  induction is generalizing S with
  | nil => exact h
  | cons i is ih => exact ih (h.apply i)

/-- What becomes true along a sequence of instances is a change of one of them. -/
theorem exists_mem_changes (hbefore : S.holds l = false) (hafter : (S.after is).holds l = true) :
    ∃ i ∈ is, l ∈ changes i := by
  induction is generalizing S with
  | nil =>
    rw [after_nil, hbefore] at hafter
    cases hafter
  | cons i is ih =>
    cases hi : (S.apply i).holds l with
    | false =>
      obtain ⟨j, hj, hl⟩ := ih hi hafter
      exact ⟨j, List.mem_cons_of_mem _ hj, hl⟩
    | true =>
      refine ⟨i, List.mem_cons_self .., ?_⟩
      by_contra hl
      rw [(holds_before hi hl).1] at hbefore
      cases hbefore

/-- What is true after a sequence of instances was true at the outset or is a change of one of them,
and no instance after that point changes it. -/
theorem exists_settled (hafter : (S.after is).holds l = true) :
    ∃ n ≤ is.length, (∀ q i, n ≤ q → is[q]? = some i → l.negate ∉ changes i) ∧
      ((n = 0 ∧ S.holds l = true) ∨ ∃ q i, n = q + 1 ∧ is[q]? = some i ∧ l ∈ changes i) := by
  induction is using List.reverseRecOn with
  | nil => exact ⟨0, Nat.le_refl _, by simp, .inl ⟨rfl, hafter⟩⟩
  | append_singleton is i ih =>
    rw [List.length_append, List.length_singleton]
    have hlast : (is ++ [i])[is.length]? = some i := by simp
    -- Either the last instance is the one, or nothing about the literal changed in it.
    by_cases hl : l ∈ changes i
    · refine ⟨is.length + 1, Nat.le_refl _, ?_, .inr ⟨is.length, i, rfl, hlast, hl⟩⟩
      intro q j hq hj
      have hlength : q < (is ++ [i]).length := (List.getElem?_eq_some_iff.1 hj).1
      rw [List.length_append, List.length_singleton] at hlength
      omega
    · rw [after_concat] at hafter
      obtain ⟨hbefore, hkept⟩ := holds_before hafter hl
      obtain ⟨n, hn, hrest, hsettled⟩ := ih hbefore
      refine ⟨n, Nat.le_succ_of_le hn, ?_, ?_⟩
      · intro q j hq hj
        rcases Nat.lt_or_ge q is.length with hlt | hge
        · rw [List.getElem?_append_left hlt] at hj
          exact hrest q j hq hj
        · rw [List.getElem?_append_right hge] at hj
          exact List.mem_singleton.1 (List.mem_of_getElem? hj) ▸ hkept
      · rcases hsettled with hinitial | ⟨q, j, hq, hj, hmem⟩
        · exact .inl hinitial
        · have hlt : q < is.length := (List.getElem?_eq_some_iff.1 hj).1
          exact .inr ⟨q, j, hq, by rw [List.getElem?_append_left hlt, hj], hmem⟩

/-! ## What could hold -/

variable {c : Bindings} {m : Assignment} {k : ScopedLiteral}

theorem couldHold_of_holds (hS : S.Ground) (h : c.WellFormed) (hm : m.Models c)
    (hk : S.holds (m.literal k) = true) : S.couldHold k c = true := by
  rw [holds_literal_iff] at hk
  rw [couldHold]
  split
  · next hneg =>
    have habsent := mt hk.1 (by simp [hneg])
    split
    · next a ha =>
      have hatom : (m.literal k).atom = a := Bindings.atom_eq_of_ground?_eq_some hm ha
      rw [hatom] at habsent
      exact decide_eq_true habsent
    · rfl
  · next hneg => exact (unifiable_iff hS h).2 ⟨m, hm, hk.2 (Bool.eq_false_iff.2 hneg)⟩

end Situation

end LiftedPlanning
