import LiftedPlanning.Proofs.Bindings.Model

/-!
# Separations of a binding set

After terms are made equal the separations are read anew. `Bindings.settle?` fails exactly if a term
would have to differ from itself, changes no model, and leaves a binding set that is well formed.
One that is well formed already is left as it is.
-/

namespace LiftedPlanning

namespace Separation

variable {d e : Denotation}

theorem of_eq_or (d e : Denotation) : of d e = ⟨d, e⟩ ∨ of d e = ⟨e, d⟩ := by
  rw [of]
  split
  · exact .inl rfl
  · exact .inr rfl

theorem lesser_lt_greater_of (h : d ≠ e) : compare (of d e).lesser (of d e).greater = .lt := by
  rw [of]
  cases hde : compare d e with
  | lt => exact hde
  | eq => exact absurd (Std.LawfulEqOrd.eq_of_compare hde) h
  | gt => exact Std.OrientedCmp.gt_iff_lt.1 hde

theorem of_lesser_greater {p : Separation} (h : compare p.lesser p.greater = .lt) :
    of p.lesser p.greater = p := by
  rw [of, h]
  rfl

theorem object_of_ne_iff {m : Assignment} :
    m.object (of d e).lesser ≠ m.object (of d e).greater ↔ m.object d ≠ m.object e := by
  rcases of_eq_or d e with h | h
  · rw [h]
  · rw [h]
    exact ne_comm

end Separation

namespace Bindings

variable {c c' : Bindings} {m : Assignment}

/-- The separations, read anew, without those of two objects. -/
def lasting (c : Bindings) : SortedSet Separation :=
  .ofList (((c.separations.toList.map fun p => (c.renew p.lesser, c.renew p.greater)).filter
    fun p => !(p.1.isObject && p.2.isObject)).map fun p => .of p.1 p.2)

theorem mem_lasting {q : Separation} :
    q ∈ c.lasting ↔ ∃ p ∈ c.separations, q = .of (c.renew p.lesser) (c.renew p.greater) ∧
      ((c.renew p.lesser).isObject && (c.renew p.greater).isObject) = false := by
  simp only [lasting, SortedSet.mem_ofList, List.mem_map, List.mem_filter, SortedSet.mem_toList,
    Bool.not_eq_true']
  constructor
  · rintro ⟨_, ⟨⟨p, hp, rfl⟩, hopen⟩, rfl⟩
    exact ⟨p, hp, rfl, hopen⟩
  · rintro ⟨p, hp, rfl, hopen⟩
    exact ⟨_, ⟨⟨p, hp, rfl⟩, hopen⟩, rfl⟩

/-- A binding set is settled unless a term would have to differ from itself. -/
theorem settle?_eq_some_iff :
    c.settle? = some c' ↔ (∀ p ∈ c.separations, c.renew p.lesser ≠ c.renew p.greater) ∧
      c' = { c with separations := c.lasting } := by
  have hany : ((c.separations.toList.map fun p => (c.renew p.lesser, c.renew p.greater)).any
      fun p => p.1 = p.2) = false ↔
      ∀ p ∈ c.separations, c.renew p.lesser ≠ c.renew p.greater := by
    simp [SortedSet.mem_toList]
  rw [← hany, settle?]
  split
  · next h => simp [h]
  · next h =>
    rw [Option.some.injEq, Bool.eq_false_iff]
    exact ⟨fun hc => ⟨h, hc.symm⟩, fun hc => hc.2.symm⟩

theorem Forest.wellFormed_of_settle? (h : c.Forest) (hc : c.settle? = some c') :
    c'.WellFormed := by
  obtain ⟨hne, rfl⟩ := settle?_eq_some_iff.1 hc
  -- Both sides of a lasting separation are renewed already.
  have hsides : ∀ q ∈ c.lasting, ∃ p ∈ c.separations,
      (q = ⟨c.renew p.lesser, c.renew p.greater⟩ ∨ q = ⟨c.renew p.greater, c.renew p.lesser⟩) ∧
      compare q.lesser q.greater = .lt ∧
      (q.lesser.isObject && q.greater.isObject) = false := by
    intro q hq
    obtain ⟨p, hp, rfl, hopen⟩ := mem_lasting.1 hq
    refine ⟨p, hp, Separation.of_eq_or _ _, Separation.lesser_lt_greater_of (hne p hp), ?_⟩
    rcases Separation.of_eq_or (c.renew p.lesser) (c.renew p.greater) with heq | heq
    · rw [heq]
      exact hopen
    · rw [heq, Bool.and_comm]
      exact hopen
  refine ⟨⟨h.lt_of_parent, h.parent_of_value⟩, ?_, ?_, ?_, ?_⟩
  · intro q hq
    obtain ⟨p, _, rfl | rfl, _⟩ := hsides q hq
    · exact h.renew_renew p.lesser
    · exact h.renew_renew p.greater
  · intro q hq
    obtain ⟨p, _, rfl | rfl, _⟩ := hsides q hq
    · exact h.renew_renew p.greater
    · exact h.renew_renew p.lesser
  · intro q hq
    obtain ⟨_, _, _, hlt, _⟩ := hsides q hq
    exact hlt
  · intro q hq
    obtain ⟨_, _, _, _, hopen⟩ := hsides q hq
    exact hopen

theorem models_settle? : (∃ c', c.settle? = some c' ∧ m.Models c') ↔ m.Models c := by
  constructor
  · rintro ⟨c', hc, hm⟩
    obtain ⟨hne, rfl⟩ := settle?_eq_some_iff.1 hc
    have hforest : m.Models { c with separations := .empty } :=
      ⟨hm.parents, hm.values, fun _ h => absurd h (SortedSet.not_mem_empty _)⟩
    refine ⟨hm.parents, hm.values, ?_⟩
    intro p hp
    have hp₁ : m.object (c.renew p.lesser) = m.object p.lesser := hforest.object_renew _
    have hp₂ : m.object (c.renew p.greater) = m.object p.greater := hforest.object_renew _
    rw [← hp₁, ← hp₂]
    cases hopen : (c.renew p.lesser).isObject && (c.renew p.greater).isObject with
    | false =>
      exact Separation.object_of_ne_iff.1 (hm.separations _ (mem_lasting.2 ⟨p, hp, rfl, hopen⟩))
    | true =>
      -- Two objects are dropped; they differ as they stand.
      have hdiffer := hne p hp
      cases hd : c.renew p.lesser with
      | unbound v => simp [hd, Denotation.isObject] at hopen
      | object a =>
        cases he : c.renew p.greater with
        | unbound v => simp [he, Denotation.isObject] at hopen
        | object b =>
          rw [hd, he] at hdiffer
          exact fun hab => hdiffer (congrArg Denotation.object hab)
  · intro hm
    have hne : ∀ p ∈ c.separations, c.renew p.lesser ≠ c.renew p.greater := by
      intro p hp heq
      refine hm.separations p hp ?_
      rw [← hm.object_renew, heq, hm.object_renew]
    refine ⟨_, settle?_eq_some_iff.2 ⟨hne, rfl⟩, hm.parents, hm.values, ?_⟩
    intro q hq
    obtain ⟨p, hp, rfl, _⟩ := mem_lasting.1 hq
    rw [Separation.object_of_ne_iff, hm.object_renew, hm.object_renew]
    exact hm.separations p hp

theorem models_bind_settle? {b : Option Bindings} :
    (∃ c', b.bind settle? = some c' ∧ m.Models c') ↔ ∃ c, b = some c ∧ m.Models c := by
  simp only [Option.bind_eq_some_iff]
  constructor
  · rintro ⟨c', ⟨c, hb, hc⟩, hm⟩
    exact ⟨c, hb, models_settle?.1 ⟨c', hc, hm⟩⟩
  · rintro ⟨c, hb, hm⟩
    obtain ⟨c', hc, hm⟩ := models_settle?.2 hm
    exact ⟨c', ⟨c, hb, hc⟩, hm⟩

theorem WellFormed.settle?_eq_some (h : c.WellFormed) : c.settle? = some c := by
  refine settle?_eq_some_iff.2 ⟨?_, ?_⟩
  · intro p hp heq
    rw [h.renew_lesser p hp, h.renew_greater p hp] at heq
    exact h.lesser_ne_greater hp heq
  · have hlasting : c.lasting = c.separations := by
      refine SortedSet.ext fun q => ?_
      rw [mem_lasting]
      constructor
      · rintro ⟨p, hp, rfl, _⟩
        rw [h.renew_lesser p hp, h.renew_greater p hp,
          Separation.of_lesser_greater (h.lesser_lt_greater p hp)]
        exact hp
      · intro hq
        refine ⟨q, hq, ?_, ?_⟩
        · rw [h.renew_lesser q hq, h.renew_greater q hq,
            Separation.of_lesser_greater (h.lesser_lt_greater q hq)]
        · rw [h.renew_lesser q hq, h.renew_greater q hq]
          exact h.isObject_eq_false q hq
    rw [hlasting]

end Bindings

end LiftedPlanning
