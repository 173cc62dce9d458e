/-!
# Sorted maps

`SortedMap κ β` is a finite map, kept as its list of entries with strictly ascending keys. As for
sorted sets, equal maps are equal values, whatever the order of the insertions.
-/

namespace LiftedPlanning

universe u v

/-- A finite map, as the list of its entries with strictly ascending keys. -/
structure SortedMap (κ : Type u) (β : Type v) [Ord κ] where
  toList : List (κ × β)
  ascending : toList.Pairwise fun e f => compare e.1 f.1 = .lt

namespace SortedMap

variable {κ : Type u} {β : Type v} [Ord κ]

theorem toList_injective {m n : SortedMap κ β} (h : m.toList = n.toList) : m = n := by
  cases m
  cases n
  cases h
  rfl

instance [DecidableEq κ] [DecidableEq β] : DecidableEq (SortedMap κ β) := fun m n =>
  decidable_of_iff (m.toList = n.toList) ⟨toList_injective, fun h => h ▸ rfl⟩

instance [Hashable κ] [Hashable β] : Hashable (SortedMap κ β) where
  hash m := hash m.toList

def empty : SortedMap κ β := ⟨[], .nil⟩

instance : Inhabited (SortedMap κ β) := ⟨empty⟩

@[simp] theorem toList_empty : (empty : SortedMap κ β).toList = [] := rfl

def size (m : SortedMap κ β) : Nat := m.toList.length

def isEmpty (m : SortedMap κ β) : Bool := m.toList.isEmpty

def lookup (k : κ) : List (κ × β) → Option β
  | [] => none
  | e :: es => if compare k e.1 = .eq then some e.2 else lookup k es

def get? (m : SortedMap κ β) (k : κ) : Option β := lookup k m.toList

@[simp] theorem get?_empty (k : κ) : (empty : SortedMap κ β).get? k = none := rfl

/-- Puts an entry at its place in a list of entries; it replaces the entry of the same key. -/
def place (k : κ) (x : β) : List (κ × β) → List (κ × β)
  | [] => [(k, x)]
  | e :: es =>
    match compare k e.1 with
    | .lt => (k, x) :: e :: es
    | .eq => (k, x) :: es
    | .gt => e :: place k x es

theorem key_of_mem_place {k : κ} {x : β} {es : List (κ × β)} {e : κ × β}
    (h : e ∈ place k x es) : e = (k, x) ∨ e ∈ es := by
  induction es with
  | nil => exact .inl (List.mem_singleton.1 h)
  | cons f fs ih =>
    rw [place] at h
    split at h
    · exact List.mem_cons.1 h
    · exact (List.mem_cons.1 h).imp_right (List.mem_cons_of_mem _)
    · rcases List.mem_cons.1 h with rfl | h
      · exact .inr (List.mem_cons_self ..)
      · exact (ih h).imp_right (List.mem_cons_of_mem _)

section Lawful

variable [Std.LawfulEqOrd κ]

theorem lookup_place (k l : κ) (x : β) (es : List (κ × β)) :
    lookup l (place k x es) = if compare l k = .eq then some x else lookup l es := by
  induction es with
  | nil => rfl
  | cons e es ih =>
    rw [place]
    split
    · rfl
    · next h =>
      have hk : k = e.1 := Std.LawfulEqOrd.eq_of_compare h
      by_cases hl : compare l k = .eq
      · simp [lookup, hl]
      · simp [lookup, hl, ← hk]
    · next h =>
      rw [lookup, ih, lookup]
      by_cases hl : compare l e.1 = .eq
      · by_cases hk : compare l k = .eq
        · cases Std.LawfulEqOrd.eq_of_compare hl
          cases Std.LawfulEqOrd.eq_of_compare hk
          rw [hl] at h
          cases h
        · simp [hl, hk]
      · simp [hl]

theorem get?_eq_some_iff (m : SortedMap κ β) (k : κ) (x : β) :
    m.get? k = some x ↔ (k, x) ∈ m.toList := by
  obtain ⟨es, hes⟩ := m
  change lookup k es = some x ↔ (k, x) ∈ es
  induction hes with
  | nil => simp [lookup]
  | @cons e es he _ ih =>
    rw [lookup, List.mem_cons, ← ih]
    by_cases hk : compare k e.1 = .eq
    · cases Std.LawfulEqOrd.eq_of_compare hk
      rw [if_pos hk, Option.some_inj]
      constructor
      · rintro rfl
        exact .inl rfl
      · rintro (h | h)
        · exact congrArg Prod.snd h.symm
        · have hlt := he _ (ih.1 h)
          rw [Std.ReflOrd.compare_self] at hlt
          cases hlt
    · rw [if_neg hk]
      constructor
      · exact .inr
      · rintro (rfl | h)
        · exact absurd Std.ReflOrd.compare_self hk
        · exact h

theorem nodup_keys (m : SortedMap κ β) : (m.toList.map Prod.fst).Nodup := by
  refine List.pairwise_map.2 (m.ascending.imp fun hlt heq => ?_)
  rw [heq, Std.ReflOrd.compare_self] at hlt
  cases hlt

variable [Std.TransOrd κ]

theorem place_ascending (k : κ) (x : β) {es : List (κ × β)}
    (h : es.Pairwise fun e f => compare e.1 f.1 = .lt) :
    (place k x es).Pairwise fun e f => compare e.1 f.1 = .lt := by
  induction h with
  | nil => exact List.pairwise_singleton _ _
  | @cons e es he hes ih =>
    rw [place]
    split
    · next hk =>
      refine .cons (fun f hf => ?_) (.cons he hes)
      rcases List.mem_cons.1 hf with rfl | hf
      · exact hk
      · exact Std.TransCmp.lt_trans hk (he f hf)
    · next hk =>
      refine .cons (fun f hf => ?_) hes
      cases Std.LawfulEqOrd.eq_of_compare hk
      exact he f hf
    · next hk =>
      refine .cons (fun f hf => ?_) ih
      rcases key_of_mem_place hf with rfl | hf
      · exact Std.OrientedCmp.gt_iff_lt.1 hk
      · exact he f hf

def insert (m : SortedMap κ β) (k : κ) (x : β) : SortedMap κ β :=
  ⟨place k x m.toList, place_ascending k x m.ascending⟩

theorem get?_insert [DecidableEq κ] (m : SortedMap κ β) (k l : κ) (x : β) :
    (m.insert k x).get? l = if l = k then some x else m.get? l := by
  rw [get?, insert, lookup_place]
  simp [get?]

@[simp] theorem get?_insert_self (m : SortedMap κ β) (k : κ) (x : β) :
    (m.insert k x).get? k = some x := by
  rw [get?, insert, lookup_place]
  simp

/-- The map of a list of entries; of two entries with one key the later one counts. -/
def ofList (es : List (κ × β)) : SortedMap κ β :=
  es.foldl (fun m e => m.insert e.1 e.2) empty

theorem mem_of_get?_foldl_insert [DecidableEq κ] {es : List (κ × β)} {m : SortedMap κ β} {k : κ}
    {x : β} (h : (es.foldl (fun m e => m.insert e.1 e.2) m).get? k = some x) :
    (k, x) ∈ es ∨ m.get? k = some x := by
  induction es generalizing m with
  | nil => exact .inr h
  | cons e es ih =>
    rcases ih h with hmem | hget
    · exact .inl (List.mem_cons_of_mem _ hmem)
    · rw [get?_insert] at hget
      split at hget
      · next hk =>
        cases hget
        exact .inl (hk ▸ List.mem_cons_self ..)
      · exact .inr hget

theorem mem_of_get?_ofList [DecidableEq κ] {es : List (κ × β)} {k : κ} {x : β}
    (h : (ofList es).get? k = some x) : (k, x) ∈ es := by
  rcases mem_of_get?_foldl_insert h with hmem | hget
  · exact hmem
  · cases hget

theorem isSome_get?_foldl_insert [DecidableEq κ] {es : List (κ × β)} {m : SortedMap κ β} {k : κ}
    (h : (m.get? k).isSome = true ∨ ∃ x, (k, x) ∈ es) :
    ((es.foldl (fun m e => m.insert e.1 e.2) m).get? k).isSome = true := by
  induction es generalizing m with
  | nil => simpa using h
  | cons e es ih =>
    refine ih ?_
    by_cases hk : k = e.1
    · refine .inl ?_
      rw [get?_insert, if_pos hk]
      rfl
    · rw [get?_insert, if_neg hk]
      refine h.imp_right ?_
      rintro ⟨x, hx⟩
      rcases List.mem_cons.1 hx with rfl | hx
      · exact absurd rfl hk
      · exact ⟨x, hx⟩

theorem isSome_get?_ofList [DecidableEq κ] {es : List (κ × β)} {k : κ} {x : β}
    (h : (k, x) ∈ es) : ((ofList es).get? k).isSome = true :=
  isSome_get?_foldl_insert (.inr ⟨x, h⟩)

theorem get?_ofList_eq_some [DecidableEq κ] {es : List (κ × β)} {k : κ} {x : β}
    (hx : (k, x) ∈ es) (hunique : ∀ y, (k, y) ∈ es → y = x) : (ofList es).get? k = some x := by
  obtain ⟨y, hy⟩ := Option.isSome_iff_exists.1 (isSome_get?_ofList hx)
  rw [hy, hunique y (mem_of_get?_ofList hy)]

theorem ext {m n : SortedMap κ β} (h : ∀ k, m.get? k = n.get? k) : m = n := by
  have hnodup : ∀ m : SortedMap κ β, m.toList.Nodup := fun m =>
    (List.pairwise_map.1 m.nodup_keys).imp fun hne heq => hne (congrArg Prod.fst heq)
  have hentries : ∀ e, e ∈ m.toList ↔ e ∈ n.toList := fun e => by
    rw [← get?_eq_some_iff m, ← get?_eq_some_iff n, h]
  refine toList_injective (List.Perm.eq_of_pairwise (fun e f _ _ hef hfe => ?_) m.ascending
    n.ascending ((List.perm_ext_iff_of_nodup (hnodup m) (hnodup n)).2 hentries))
  rw [Std.OrientedCmp.gt_iff_lt.2 hef] at hfe
  cases hfe

end Lawful

/-- Entries in the order of their keys, those with one key in the order of their values. -/
def compareEntries [Ord β] : κ × β → κ × β → Ordering :=
  compareLex (compareOn Prod.fst) (compareOn Prod.snd)

instance [Std.TransOrd κ] [Ord β] [Std.TransOrd β] :
    Std.TransCmp (@compareEntries κ β _ _) :=
  inferInstanceAs (Std.TransCmp (compareLex (compareOn Prod.fst) (compareOn Prod.snd)))

instance [Std.LawfulEqOrd κ] [Ord β] [Std.LawfulEqOrd β] :
    Std.LawfulEqCmp (@compareEntries κ β _ _) where
  compare_self := by simp [compareEntries, compareLex, compareOn]
  eq_of_compare h := by
    have h := Ordering.then_eq_eq.1 h
    exact Prod.ext (Std.LawfulEqOrd.eq_of_compare h.1) (Std.LawfulEqOrd.eq_of_compare h.2)

instance [Ord β] : Ord (SortedMap κ β) where
  compare m n := List.compareLex compareEntries m.toList n.toList

instance [Std.TransOrd κ] [Ord β] [Std.TransOrd β] : Std.TransOrd (SortedMap κ β) :=
  have lists : Std.TransCmp (List.compareLex (@compareEntries κ β _ _)) := inferInstance
  { eq_swap := lists.eq_swap, isLE_trans := lists.isLE_trans }

instance [Std.LawfulEqOrd κ] [Ord β] [Std.LawfulEqOrd β] : Std.LawfulEqOrd (SortedMap κ β) :=
  have lists : Std.LawfulEqCmp (List.compareLex (@compareEntries κ β _ _)) := inferInstance
  { compare_self := lists.compare_self
    eq_of_compare := fun h => toList_injective (lists.eq_of_compare h) }

end SortedMap

end LiftedPlanning
