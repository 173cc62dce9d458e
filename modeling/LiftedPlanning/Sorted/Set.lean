/-!
# Sorted sets

`SortedSet α` is a finite set, kept as the strictly ascending list of its members. A strictly
ascending list is determined by its members, so two sets with the same members are the same value
(`SortedSet.ext`) whatever the order of the insertions. Planning states hold their facts, atoms,
steps and links in this form, and can therefore be compared and hashed as they are.
-/

namespace LiftedPlanning

universe u

/-- A finite set, as the strictly ascending list of its members. -/
structure SortedSet (α : Type u) [Ord α] where
  toList : List α
  ascending : toList.Pairwise fun a b => compare a b = .lt

namespace SortedSet

variable {α : Type u} [Ord α]

instance : Membership α (SortedSet α) where
  mem s a := a ∈ s.toList

theorem mem_toList {s : SortedSet α} {a : α} : a ∈ s.toList ↔ a ∈ s := Iff.rfl

instance [DecidableEq α] (a : α) (s : SortedSet α) : Decidable (a ∈ s) :=
  inferInstanceAs (Decidable (a ∈ s.toList))

theorem toList_injective {s t : SortedSet α} (h : s.toList = t.toList) : s = t := by
  cases s
  cases t
  cases h
  rfl

instance [DecidableEq α] : DecidableEq (SortedSet α) := fun s t =>
  decidable_of_iff (s.toList = t.toList) ⟨toList_injective, fun h => h ▸ rfl⟩

instance [Hashable α] : Hashable (SortedSet α) where
  hash s := hash s.toList

def empty : SortedSet α := ⟨[], .nil⟩

instance : Inhabited (SortedSet α) := ⟨empty⟩

@[simp] theorem toList_empty : (empty : SortedSet α).toList = [] := rfl

@[simp] theorem not_mem_empty (a : α) : a ∉ (empty : SortedSet α) := by
  simp [← mem_toList]

def size (s : SortedSet α) : Nat := s.toList.length

def isEmpty (s : SortedSet α) : Bool := s.toList.isEmpty

/-- Puts `a` at its place in an ascending list; a member that is already there stays. -/
def place (a : α) : List α → List α
  | [] => [a]
  | b :: bs =>
    match compare a b with
    | .lt => a :: b :: bs
    | .eq => b :: bs
    | .gt => b :: place a bs

theorem mem_place [Std.LawfulEqOrd α] {a b : α} {bs : List α} :
    b ∈ place a bs ↔ b = a ∨ b ∈ bs := by
  induction bs with
  | nil => simp [place]
  | cons c cs ih =>
    rw [place]
    split
    · simp
    · next h =>
      cases Std.LawfulEqOrd.eq_of_compare h
      simp
    · simp only [List.mem_cons, ih]
      exact or_left_comm

theorem place_ascending [Std.TransOrd α] [Std.LawfulEqOrd α] (a : α) {bs : List α}
    (h : bs.Pairwise fun x y => compare x y = .lt) :
    (place a bs).Pairwise fun x y => compare x y = .lt := by
  induction h with
  | nil => exact List.pairwise_singleton _ _
  | @cons c cs hc hcs ih =>
    rw [place]
    split
    · next hac =>
      refine .cons (fun b hb => ?_) (.cons hc hcs)
      rcases List.mem_cons.1 hb with rfl | hb
      · exact hac
      · exact Std.TransCmp.lt_trans hac (hc b hb)
    · exact .cons hc hcs
    · next hac =>
      refine .cons (fun b hb => ?_) ih
      rcases mem_place.1 hb with rfl | hb
      · exact Std.OrientedCmp.gt_iff_lt.1 hac
      · exact hc b hb

section Lawful

variable [Std.TransOrd α] [Std.LawfulEqOrd α]

def insert (a : α) (s : SortedSet α) : SortedSet α :=
  ⟨place a s.toList, place_ascending a s.ascending⟩

@[simp] theorem mem_insert {a b : α} {s : SortedSet α} : b ∈ s.insert a ↔ b = a ∨ b ∈ s :=
  mem_place

def ofList (as : List α) : SortedSet α :=
  as.foldl (fun s a => s.insert a) empty

theorem mem_foldl_insert {as : List α} {s : SortedSet α} {b : α} :
    b ∈ as.foldl (fun s a => s.insert a) s ↔ b ∈ s ∨ b ∈ as := by
  induction as generalizing s with
  | nil => simp
  | cons a as ih =>
    rw [List.foldl_cons, ih, mem_insert, List.mem_cons]
    constructor
    · rintro ((h | h) | h)
      · exact .inr (.inl h)
      · exact .inl h
      · exact .inr (.inr h)
    · rintro (h | h | h)
      · exact .inl (.inr h)
      · exact .inl (.inl h)
      · exact .inr h

@[simp] theorem mem_ofList {as : List α} {b : α} : b ∈ ofList as ↔ b ∈ as := by
  rw [ofList, mem_foldl_insert]
  simp

end Lawful

def filter (p : α → Bool) (s : SortedSet α) : SortedSet α :=
  ⟨s.toList.filter p, s.ascending.filter p⟩

@[simp] theorem mem_filter {p : α → Bool} {s : SortedSet α} {a : α} :
    a ∈ s.filter p ↔ a ∈ s ∧ p a = true :=
  List.mem_filter

def erase [DecidableEq α] (s : SortedSet α) (a : α) : SortedSet α :=
  s.filter fun b => decide (b ≠ a)

@[simp] theorem mem_erase [DecidableEq α] {s : SortedSet α} {a b : α} :
    b ∈ s.erase a ↔ b ∈ s ∧ b ≠ a := by
  simp [erase]

def diff [DecidableEq α] (s t : SortedSet α) : SortedSet α :=
  s.filter fun a => decide (a ∉ t)

@[simp] theorem mem_diff [DecidableEq α] {s t : SortedSet α} {a : α} :
    a ∈ s.diff t ↔ a ∈ s ∧ a ∉ t := by
  simp [diff]

theorem nodup_toList [Std.TransOrd α] (s : SortedSet α) : s.toList.Nodup := by
  refine s.ascending.imp ?_
  rintro a _ h rfl
  rw [Std.ReflOrd.compare_self] at h
  cases h

theorem eq_of_ascending_of_mem_iff [Std.TransOrd α] :
    ∀ {as bs : List α}, (as.Pairwise fun x y => compare x y = .lt) →
      (bs.Pairwise fun x y => compare x y = .lt) → (∀ a, a ∈ as ↔ a ∈ bs) → as = bs
  | [], [], _, _, _ => rfl
  | [], b :: _, _, _, h => absurd ((h b).2 (List.mem_cons_self ..)) (List.not_mem_nil)
  | a :: _, [], _, _, h => absurd ((h a).1 (List.mem_cons_self ..)) (List.not_mem_nil)
  | a :: as, b :: bs, .cons ha has, .cons hb hbs, h => by
    have self (c : α) : compare c c ≠ .lt := by
      rw [Std.ReflOrd.compare_self]
      decide
    have hab : a = b := by
      rcases List.mem_cons.1 ((h a).1 (List.mem_cons_self ..)) with hab | hab
      · exact hab
      · rcases List.mem_cons.1 ((h b).2 (List.mem_cons_self ..)) with hba | hba
        · exact hba.symm
        · exact absurd (Std.TransCmp.lt_trans (ha b hba) (hb a hab)) (self a)
    subst hab
    have htail : ∀ c, c ∈ as ↔ c ∈ bs := by
      intro c
      constructor
      · intro hc
        rcases List.mem_cons.1 ((h c).1 (List.mem_cons_of_mem _ hc)) with rfl | hc'
        · exact absurd (ha c hc) (self c)
        · exact hc'
      · intro hc
        rcases List.mem_cons.1 ((h c).2 (List.mem_cons_of_mem _ hc)) with rfl | hc'
        · exact absurd (hb c hc) (self c)
        · exact hc'
    rw [eq_of_ascending_of_mem_iff has hbs htail]

theorem ext [Std.TransOrd α] {s t : SortedSet α} (h : ∀ a, a ∈ s ↔ a ∈ t) : s = t :=
  toList_injective (eq_of_ascending_of_mem_iff s.ascending t.ascending h)

end SortedSet

end LiftedPlanning
