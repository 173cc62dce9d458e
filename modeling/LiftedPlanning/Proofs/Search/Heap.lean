import LiftedPlanning.Proofs.Search.Queue
import LiftedPlanning.Proofs.Search.TotalOrder

/-!
# Frontiers and heaps

Open nodes can be kept in the order in which they will be taken, as the frontier of a search does,
or in a heap from which greatest members are taken. For a heap the order of the entries is turned
round, and each entry bears a number that decides between entries with equal costs: the count of the
pushes before it if the oldest is to come first, and its complement if the newest is
(`HeapEntry.compare_ofEntry`).

Both are exact queues (`Frontier.representation`, `MaxHeap.representation`), the heap as long as the
counter does not overflow. So they give the same answers to all sequences of requests.
-/

namespace LiftedPlanning

universe u v w

variable {κ : Type u} {ν : Type v}

def Cost.compareRank [Cost κ] (a b : κ) : Ordering := compare (Cost.rank a) (Cost.rank b)

instance [Cost κ] : Std.TransCmp (Cost.compareRank : κ → κ → Ordering) :=
  Queue.transCmp_on (compare : Nat → Nat → Ordering) Cost.rank

/-! ## Frontiers -/

namespace Frontier

open Queue

variable [Cost κ] {tieBreak : TieBreak}

def queue (κ : Type u) (ν : Type v) [Cost κ] (tieBreak : TieBreak) : Queue κ ν where
  State := Frontier κ ν
  start := .empty tieBreak
  push := push
  pop? := pop?

theorem before_iff {e f : Entry κ ν} : e.Before f ↔
    (Cost.compareRank e.total f.total).then (Cost.compareRank e.estimate f.estimate) = .lt := by
  simp only [Entry.Before, Cost.compareRank, Ordering.then_eq_lt, Nat.compare_eq_lt,
    Nat.compare_eq_eq]

theorem not_before_iff {e f : Entry κ ν} : ¬ f.Before e ↔
    (Cost.compareRank e.total f.total).then (Cost.compareRank e.estimate f.estimate) ≠ .gt := by
  simp only [Entry.Before, Cost.compareRank, ne_eq, Ordering.then_eq_gt, Nat.compare_eq_gt,
    Nat.compare_eq_eq]
  omega

theorem overtakes_iff {e f : Entry κ ν} {i n : Nat} (hi : i < n) :
    e.Overtakes tieBreak f ↔ precedence Cost.compareRank tieBreak (e, n) (f, i) = .lt := by
  rw [precedence, Ordering.then_eq_lt]
  cases tieBreak with
  | oldest =>
    have hlater : TieBreak.oldest.compare n i ≠ .lt :=
      fun h => Nat.lt_asymm hi (Nat.compare_eq_lt.1 h)
    rw [Entry.Overtakes, before_iff]
    simp [hlater]
  | newest =>
    have hlater : TieBreak.newest.compare n i = .lt := Nat.compare_eq_lt.2 hi
    rw [Entry.Overtakes, not_before_iff]
    generalize Ordering.then _ _ = o
    cases o <;> simp [hlater]

/-- A new entry is put after all that precede it and before all others. -/
theorem exists_place {e : Entry κ ν} {n : Nat} {ps : List (Entry κ ν × Nat)}
    (hn : ∀ p ∈ ps, p.2 < n)
    (h : ps.Pairwise fun p q => precedence Cost.compareRank tieBreak p q = .lt) :
    ∃ qs : List (Entry κ ν × Nat), qs.map Prod.fst = e.place tieBreak (ps.map Prod.fst) ∧
      qs.Perm ((e, n) :: ps) ∧
      qs.Pairwise fun p q => precedence Cost.compareRank tieBreak p q = .lt := by
  induction h with
  | nil => exact ⟨[(e, n)], rfl, .refl _, List.pairwise_singleton _ _⟩
  | @cons p ps hp hps ih =>
    obtain ⟨hpn, hn⟩ := List.forall_mem_cons.1 hn
    rw [List.map_cons, Entry.place]
    split
    · next hover =>
      have hlt := (overtakes_iff hpn).1 hover
      refine ⟨(e, n) :: p :: ps, rfl, .refl _, .cons (fun q hq => ?_) (.cons hp hps)⟩
      rcases List.mem_cons.1 hq with rfl | hq
      · exact hlt
      · exact Std.TransCmp.lt_trans hlt (hp q hq)
    · next hover =>
      obtain ⟨qs, hqs, hperm, hpairwise⟩ := ih hn
      refine ⟨p :: qs, congrArg _ hqs, (hperm.cons p).trans (.swap ..),
        .cons (fun q hq => ?_) hpairwise⟩
      rcases List.mem_cons.1 (hperm.mem_iff.1 hq) with rfl | hq
      · cases hcompare : precedence Cost.compareRank tieBreak p (e, n) with
        | lt => rfl
        | eq => exact absurd (number_eq_of_precedence hcompare) (Nat.ne_of_lt hpn)
        | gt => exact absurd ((overtakes_iff hpn).2 (Std.OrientedCmp.gt_iff_lt.1 hcompare)) hover
      · exact hp q hq

omit [Cost κ] in
theorem pop?_of_entries_eq {q : Frontier κ ν} {e : Entry κ ν} {es : List (Entry κ ν)}
    (h : q.entries = e :: es) : q.pop? = some (e.node, { q with entries := es }) := by
  rw [Frontier.pop?, h]

def representation (tieBreak : TieBreak) (limit : Nat) :
    (queue κ ν tieBreak).Representation Cost.compareRank tieBreak limit where
  Holds (q : Frontier κ ν) _ ps := q.tieBreak = tieBreak ∧ ∃ qs : List (Entry κ ν × Nat),
    qs.map Prod.fst = q.entries ∧ qs.Perm ps ∧
      qs.Pairwise fun p q => precedence Cost.compareRank tieBreak p q = .lt
  start := ⟨rfl, [], rfl, .refl _, .nil⟩
  push {q n ps} e hn := by
    rintro ⟨htie, qs, hqs, hperm, hpairwise⟩ _
    obtain ⟨qs', hqs', hperm', hpairwise'⟩ :=
      exists_place (e := e) (fun p hp => hn.lt p (hperm.mem_iff.1 hp)) hpairwise
    refine ⟨htie, qs', ?_, ?_, hpairwise'⟩
    · change _ = e.place q.tieBreak q.entries
      rw [hqs', htie, hqs]
    · exact hperm'.trans ((hperm.cons _).trans (List.perm_append_singleton _ _).symm)
  pop {q n ps} hn := by
    rintro ⟨htie, qs, hqs, hperm, hpairwise⟩
    cases hpairwise with
    | nil => exact .inl ⟨pop?_eq_none_iff.2 hqs.symm, hperm.nil_eq.symm⟩
    | @cons p qs hp hpairwise =>
      have hmem : p ∈ ps := hperm.mem_iff.1 (List.mem_cons_self ..)
      refine .inr ⟨p, { q with entries := qs.map Prod.fst }, ?_, .first hmem fun r hr hne => ?_,
        htie, qs, rfl, ?_, hpairwise⟩
      · exact pop?_of_entries_eq hqs.symm
      · exact hp r ((List.mem_cons.1 (hperm.mem_iff.2 hr)).resolve_left hne)
      · exact (hperm.trans (hn.perm_cons_filter hmem)).cons_inv

end Frontier

/-! ## Heaps -/

/-- A heap from which greatest members are taken. Nothing is said about which one it is if there are
several. -/
structure MaxHeap (α : Type u) (cmp : α → α → Ordering) where
  State : Type w
  empty : State
  push : State → α → State
  pop? : State → Option (α × State)
  members : State → List α
  members_empty : members empty = []
  members_push (s : State) (a : α) : (members (push s a)).Perm (a :: members s)
  members_of_pop?_eq_none {s : State} : pop? s = none → members s = []
  members_of_pop?_eq_some {s s' : State} {a : α} : pop? s = some (a, s') →
    (members s).Perm (a :: members s') ∧ ∀ b ∈ members s, (cmp b a).isLE = true

namespace MaxHeap

variable {α : Type u}

def takeMax (cmp : α → α → Ordering) : α → List α → α × List α
  | a, [] => (a, [])
  | a, b :: bs =>
    if (cmp a b).isLE then ((takeMax cmp b bs).1, a :: (takeMax cmp b bs).2)
    else ((takeMax cmp a bs).1, b :: (takeMax cmp a bs).2)

theorem perm_takeMax (cmp : α → α → Ordering) (a : α) (bs : List α) :
    (a :: bs).Perm ((takeMax cmp a bs).1 :: (takeMax cmp a bs).2) := by
  induction bs generalizing a with
  | nil => exact .refl _
  | cons b bs ih =>
    rw [takeMax]
    split
    · exact ((ih b).cons a).trans (.swap ..)
    · exact (List.Perm.swap ..).trans (((ih a).cons b).trans (.swap ..))

theorem isLE_takeMax (cmp : α → α → Ordering) [Std.TransCmp cmp] (a : α) (bs : List α) :
    ∀ b ∈ a :: bs, (cmp b (takeMax cmp a bs).1).isLE = true := by
  induction bs generalizing a with
  | nil =>
    intro b hb
    have hself : cmp a a = .eq := Std.ReflCmp.compare_self
    rw [List.mem_singleton.1 hb, takeMax, hself]
    rfl
  | cons b bs ih =>
    rw [takeMax]
    split
    · next hle =>
      refine List.forall_mem_cons.2 ⟨?_, ih b⟩
      exact Std.TransCmp.isLE_trans hle (ih b b (List.mem_cons_self ..))
    · next hgt =>
      obtain ⟨ha, hbs⟩ := List.forall_mem_cons.1 (ih a)
      refine List.forall_mem_cons.2 ⟨ha, List.forall_mem_cons.2 ⟨?_, hbs⟩⟩
      rw [Bool.not_eq_true, Ordering.isLE_eq_false, Std.OrientedCmp.gt_iff_lt] at hgt
      exact Std.TransCmp.isLE_trans (Ordering.isLE_of_eq_lt hgt) ha

def unordered (cmp : α → α → Ordering) [Std.TransCmp cmp] : MaxHeap α cmp where
  State := List α
  empty := []
  push as a := a :: as
  pop?
    | [] => none
    | a :: as => some (takeMax cmp a as)
  members as := as
  members_empty := rfl
  members_push _ _ := .refl _
  members_of_pop?_eq_none {as} h := by
    cases as with
    | nil => rfl
    | cons a as => cases h
  members_of_pop?_eq_some {as bs a} h := by
    cases as with
    | nil => cases h
    | cons b as =>
      have heq := Option.some.inj h
      have hperm := perm_takeMax cmp b as
      have hle := isLE_takeMax cmp b as
      rw [heq] at hperm hle
      exact ⟨hperm, hle⟩

end MaxHeap

/-- The number by which a heap orders entries that agree in their numbers, after so many pushes. -/
def TieBreak.order : TieBreak → UInt64 → UInt64
  | oldest, pushed => pushed
  | newest, pushed => 0xffffffffffffffff - pushed

/-- An entry as a heap keeps it, with the bits of its numbers. -/
structure HeapEntry (ν : Type v) where
  total : UInt64
  estimate : UInt64
  order : UInt64
  node : ν

instance : Std.TransCmp Cost.totalCompare := Queue.transCmp_on Ord.compare Cost.totalKey

namespace HeapEntry

/-- The other way round: the entry with the smallest numbers is the greatest. -/
def compare (a b : HeapEntry ν) : Ordering :=
  ((Cost.totalCompare b.total a.total).then (Cost.totalCompare b.estimate a.estimate)).then
    (Ord.compare b.order a.order)

instance : Std.TransCmp (compare : HeapEntry ν → HeapEntry ν → Ordering) :=
  have := Queue.transCmp_on (fun x y => Cost.totalCompare y x) fun a : HeapEntry ν => a.total
  have := Queue.transCmp_on (fun x y => Cost.totalCompare y x) fun a : HeapEntry ν => a.estimate
  have := Queue.transCmp_on (fun x y : UInt64 => Ord.compare y x) fun a : HeapEntry ν => a.order
  inferInstanceAs (Std.TransCmp (compareLex
    (compareLex (fun a b : HeapEntry ν => Cost.totalCompare b.total a.total)
      fun a b => Cost.totalCompare b.estimate a.estimate)
    fun a b => Ord.compare b.order a.order))

def ofEntry (bits : κ → UInt64) (tieBreak : TieBreak) (p : Entry κ ν × Nat) : HeapEntry ν :=
  ⟨bits p.1.total, bits p.1.estimate, tieBreak.order (.ofNat p.2), p.1.node⟩

end HeapEntry

theorem TieBreak.toNat_order_newest {n : Nat} (h : n < UInt64.size) :
    (order newest (.ofNat n)).toNat = UInt64.size - 1 - n := by
  have hn := UInt64.toNat_ofNat_of_lt' h
  rw [order, UInt64.toNat_sub_of_le, hn]
  · rfl
  · rw [UInt64.le_iff_toNat_le, hn]
    exact Nat.le_of_lt_succ h

theorem TieBreak.compare_order {tieBreak : TieBreak} {i j : Nat} (hi : i < UInt64.size)
    (hj : j < UInt64.size) :
    Ord.compare (tieBreak.order (.ofNat i)) (tieBreak.order (.ofNat j)) = tieBreak.compare i j := by
  have hi' := UInt64.toNat_ofNat_of_lt' hi
  have hj' := UInt64.toNat_ofNat_of_lt' hj
  cases tieBreak with
  | oldest =>
    change compareOfLessAndEq _ _ = compareOfLessAndEq _ _
    simp only [compareOfLessAndEq, order, UInt64.lt_iff_toNat_lt, ← UInt64.toNat_inj, hi', hj']
  | newest =>
    have hlt : order newest (.ofNat i) < order newest (.ofNat j) ↔ j < i := by
      rw [UInt64.lt_iff_toNat_lt, toNat_order_newest hi, toNat_order_newest hj]
      omega
    have heq : order newest (.ofNat i) = order newest (.ofNat j) ↔ j = i := by
      rw [← UInt64.toNat_inj, toNat_order_newest hi, toNat_order_newest hj]
      omega
    change compareOfLessAndEq _ _ = compareOfLessAndEq _ _
    simp only [compareOfLessAndEq, hlt, heq]

/-- The entry that is first is the greatest in a heap. -/
theorem HeapEntry.compare_ofEntry {bits : κ → UInt64} {tieBreak : TieBreak} {p q : Entry κ ν × Nat}
    (hp : p.2 < UInt64.size) (hq : q.2 < UInt64.size) :
    (ofEntry bits tieBreak q).compare (ofEntry bits tieBreak p) =
      Queue.precedence (fun a b => Cost.totalCompare (bits a) (bits b)) tieBreak p q := by
  rw [compare, ofEntry, ofEntry, TieBreak.compare_order hp hq]
  rfl

namespace MaxHeap

open Queue

variable {bits : κ → UInt64} {tieBreak : TieBreak}

def queue (H : MaxHeap.{v, w} (HeapEntry ν) HeapEntry.compare) (bits : κ → UInt64)
    (tieBreak : TieBreak) : Queue.{u, v, w} κ ν where
  State := H.State × UInt64
  start := (H.empty, 0)
  push s e := (H.push s.1 ⟨bits e.total, bits e.estimate, tieBreak.order s.2, e.node⟩, s.2 + 1)
  pop? s := (H.pop? s.1).map fun p => (p.1.node, (p.2, s.2))

/-- The members of a heap are the entries that wait, as long as the counter does not overflow. -/
def representation (H : MaxHeap.{v, w} (HeapEntry ν) HeapEntry.compare) (bits : κ → UInt64)
    (tieBreak : TieBreak) : (H.queue bits tieBreak).Representation
      (fun a b => Cost.totalCompare (bits a) (bits b)) tieBreak UInt64.size where
  Holds (s : H.State × UInt64) n ps := n < UInt64.size ∧ s.2 = .ofNat n ∧
    (H.members s.1).Perm (ps.map (HeapEntry.ofEntry bits tieBreak))
  start := ⟨by decide, rfl, .of_eq H.members_empty⟩
  push {s n ps} e hn := by
    rintro ⟨_, hcounter, hperm⟩ hlimit
    refine ⟨hlimit, ?_, ?_⟩
    · change s.2 + 1 = _
      rw [hcounter, UInt64.ofNat_add]
      rfl
    · rw [List.map_append]
      refine (H.members_push _ _).trans ?_
      rw [hcounter]
      exact (hperm.cons _).trans (List.perm_append_singleton _ _).symm
  pop {s n ps} hn := by
    rintro ⟨hlimit, hcounter, hperm⟩
    cases hpop : H.pop? s.1 with
    | none =>
      refine .inl ⟨congrArg (Option.map _) hpop, ?_⟩
      rw [H.members_of_pop?_eq_none hpop] at hperm
      exact List.map_eq_nil_iff.1 hperm.nil_eq.symm
    | some r =>
      obtain ⟨a, h⟩ := r
      obtain ⟨hrest, hgreatest⟩ := H.members_of_pop?_eq_some hpop
      obtain ⟨p, hp, rfl⟩ := List.mem_map.1
        (hperm.mem_iff.1 (hrest.mem_iff.2 (List.mem_cons_self ..)))
      refine .inr ⟨p, (h, s.2), congrArg (Option.map _) hpop, .first hp fun q hq hne => ?_,
        hlimit, hcounter, ?_⟩
      · have hle := hgreatest _ (hperm.mem_iff.2 (List.mem_map_of_mem hq))
        rw [HeapEntry.compare_ofEntry (Nat.lt_trans (hn.lt p hp) hlimit)
          (Nat.lt_trans (hn.lt q hq) hlimit)] at hle
        -- Entries that wait have different numbers, so a greatest one is greater than all others.
        refine (Ordering.isLE_iff_eq_lt_or_eq_eq.1 hle).resolve_right fun heq => hne ?_
        exact hn.eq_of_number_eq hq hp (number_eq_of_precedence heq).symm
      · have hsplit := (hn.perm_cons_filter hp).map (HeapEntry.ofEntry bits tieBreak)
        exact (hrest.symm.trans (hperm.trans hsplit)).cons_inv

/-- A queue made of a heap is exact in the total order of the bits, as long as its counter does not
overflow. The frontier of a search gives the same answers if costs are ranked in this order. -/
theorem exists_serves_and_frontier_eq (H : MaxHeap.{v, w} (HeapEntry ν) HeapEntry.compare)
    (bits : κ → UInt64) (tieBreak : TieBreak) (rs : List (Request κ ν))
    (hfew : (pushed rs).length < UInt64.size) :
    (∃ served, Serves (fun a b => Cost.totalCompare (bits a) (bits b)) tieBreak rs served ∧
      (H.queue bits tieBreak).answers rs = served.map (Option.map fun p => p.1.node)) ∧
    ∀ [Cost κ], (∀ a b : κ, compare (Cost.rank a) (Cost.rank b) =
        Cost.totalCompare (bits a) (bits b)) →
      (Frontier.queue κ ν tieBreak).answers rs = (H.queue bits tieBreak).answers rs := by
  obtain ⟨served, hserves, hanswers⟩ := (H.representation bits tieBreak).exists_serves hfew
  refine ⟨⟨served, hserves, hanswers⟩, fun hrank => ?_⟩
  -- The frontier serves the requests as well, and there is only one way to do so.
  obtain ⟨served', hserves', hanswers'⟩ :=
    (Frontier.representation tieBreak UInt64.size).exists_serves hfew
  have hcompare : Cost.compareRank = fun a b : κ => Cost.totalCompare (bits a) (bits b) :=
    funext₂ hrank
  have := transCmp_on Cost.totalCompare bits
  rw [hcompare] at hserves'
  rw [hanswers, hanswers', hserves.unique hserves']

def interleaved : List (Request Float Nat) :=
  [.push ⟨1.0, 1.0, 0⟩, .push ⟨1.0, 1.0, 1⟩, .pop, .push ⟨0.0, 0.0, 2⟩, .push ⟨-0.0, 0.0, 3⟩,
    .pop, .pop, .pop, .pop]

theorem serves_interleaved : ∃ served,
    Serves (fun a b => Cost.totalCompare (Cost.floatBits a) (Cost.floatBits b)) .newest interleaved
      served ∧
    served.map (Option.map fun p => p.1.node) = [some 1, some 3, some 2, some 0, none] ∧
    (Frontier.queue Float Nat .newest).answers interleaved =
      [some 1, some 3, some 2, some 0, none] := by
  obtain ⟨⟨served, hserves, hanswers⟩, hsame⟩ := exists_serves_and_frontier_eq
    (unordered HeapEntry.compare) Cost.floatBits .newest interleaved (by decide)
  have hall : ((unordered HeapEntry.compare).queue Cost.floatBits .newest).answers interleaved =
      [some 1, some 3, some 2, some 0, none] := by
    decide +kernel
  exact ⟨served, hserves, hanswers.symm.trans hall, (hsame Cost.compare_rank_float).trans hall⟩

end MaxHeap

end LiftedPlanning
