import LiftedPlanning.Proofs.Order.Linear
import LiftedPlanning.Sorted.Map
import LiftedPlanning.Sorted.Set

/-!
# Linear orders by counting

A linear order can be found without looking for a free member each time. The pairs that end at each
member are counted beforehand, and when a member is listed, one is taken off the count of each of
its successors. The members whose count has come down to zero wait in a set, of which the least one
is listed next. A count of zero cannot be lowered: `Countdown.lower?` fails there.

What is kept is `Countdown.Counts`: the counts are those of the pairs whose first member is still
waiting, and the ready members are the free ones. So no count is ever lowered below zero, and the
members are listed in the order of `Chain.linearize`, whether or not the pairs form cycles
(`Chain.countdown?_eq_some`).
-/

namespace LiftedPlanning

universe u

namespace SortedMap

variable {κ : Type u} [Ord κ] [Std.TransOrd κ] [Std.LawfulEqOrd κ]

def sumOfValues : List (κ × Nat) → Nat
  | [] => 0
  | e :: es => e.2 + sumOfValues es

def total (m : SortedMap κ Nat) : Nat := sumOfValues m.toList

theorem sumOfValues_place {k : κ} {es : List (κ × Nat)} {n : Nat} (n' : Nat)
    (hes : es.Pairwise fun e f => compare e.1 f.1 = .lt) (h : lookup k es = some n) :
    sumOfValues (place k n' es) + n = sumOfValues es + n' := by
  induction hes with
  | nil => cases h
  | @cons e es he hes ih =>
    rw [lookup] at h
    rw [place]
    split
    · next hlt =>
      rw [hlt, if_neg (show ¬ Ordering.lt = .eq by decide)] at h
      have hgt := he _ ((get?_eq_some_iff ⟨es, hes⟩ k n).1 h)
      rw [Std.OrientedCmp.gt_iff_lt.2 hlt] at hgt
      cases hgt
    · next heq =>
      rw [if_pos heq] at h
      cases h
      simp only [sumOfValues]
      omega
    · next hgt =>
      rw [hgt, if_neg (show ¬ Ordering.gt = .eq by decide)] at h
      simp only [sumOfValues]
      have := ih h
      omega

theorem total_insert {m : SortedMap κ Nat} {k : κ} {n : Nat} (n' : Nat) (h : m.get? k = some n) :
    (m.insert k n').total + n = m.total + n' :=
  sumOfValues_place n' m.ascending h

end SortedMap

namespace SortedSet

variable {α : Type u} [Ord α] {a : α} {s : SortedSet α}

theorem length_place_le {bs : List α} : (place a bs).length ≤ bs.length + 1 := by
  induction bs with
  | nil => exact Nat.le_refl _
  | cons b bs ih =>
    rw [place]
    split
    · exact Nat.le_refl _
    · exact Nat.le_succ _
    · exact Nat.succ_le_succ ih

theorem size_insert_le [Std.TransOrd α] [Std.LawfulEqOrd α] :
    (s.insert a).size ≤ s.size + 1 :=
  length_place_le

theorem size_erase_lt [DecidableEq α] (ha : a ∈ s) : (s.erase a).size < s.size :=
  List.length_filter_lt_length_iff_exists.2 ⟨a, ha, by simp⟩

end SortedSet

namespace Chain

variable {α : Type u} [DecidableEq α] {pairs : List (α × α)} {members bs : List α} {a b : α}

/-! ## The pairs that end at a member -/

def indegree (pairs : List (α × α)) (b : α) : Nat := pairs.countP fun p => p.2 = b

theorem isFree_iff_indegree_eq_zero : isFree pairs b = true ↔ indegree pairs b = 0 := by
  simp [isFree, indegree, List.countP_eq_zero]

/-- Without the pairs that start at `a`, one pair fewer ends at each successor of `a`. -/
theorem indegree_without (hnodup : pairs.Nodup) (a b : α) :
    indegree pairs b = indegree (without pairs a) b + if (a, b) ∈ pairs then 1 else 0 := by
  have hstart : ((pairs.filter fun p => !decide (p.1 ≠ a)).countP fun p => p.2 = b) =
      pairs.count (a, b) := by
    rw [List.countP_filter, List.count]
    refine List.countP_congr fun p _ => ?_
    simp [Prod.ext_iff, and_comm]
  rw [← hnodup.count, ← hstart]
  exact List.countP_eq_countP_filter_add ..

variable [Ord α] [Std.TransOrd α] [Std.LawfulEqOrd α]

/-! ## Counting -/

/-- What is known of the pairs that have been read. -/
structure Tally (α : Type u) [Ord α] where
  /-- The second members of the pairs that start at a member. -/
  successors : SortedMap α (SortedSet α)
  /-- The number of pairs that end at a member. -/
  incoming : SortedMap α Nat

namespace Tally

def follow (t : Tally α) (a : α) : SortedSet α := (t.successors.get? a).getD .empty

/-- Reads a pair. One that was read before does not count again. -/
def note (t : Tally α) (p : α × α) : Tally α :=
  if p.2 ∈ t.follow p.1 then t
  else
    { successors := t.successors.insert p.1 ((t.follow p.1).insert p.2)
      incoming := t.incoming.insert p.2 ((t.incoming.get? p.2).getD 0 + 1) }

def ofPairs (pairs : List (α × α)) (members : List α) : Tally α :=
  pairs.foldl note ⟨.empty, .ofList (members.map fun a => (a, 0))⟩

def free (t : Tally α) : SortedSet α :=
  .ofList ((t.incoming.toList.filter fun e => e.2 = 0).map Prod.fst)

end Tally

/-! ## Counting down -/

/-- A linear order under construction: how many pairs that end at each member are left, and which
members can be listed. -/
structure Countdown (α : Type u) [Ord α] where
  incoming : SortedMap α Nat
  ready : SortedSet α

namespace Countdown

variable {c d : Countdown α}

def lower? (c : Countdown α) (b : α) : Option (Countdown α) :=
  match c.incoming.get? b with
  | none => some c
  | some 0 => none
  | some (n + 1) => some ⟨c.incoming.insert b n, if n = 0 then c.ready.insert b else c.ready⟩

def weight (c : Countdown α) : Nat := c.ready.size + c.incoming.total

omit [DecidableEq α] in
theorem weight_lower?_le (h : c.lower? b = some d) : d.weight ≤ c.weight := by
  unfold lower? at h
  split at h
  · cases h
    exact Nat.le_refl _
  · cases h
  · next n hn =>
    cases h
    have htotal := SortedMap.total_insert n hn
    have hready : (if n = 0 then c.ready.insert b else c.ready).size ≤ c.ready.size + 1 := by
      split
      · exact SortedSet.size_insert_le
      · exact Nat.le_succ _
    simp only [weight]
    omega

omit [DecidableEq α] in
theorem weight_foldlM_lower?_le (h : bs.foldlM lower? c = some d) : d.weight ≤ c.weight := by
  induction bs generalizing c with
  | nil =>
    cases h
    exact Nat.le_refl _
  | cons b bs ih =>
    rw [List.foldlM_cons, Option.bind_eq_bind, Option.bind_eq_some_iff] at h
    obtain ⟨e, he, h⟩ := h
    exact Nat.le_trans (ih h) (weight_lower?_le he)

/-- Lists a ready member, which is ready no more, and lowers the counts of its successors. -/
def leave? (follow : α → SortedSet α) (c : Countdown α) (a : α) : Option (Countdown α) :=
  (follow a).toList.foldlM lower? ⟨c.incoming, c.ready.erase a⟩

theorem weight_leave?_lt {follow : α → SortedSet α} (ha : a ∈ c.ready)
    (h : c.leave? follow a = some d) : d.weight < c.weight := by
  refine Nat.lt_of_le_of_lt (weight_foldlM_lower?_le h) ?_
  exact Nat.add_lt_add_right (SortedSet.size_erase_lt ha) _

end Countdown

def countdownFrom? (follow : α → SortedSet α) (c : Countdown α) : Option (List α) :=
  match _ : c.ready.toList with
  | [] => some []
  | a :: _ =>
    match _ : c.leave? follow a with
    | none => none
    | some d => (countdownFrom? follow d).map (a :: ·)
termination_by c.weight
decreasing_by
  have ha : a ∈ c.ready.toList := by
    rw [‹c.ready.toList = _›]
    exact List.mem_cons_self ..
  exact Countdown.weight_leave?_lt ha ‹c.leave? follow a = some d›

/-- Lists members by counting down, unless a count would fall below zero. -/
def countdown? (pairs : List (α × α)) (members : SortedSet α) : Option (List α) :=
  let t := Tally.ofPairs pairs members.toList
  countdownFrom? t.follow ⟨t.incoming, t.free⟩

/-! ## The counts -/

namespace Tally

/-- The tally after some pairs between some members. -/
structure Counted (done : List (α × α)) (members : List α) (t : Tally α) : Prop where
  mem_follow : ∀ a b, b ∈ t.follow a ↔ (a, b) ∈ done
  incoming : ∀ b ∈ members, t.incoming.get? b = some (indegree done b)
  mem_members : ∀ b n, t.incoming.get? b = some n → b ∈ members

theorem counted_nil (members : List α) :
    Counted [] members (⟨.empty, .ofList (members.map fun a => (a, 0))⟩ : Tally α) where
  mem_follow a b := iff_of_false (SortedSet.not_mem_empty b) List.not_mem_nil
  incoming b hb := by
    refine SortedMap.get?_ofList_eq_some (List.mem_map.2 ⟨b, hb, rfl⟩) fun n hn => ?_
    obtain ⟨_, _, heq⟩ := List.mem_map.1 hn
    cases heq
    rfl
  mem_members b n hn := by
    obtain ⟨_, ha, heq⟩ := List.mem_map.1 (SortedMap.mem_of_get?_ofList hn)
    cases heq
    exact ha

theorem Counted.note {done : List (α × α)} {t : Tally α} {p : α × α} (h : Counted done members t)
    (hnew : p ∉ done) (hp : p.2 ∈ members) : Counted (done ++ [p]) members (t.note p) := by
  have hunread : p.2 ∉ t.follow p.1 := fun hmem => hnew ((h.mem_follow p.1 p.2).1 hmem)
  rw [Tally.note, if_neg hunread]
  refine ⟨fun a b => ?_, fun b hb => ?_, fun b n hn => ?_⟩
  · rw [List.mem_append, List.mem_singleton, ← h.mem_follow, follow, SortedMap.get?_insert]
    split
    · next heq =>
      cases heq
      rw [Option.getD_some, SortedSet.mem_insert, or_comm, Prod.ext_iff]
      simp
    · next hne =>
      rw [← follow, or_iff_left]
      rintro rfl
      exact hne rfl
  · rw [SortedMap.get?_insert, indegree, List.countP_append, ← indegree, h.incoming _ hp,
      h.incoming b hb]
    split
    · next heq =>
      cases heq
      simp
    · next hne => simp [Ne.symm hne]
  · rw [SortedMap.get?_insert] at hn
    split at hn
    · next heq => exact heq ▸ hp
    · exact h.mem_members b n hn

theorem Counted.foldl_note {done : List (α × α)} {t : Tally α} (h : Counted done members t)
    (hnodup : (done ++ pairs).Nodup) (hends : ∀ p ∈ pairs, p.2 ∈ members) :
    Counted (done ++ pairs) members (pairs.foldl Tally.note t) := by
  induction pairs generalizing done t with
  | nil =>
    rw [List.append_nil]
    exact h
  | cons p pairs ih =>
    obtain ⟨hp, hends⟩ := List.forall_mem_cons.1 hends
    have hnew : p ∉ done := fun hdone =>
      (List.nodup_append.1 hnodup).2.2 p hdone p (List.mem_cons_self ..) rfl
    rw [List.append_cons] at hnodup ⊢
    exact ih (h.note hnew hp) hnodup hends

theorem counted_ofPairs (hnodup : pairs.Nodup) (hends : ∀ p ∈ pairs, p.2 ∈ members) :
    Counted pairs members (ofPairs pairs members) :=
  (counted_nil members).foldl_note hnodup hends

theorem Counted.mem_free {t : Tally α} (h : Counted pairs members t) :
    b ∈ t.free ↔ b ∈ members ∧ isFree pairs b = true := by
  have hzero : b ∈ t.free ↔ t.incoming.get? b = some 0 := by
    rw [free, SortedSet.mem_ofList, List.mem_map, SortedMap.get?_eq_some_iff]
    constructor
    · rintro ⟨⟨_, _⟩, he, rfl⟩
      obtain ⟨he, hzero⟩ := List.mem_filter.1 he
      cases of_decide_eq_true hzero
      exact he
    · exact fun he => ⟨(b, 0), List.mem_filter.2 ⟨he, rfl⟩, rfl⟩
  rw [hzero, isFree_iff_indegree_eq_zero]
  constructor
  · intro hb
    have hmem := h.mem_members b 0 hb
    rw [h.incoming b hmem] at hb
    exact ⟨hmem, Option.some.inj hb⟩
  · rintro ⟨hmem, hfree⟩
    rw [h.incoming b hmem, hfree]

end Tally

namespace Countdown

variable {c : Countdown α} {follow : α → SortedSet α}

theorem lower?_eq_some {n : Nat} (hn : c.incoming.get? b = some (n + 1)) :
    ∃ d, c.lower? b = some d ∧
      (∀ x, d.incoming.get? x = if x = b then some n else c.incoming.get? x) ∧
      ∀ x, x ∈ d.ready ↔ x ∈ c.ready ∨ x = b ∧ n = 0 := by
  refine ⟨_, by rw [lower?, hn], fun x => SortedMap.get?_insert .., fun x => ?_⟩
  by_cases hzero : n = 0
  · simp [hzero, or_comm]
  · simp [hzero]

/-- Members that can all be lowered are lowered by one, and those that come down to zero are
ready. -/
theorem foldlM_lower?_eq_some (hbs : bs.Nodup)
    (hpos : ∀ b ∈ bs, ∃ n, c.incoming.get? b = some (n + 1)) :
    ∃ d, bs.foldlM lower? c = some d ∧
      (∀ x, d.incoming.get? x =
        if x ∈ bs then (c.incoming.get? x).map Nat.pred else c.incoming.get? x) ∧
      ∀ x, x ∈ d.ready ↔ x ∈ c.ready ∨ x ∈ bs ∧ c.incoming.get? x = some 1 := by
  induction bs generalizing c with
  | nil => exact ⟨c, rfl, fun x => by simp, fun x => by simp⟩
  | cons b bs ih =>
    obtain ⟨hb, hbs⟩ := List.nodup_cons.1 hbs
    obtain ⟨⟨n, hn⟩, hpos⟩ := List.forall_mem_cons.1 hpos
    obtain ⟨e, he, hincoming, hready⟩ := lower?_eq_some hn
    have hother : ∀ x ∈ bs, e.incoming.get? x = c.incoming.get? x := fun x hx => by
      rw [hincoming, if_neg fun heq : x = b => hb (heq ▸ hx)]
    obtain ⟨d, hd, hincoming', hready'⟩ :=
      ih (c := e) hbs fun x hx => hother x hx ▸ hpos x hx
    refine ⟨d, ?_, fun x => ?_, fun x => ?_⟩
    · rw [List.foldlM_cons, he]
      exact hd
    · rw [hincoming' x]
      by_cases hx : x = b
      · subst hx
        simp [hb, hincoming, hn]
      · simp [hx, hincoming]
    · rw [hready' x, hready x]
      by_cases hx : x = b
      · subst hx
        simp [hb, hn]
      · simp [hx, hincoming]

/-- The counts are those of the pairs that are left, and the ready members are those that wait and
are free. -/
structure Counts (pairs : List (α × α)) (members : List α) (c : Countdown α) : Prop where
  incoming : ∀ b ∈ members, c.incoming.get? b = some (indegree pairs b)
  mem_ready : ∀ b, b ∈ c.ready ↔ b ∈ members ∧ isFree pairs b = true

omit [Std.LawfulEqOrd α] in
theorem Counts.toList_ready (h : Counts pairs members c)
    (hascending : members.Pairwise fun a b => compare a b = .lt) :
    c.ready.toList = members.filter (isFree pairs) := by
  refine SortedSet.eq_of_ascending_of_mem_iff c.ready.ascending (hascending.filter _) fun b => ?_
  rw [List.mem_filter]
  exact h.mem_ready b

/-- When a free member is listed, no count falls below zero, and the counts are right again. -/
theorem Counts.leave? (h : Counts pairs members c) (hmembers : members.Nodup)
    (hnodup : pairs.Nodup) (hends : ∀ p ∈ pairs, p.2 ∈ members) (ha : isFree pairs a = true)
    (hfollow : ∀ b, b ∈ follow a ↔ (a, b) ∈ pairs) :
    ∃ d, c.leave? follow a = some d ∧ Counts (without pairs a) (members.erase a) d := by
  have hindegree := indegree_without hnodup a
  have hmem : ∀ b, b ∈ (follow a).toList ↔ (a, b) ∈ pairs := hfollow
  obtain ⟨d, hd, hincoming, hready⟩ := foldlM_lower?_eq_some
    (c := ⟨c.incoming, c.ready.erase a⟩) (SortedSet.nodup_toList (follow a)) fun b hb => by
      have hab := (hmem b).1 hb
      refine ⟨indegree (without pairs a) b, ?_⟩
      rw [h.incoming b (hends _ hab), hindegree b, if_pos hab]
  refine ⟨d, hd, fun b hb => ?_, fun b => ?_⟩
  · rw [hincoming, h.incoming b (List.mem_of_mem_erase hb), hindegree b]
    by_cases hab : (a, b) ∈ pairs
    · simp [hmem, hab]
    · simp [hmem, hab]
  · have hself : (a, a) ∉ pairs := isFree_iff.1 ha a
    rw [hready, SortedSet.mem_erase, h.mem_ready, hmem, hmembers.mem_erase_iff,
      isFree_iff_indegree_eq_zero, isFree_iff_indegree_eq_zero]
    by_cases hab : (a, b) ∈ pairs
    · have hb := hends _ hab
      have hne : b ≠ a := fun heq => hself (heq ▸ hab)
      have hcount := hindegree b
      rw [if_pos hab] at hcount
      simp [h.incoming b hb, hab, hb, hne, hcount]
    · have hcount := hindegree b
      rw [if_neg hab, Nat.add_zero] at hcount
      simp only [hab, hcount, false_and, or_false]
      exact and_right_comm.trans (and_congr_left fun _ => and_comm)

end Countdown

theorem countdownFrom?_of_nil {follow : α → SortedSet α} {c : Countdown α}
    (hnil : c.ready.toList = []) : countdownFrom? follow c = some [] := by
  rw [countdownFrom?]
  split
  · rfl
  · next hcons => cases hnil.symm.trans hcons

theorem countdownFrom?_of_cons {follow : α → SortedSet α} {c d : Countdown α} {as : List α}
    (hcons : c.ready.toList = a :: as) (hd : c.leave? follow a = some d) :
    countdownFrom? follow c = (countdownFrom? follow d).map (a :: ·) := by
  rw [countdownFrom?]
  split
  · next hnil => cases hnil.symm.trans hcons
  · next b bs hcons' =>
    cases hcons.symm.trans hcons'
    split
    · next hnone => cases hnone.symm.trans hd
    · next e he => cases he.symm.trans hd; rfl

theorem countdownFrom?_eq_some {follow : α → SortedSet α} {c : Countdown α}
    (hascending : members.Pairwise fun a b => compare a b = .lt) (hnodup : pairs.Nodup)
    (hends : ∀ p ∈ pairs, p.2 ∈ members)
    (hfollow : ∀ a ∈ members, ∀ b, b ∈ follow a ↔ (a, b) ∈ pairs)
    (hc : Countdown.Counts pairs members c) :
    countdownFrom? follow c = some (linearize pairs members) := by
  induction pairs, members using linearize.induct generalizing c with
  | case1 pairs members hnone =>
    rw [linearize, hnone]
    refine countdownFrom?_of_nil ?_
    rw [hc.toList_ready hascending, ← List.head?_eq_none_iff, List.head?_filter, hnone]
  | case2 pairs members a hsome ih =>
    have hmembers : members.Nodup := hascending.imp fun hlt heq => by
      rw [heq, Std.ReflOrd.compare_self] at hlt
      cases hlt
    have hfree := List.find?_some hsome
    have ha := List.mem_of_find?_eq_some hsome
    obtain ⟨as, hcons⟩ : ∃ as, c.ready.toList = a :: as := by
      rw [hc.toList_ready hascending, ← List.head?_eq_some_iff, List.head?_filter, hsome]
    obtain ⟨d, hd, hcounts⟩ := hc.leave? hmembers hnodup hends hfree (hfollow a ha)
    have hends' : ∀ p ∈ without pairs a, p.2 ∈ members.erase a := by
      intro p hp
      have hpair := (List.mem_filter.1 hp).1
      refine (List.mem_erase_of_ne ?_).2 (hends p hpair)
      rintro rfl
      exact isFree_iff.1 hfree p.1 hpair
    have hfollow' : ∀ b ∈ members.erase a, ∀ x, x ∈ follow b ↔ (b, x) ∈ without pairs a := by
      intro b hb x
      obtain ⟨hne, hb⟩ := hmembers.mem_erase_iff.1 hb
      rw [hfollow b hb, without, List.mem_filter, decide_eq_true_iff, and_iff_left hne]
    rw [linearize, hsome, countdownFrom?_of_cons hcons hd,
      ih (hascending.sublist List.erase_sublist) (hnodup.filter _) hends' hfollow' hcounts]
    rfl

/-- Whether or not the pairs form cycles, no count falls below zero, and the members are listed that
`linearize` lists. -/
theorem countdown?_eq_some {members : SortedSet α} (hnodup : pairs.Nodup)
    (hends : ∀ p ∈ pairs, p.2 ∈ members) :
    countdown? pairs members = some (linearize pairs members.toList) := by
  have htally := Tally.counted_ofPairs hnodup hends
  refine countdownFrom?_eq_some members.ascending hnodup hends (fun a _ => htally.mem_follow a) ?_
  exact ⟨htally.incoming, fun _ => htally.mem_free⟩

end Chain

end LiftedPlanning
