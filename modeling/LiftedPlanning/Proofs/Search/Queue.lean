import Mathlib.Data.List.Induction
import Mathlib.Data.List.Perm.Basic
import Mathlib.Data.List.Nodup
import LiftedPlanning.Search.Frontier

/-!
# Queues of open nodes

A queue of open nodes is asked to push entries and to pop nodes, in any order. It is exact if each
pop returns the node of the entry that is first among those that were pushed and not yet returned,
and nothing if there are none (`Queue.Serves`). Entries that agree in both of their numbers are told
apart by how many others were pushed before them. So there is only one exact list of answers
(`Queue.Serves.unique`).

To see that a queue is exact it is enough to say how its states represent the entries that wait
(`Queue.Representation.exists_serves`). The frontier of a search does so by its order
(`Frontier.representation`).
-/

namespace LiftedPlanning

universe u v w

def TieBreak.compare : TieBreak → Nat → Nat → Ordering
  | oldest, i, j => Ord.compare i j
  | newest, i, j => Ord.compare j i

instance (tieBreak : TieBreak) : Std.TransCmp tieBreak.compare where
  eq_swap {i j} := by
    cases tieBreak with
    | oldest => exact Std.OrientedOrd.eq_swap (a := i)
    | newest => exact Std.OrientedOrd.eq_swap (a := j)
  isLE_trans {i j k} hij hjk := by
    cases tieBreak with
    | oldest => exact Std.TransOrd.isLE_trans (a := i) hij hjk
    | newest => exact Std.TransOrd.isLE_trans (a := k) hjk hij

theorem TieBreak.eq_of_compare {tieBreak : TieBreak} {i j : Nat} (h : tieBreak.compare i j = .eq) :
    i = j := by
  cases tieBreak with
  | oldest => exact Std.LawfulEqOrd.eq_of_compare h
  | newest => exact (Std.LawfulEqOrd.eq_of_compare h).symm

/-- A queue of open nodes: its states, and what is done to them. -/
structure Queue (κ : Type u) (ν : Type v) where
  State : Type w
  start : State
  push : State → Entry κ ν → State
  pop? : State → Option (ν × State)

namespace Queue

inductive Request (κ : Type u) (ν : Type v) where
  | push (e : Entry κ ν)
  | pop

variable {κ : Type u} {ν : Type v}

def pushed (rs : List (Request κ ν)) : List (Entry κ ν) :=
  rs.filterMap fun
    | .push e => some e
    | .pop => none

def pops (rs : List (Request κ ν)) : Nat :=
  rs.countP fun
    | .push _ => false
    | .pop => true

/-- Serves a request; the answer to a pop comes after the answers to those before it. -/
def serve (Q : Queue.{u, v, w} κ ν) (s : Q.State × List (Option ν)) :
    Request κ ν → Q.State × List (Option ν)
  | .push e => (Q.push s.1 e, s.2)
  | .pop =>
    match Q.pop? s.1 with
    | none => (s.1, s.2 ++ [none])
    | some (n, s') => (s', s.2 ++ [some n])

def run (Q : Queue.{u, v, w} κ ν) (rs : List (Request κ ν)) : Q.State × List (Option ν) :=
  rs.foldl Q.serve (Q.start, [])

def answers (Q : Queue.{u, v, w} κ ν) (rs : List (Request κ ν)) : List (Option ν) := (Q.run rs).2

theorem run_concat (Q : Queue.{u, v, w} κ ν) (rs : List (Request κ ν)) (r : Request κ ν) :
    Q.run (rs ++ [r]) = Q.serve (Q.run rs) r := by
  rw [run, List.foldl_append]
  rfl

@[simp] theorem pushed_concat_push (rs : List (Request κ ν)) (e : Entry κ ν) :
    pushed (rs ++ [.push e]) = pushed rs ++ [e] := by
  simp [pushed]

@[simp] theorem pushed_concat_pop (rs : List (Request κ ν)) :
    pushed (rs ++ [.pop]) = pushed rs := by
  simp [pushed]

@[simp] theorem pops_concat_push (rs : List (Request κ ν)) (e : Entry κ ν) :
    pops (rs ++ [.push e]) = pops rs := by
  simp [pops]

@[simp] theorem pops_concat_pop (rs : List (Request κ ν)) : pops (rs ++ [.pop]) = pops rs + 1 := by
  simp [pops]

theorem pops_lt {rs before after : List (Request κ ν)} (h : rs = before ++ .pop :: after) :
    pops before < pops rs := by
  rw [h, pops, pops, List.countP_append, List.countP_cons_of_pos rfl]
  omega

/-! ## Exactness -/

/-- How two entries compare, each with the number of entries that were pushed before it. -/
def precedence (cmp : κ → κ → Ordering) (tieBreak : TieBreak) (p q : Entry κ ν × Nat) : Ordering :=
  ((cmp p.1.total q.1.total).then (cmp p.1.estimate q.1.estimate)).then
    (tieBreak.compare p.2 q.2)

/-- The entry that is to be returned, if any is waiting. -/
inductive IsNext (cmp : κ → κ → Ordering) (tieBreak : TieBreak) (ps : List (Entry κ ν × Nat)) :
    Option (Entry κ ν × Nat) → Prop where
  | dry (nil : ps = []) : IsNext cmp tieBreak ps none
  | first {p : Entry κ ν × Nat} (mem : p ∈ ps)
      (least : ∀ q ∈ ps, q ≠ p → precedence cmp tieBreak p q = .lt) :
      IsNext cmp tieBreak ps (some p)

def waiting (es : List (Entry κ ν)) (served : List (Option (Entry κ ν × Nat))) :
    List (Entry κ ν × Nat) :=
  es.zipIdx.filter fun p => served.all fun a => a.map Prod.snd ≠ some p.2

/-- Each pop is served the entry that is next among those that were pushed before it and have not
been returned. No entry is lost or returned twice. -/
structure Serves (cmp : κ → κ → Ordering) (tieBreak : TieBreak) (rs : List (Request κ ν))
    (served : List (Option (Entry κ ν × Nat))) : Prop where
  length_eq : served.length = pops rs
  perm : (served.filterMap id ++ waiting (pushed rs) served).Perm (pushed rs).zipIdx
  isNext : ∀ before after, rs = before ++ .pop :: after → ∃ answer,
    served[pops before]? = some answer ∧
      IsNext cmp tieBreak (waiting (pushed before) (served.take (pops before))) answer

section Order

variable {cmp : κ → κ → Ordering} {tieBreak : TieBreak}

theorem number_eq_of_precedence {p q : Entry κ ν × Nat} (h : precedence cmp tieBreak p q = .eq) :
    p.2 = q.2 :=
  TieBreak.eq_of_compare (Ordering.then_eq_eq.1 h).2

variable [Std.TransCmp cmp]

theorem transCmp_on {α β : Type*} (cmp : β → β → Ordering) [Std.TransCmp cmp] (f : α → β) :
    Std.TransCmp fun a b => cmp (f a) (f b) where
  eq_swap := Std.OrientedCmp.eq_swap
  isLE_trans := Std.TransCmp.isLE_trans

instance : Std.TransCmp
    (precedence cmp tieBreak : Entry κ ν × Nat → Entry κ ν × Nat → Ordering) :=
  have := transCmp_on cmp fun p : Entry κ ν × Nat => p.1.total
  have := transCmp_on cmp fun p : Entry κ ν × Nat => p.1.estimate
  have := transCmp_on tieBreak.compare fun p : Entry κ ν × Nat => p.2
  inferInstanceAs (Std.TransCmp (compareLex
    (compareLex (fun p q : Entry κ ν × Nat => cmp p.1.total q.1.total)
      fun p q => cmp p.1.estimate q.1.estimate)
    fun p q => tieBreak.compare p.2 q.2))

theorem IsNext.unique {ps : List (Entry κ ν × Nat)} {a b : Option (Entry κ ν × Nat)}
    (ha : IsNext cmp tieBreak ps a) (hb : IsNext cmp tieBreak ps b) : a = b := by
  cases ha with
  | dry hnil =>
    cases hb with
    | dry _ => rfl
    | first hmem _ =>
      rw [hnil] at hmem
      cases hmem
  | @first p hp hleast =>
    cases hb with
    | dry hnil =>
      rw [hnil] at hp
      cases hp
    | @first q hq hleast' =>
      by_contra hne
      have hqp : q ≠ p := fun h => hne (h ▸ rfl)
      have hlt := hleast q hq hqp
      rw [Std.OrientedCmp.gt_of_lt (hleast' p hp hqp.symm)] at hlt
      cases hlt

end Order

/-! ## Entries that wait -/

variable {es : List (Entry κ ν)} {e : Entry κ ν} {served : List (Option (Entry κ ν × Nat))}
  {ps : List (Entry κ ν × Nat)} {p : Entry κ ν × Nat}

/-- The entries were pushed before the one with the given number, and have different numbers. -/
structure Numbered (n : Nat) (ps : List (Entry κ ν × Nat)) : Prop where
  lt : ∀ p ∈ ps, p.2 < n
  nodup : (ps.map Prod.snd).Nodup

theorem numbered_zipIdx (es : List (Entry κ ν)) : Numbered es.length es.zipIdx where
  lt p hp := by simpa using List.snd_lt_add_of_mem_zipIdx hp
  nodup := by
    rw [List.zipIdx_map_snd]
    exact List.nodup_range'

theorem Numbered.of_sublist {n : Nat} {qs : List (Entry κ ν × Nat)} (h : Numbered n ps)
    (hsub : qs.Sublist ps) : Numbered n qs where
  lt p hp := h.lt p (hsub.subset hp)
  nodup := h.nodup.sublist (hsub.map _)

theorem Numbered.eq_of_number_eq {n : Nat} {q : Entry κ ν × Nat} (h : Numbered n ps) (hp : p ∈ ps)
    (hq : q ∈ ps) (heq : p.2 = q.2) : p = q :=
  List.inj_on_of_nodup_map h.nodup hp hq heq

theorem numbered_waiting (es : List (Entry κ ν)) (served : List (Option (Entry κ ν × Nat))) :
    Numbered es.length (waiting es served) :=
  (numbered_zipIdx es).of_sublist List.filter_sublist

theorem Numbered.perm_cons_filter {n : Nat} (h : Numbered n ps) (hp : p ∈ ps) :
    ps.Perm (p :: ps.filter fun q => q.2 ≠ p.2) := by
  have hsame : (ps.filter fun q => q.2 = p.2) = [p] := by
    refine List.perm_singleton.1 ((List.perm_ext_iff_of_nodup ?_ (List.nodup_singleton p)).2 ?_)
    · exact (List.Nodup.of_map _ h.nodup).filter _
    · intro q
      rw [List.mem_filter, List.mem_singleton, decide_eq_true_iff]
      constructor
      · rintro ⟨hq, heq⟩
        exact h.eq_of_number_eq hq hp heq
      · rintro rfl
        exact ⟨hp, rfl⟩
  have hsplit := List.filter_append_perm (fun q => q.2 = p.2) ps
  rw [hsame] at hsplit
  simpa using hsplit.symm

theorem waiting_concat_none : waiting es (served ++ [none]) = waiting es served := by
  simp [waiting]

theorem waiting_concat_some :
    waiting es (served ++ [some p]) = (waiting es served).filter fun q => q.2 ≠ p.2 := by
  rw [waiting, waiting, List.filter_filter]
  refine List.filter_congr fun q _ => ?_
  simp [Bool.and_comm, eq_comm]

theorem waiting_concat_entry (h : ∀ p, some p ∈ served → p.2 < es.length) :
    waiting (es ++ [e]) served = waiting es served ++ [(e, es.length)] := by
  have hnew : (served.all fun a => a.map Prod.snd ≠ some es.length) = true := by
    refine List.all_eq_true.2 fun a ha => decide_eq_true fun heq => ?_
    obtain ⟨p, rfl, hp⟩ := Option.map_eq_some_iff.1 heq
    exact Nat.ne_of_lt (h p ha) hp
  rw [waiting, waiting, List.zipIdx_append, List.filter_append, Nat.zero_add]
  exact congrArg _ (List.filter_cons_of_pos hnew)

/-! ## What is served, request by request -/

section Requests

variable {cmp : κ → κ → Ordering} {tieBreak : TieBreak} {rs : List (Request κ ν)}

theorem serves_nil : Serves cmp tieBreak ([] : List (Request κ ν)) [] where
  length_eq := rfl
  perm := .refl _
  isNext before after h := by cases before <;> cases h

theorem eq_or_of_concat_eq_append {r : Request κ ν} {before after : List (Request κ ν)}
    (h : rs ++ [r] = before ++ .pop :: after) :
    (rs = before ∧ r = .pop) ∨ ∃ after', rs = before ++ .pop :: after' := by
  rcases after.eq_nil_or_concat with rfl | ⟨after', x, rfl⟩
  · obtain ⟨hrs, hr⟩ := List.append_inj' h rfl
    exact .inl ⟨hrs, List.singleton_inj.1 hr⟩
  · rw [List.concat_eq_append, ← List.cons_append, ← List.append_assoc] at h
    exact .inr ⟨after', (List.append_inj' h rfl).1⟩

theorem Serves.number_lt (h : Serves cmp tieBreak rs served) (hp : some p ∈ served) :
    p.2 < (pushed rs).length := by
  refine (numbered_zipIdx (pushed rs)).lt p (h.perm.mem_iff.1 (List.mem_append_left _ ?_))
  exact List.mem_filterMap.2 ⟨some p, hp, rfl⟩

theorem Serves.push (h : Serves cmp tieBreak rs served) (e : Entry κ ν) :
    Serves cmp tieBreak (rs ++ [.push e]) served where
  length_eq := by rw [pops_concat_push, h.length_eq]
  perm := by
    rw [pushed_concat_push, waiting_concat_entry fun p => h.number_lt, List.zipIdx_append,
      ← List.append_assoc]
    exact h.perm.append (by simp)
  isNext before after heq := by
    rcases eq_or_of_concat_eq_append heq with ⟨_, hr⟩ | ⟨after', hrs⟩
    · cases hr
    · exact h.isNext before after' hrs

theorem Serves.pop (h : Serves cmp tieBreak rs served) {answer : Option (Entry κ ν × Nat)}
    (hnext : IsNext cmp tieBreak (waiting (pushed rs) served) answer) :
    Serves cmp tieBreak (rs ++ [.pop]) (served ++ [answer]) where
  length_eq := by rw [pops_concat_pop, List.length_append, h.length_eq, List.length_singleton]
  perm := by
    rw [pushed_concat_pop]
    cases hnext with
    | dry hnil => simpa [waiting_concat_none] using h.perm
    | @first p hp _ =>
      have hperm := (numbered_waiting (pushed rs) served).perm_cons_filter hp
      rw [waiting_concat_some, List.filterMap_append, List.append_assoc]
      exact (hperm.symm.append_left _).trans h.perm
  isNext before after heq := by
    rcases eq_or_of_concat_eq_append heq with ⟨rfl, _⟩ | ⟨after', hrs⟩
    · rw [← h.length_eq, List.take_left]
      exact ⟨answer, by simp, hnext⟩
    · obtain ⟨a, ha, hnext'⟩ := h.isNext before after' hrs
      have hlt : pops before < served.length := h.length_eq ▸ pops_lt hrs
      rw [List.getElem?_append_left hlt, List.take_append_of_le_length (Nat.le_of_lt hlt)]
      exact ⟨a, ha, hnext'⟩

theorem exists_eq_append_of_lt_pops {k : Nat} (h : k < pops rs) :
    ∃ before after, rs = before ++ .pop :: after ∧ pops before = k := by
  induction rs using List.reverseRecOn with
  | nil => cases h
  | append_singleton rs r ih =>
    have hrest : k < pops rs → ∃ before after,
        rs ++ [r] = before ++ .pop :: after ∧ pops before = k := by
      intro hk
      obtain ⟨before, after, rfl, hbefore⟩ := ih hk
      exact ⟨before, after ++ [r], by simp, hbefore⟩
    cases r with
    | push e => exact hrest (by simpa using h)
    | pop =>
      rw [pops_concat_pop] at h
      rcases Nat.lt_or_eq_of_le (Nat.lt_succ_iff.1 h) with hk | rfl
      · exact hrest hk
      · exact ⟨rs, [], rfl, rfl⟩

/-- The requests determine what is served. -/
theorem Serves.unique [Std.TransCmp cmp] {served' : List (Option (Entry κ ν × Nat))}
    (h : Serves cmp tieBreak rs served) (h' : Serves cmp tieBreak rs served') :
    served = served' := by
  have htake : ∀ k ≤ pops rs, served.take k = served'.take k := by
    intro k hk
    induction k with
    | zero => rfl
    | succ k ih =>
      obtain ⟨before, after, hrs, rfl⟩ := exists_eq_append_of_lt_pops hk
      obtain ⟨a, ha, hnext⟩ := h.isNext before after hrs
      obtain ⟨a', ha', hnext'⟩ := h'.isNext before after hrs
      have hsame := ih (Nat.le_of_succ_le hk)
      rw [← hsame] at hnext'
      rw [List.take_add_one, List.take_add_one, hsame, ha, ha', hnext.unique hnext']
  have hall := htake _ (Nat.le_refl _)
  rwa [← h.length_eq, List.take_length, h.length_eq, ← h'.length_eq, List.take_length] at hall

end Requests

/-! ## States that represent what waits -/

/-- How the states of a queue represent the entries that wait, of those that were pushed. Each
request keeps this, as long as fewer entries are pushed than the limit allows. -/
structure Representation (Q : Queue.{u, v, w} κ ν) (cmp : κ → κ → Ordering) (tieBreak : TieBreak)
    (limit : Nat) where
  Holds : Q.State → Nat → List (Entry κ ν × Nat) → Prop
  start : Holds Q.start 0 []
  push {s : Q.State} {n : Nat} {ps : List (Entry κ ν × Nat)} (e : Entry κ ν) :
    Numbered n ps → Holds s n ps → n + 1 < limit → Holds (Q.push s e) (n + 1) (ps ++ [(e, n)])
  pop {s : Q.State} {n : Nat} {ps : List (Entry κ ν × Nat)} : Numbered n ps → Holds s n ps →
    (Q.pop? s = none ∧ ps = []) ∨ ∃ p s', Q.pop? s = some (p.1.node, s') ∧
      IsNext cmp tieBreak ps (some p) ∧ Holds s' n (ps.filter fun q => q.2 ≠ p.2)

theorem Representation.exists_serves {Q : Queue.{u, v, w} κ ν} {cmp : κ → κ → Ordering}
    {tieBreak : TieBreak} {limit : Nat} (R : Q.Representation cmp tieBreak limit)
    {rs : List (Request κ ν)} (hlimit : (pushed rs).length < limit) :
    ∃ served, Serves cmp tieBreak rs served ∧
      Q.answers rs = served.map (Option.map fun p => p.1.node) := by
  -- The last state goes along in the induction.
  suffices hrun : ∃ served, Serves cmp tieBreak rs served ∧
      Q.answers rs = served.map (Option.map fun p => p.1.node) ∧
      R.Holds (Q.run rs).1 (pushed rs).length (waiting (pushed rs) served) by
    obtain ⟨served, hserves, hanswers, _⟩ := hrun
    exact ⟨served, hserves, hanswers⟩
  induction rs using List.reverseRecOn with
  | nil => exact ⟨[], serves_nil, rfl, R.start⟩
  | append_singleton rs r ih =>
    cases r with
    | push e =>
      rw [pushed_concat_push, List.length_append, List.length_singleton] at hlimit
      obtain ⟨served, hserves, hanswers, hholds⟩ := ih (Nat.lt_of_succ_lt hlimit)
      refine ⟨served, hserves.push e, ?_, ?_⟩
      · rw [answers, run_concat]
        exact hanswers
      · rw [run_concat, pushed_concat_push, List.length_append, List.length_singleton,
          waiting_concat_entry fun p => hserves.number_lt]
        exact R.push e (numbered_waiting _ _) hholds hlimit
    | pop =>
      rw [pushed_concat_pop] at hlimit
      obtain ⟨served, hserves, hanswers, hholds⟩ := ih hlimit
      rw [pushed_concat_pop, answers, run_concat]
      rcases R.pop (numbered_waiting _ _) hholds with ⟨hpop, hnil⟩ | ⟨p, s', hpop, hnext, hholds'⟩
      · refine ⟨served ++ [none], hserves.pop (.dry hnil), ?_, ?_⟩
        · rw [serve, hpop, List.map_append, ← hanswers]
          rfl
        · rw [serve, hpop, waiting_concat_none]
          exact hholds
      · refine ⟨served ++ [some p], hserves.pop hnext, ?_, ?_⟩
        · rw [serve, hpop, List.map_append, ← hanswers]
          rfl
        · rw [serve, hpop, waiting_concat_some]
          exact hholds'

end Queue

end LiftedPlanning
