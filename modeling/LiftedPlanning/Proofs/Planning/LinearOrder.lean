import LiftedPlanning.Proofs.Order.Countdown
import LiftedPlanning.Proofs.Planning.ReachableSkeleton

/-!
# The least order of the steps

The first step of the frame precedes all others, and the last one comes after all others, so that
they stand at the ends of each linear order of the steps (`Skeleton.Assembled.linearize_eq`). What
stands between them is the least list, in the lexicographic order of the steps, that names each
proper step once and none before one that precedes it. Where the precedences form cycles, just the
steps are listed that neither lie on a cycle nor come after one
(`PlanningProblem.linearize_least_and_countdown`).
-/

namespace LiftedPlanning

theorem compare_append_right {α : Type*} [Ord α] [Std.TransOrd α] {xs ys : List α} (zs : List α)
    (h : xs.length = ys.length) : compare (xs ++ zs) (ys ++ zs) = compare xs ys := by
  induction xs generalizing ys with
  | nil =>
    cases List.length_eq_zero_iff.1 h.symm
    rw [Std.ReflOrd.compare_self, Std.ReflOrd.compare_self]
  | cons x xs ih =>
    cases ys with
    | nil => cases h
    | cons y ys =>
      rw [List.cons_append, List.cons_append, List.compare_cons_cons, List.compare_cons_cons,
        ih (Nat.succ.inj h)]

namespace Skeleton

variable {S : Situation} {g : Goal} {s : Skeleton} {a b : Instance} {order : List Instance}

/-- Each proper step once, and none before one that precedes it. -/
structure ProperOrder (s : Skeleton) (order : List Instance) : Prop where
  nodup : order.Nodup
  mem_iff : ∀ a, a ∈ order ↔ a ∈ s.steps ∧ a ≠ s.start ∧ a ≠ s.finish
  pairwise : order.Pairwise fun a b => s.precedes b a = false

theorem ProperOrder.perm (h : s.ProperOrder order) : order.Perm s.properSteps :=
  (List.perm_ext_iff_of_nodup h.nodup s.nodup_properSteps).2 fun a =>
    (h.mem_iff a).trans mem_properSteps.symm

theorem Assembled.respects_of_properOrder (h : s.Assembled S g) (horder : s.ProperOrder order) :
    Chain.Respects s.pairs (s.start :: (order ++ [s.finish])) := by
  refine h.respects horder.perm (horder.pairwise.imp fun hba hmem => ?_)
  rw [precedes, Chain.leads_of_mem (mem_pairs.2 hmem)] at hba
  cases hba

theorem nodup_pairs (s : Skeleton) : s.pairs.Nodup := by
  refine (SortedSet.nodup_toList s.precedences).map fun p q hpq => ?_
  cases p
  cases q
  cases hpq
  rfl

theorem Assembled.properOrder_linearize (h : s.Assembled S g) (hacyclic : s.isAcyclic = true) :
    s.ProperOrder s.linearize where
  nodup := (h.perm_linearize hacyclic).nodup_iff.2 s.nodup_properSteps
  mem_iff _ := (h.mem_linearize hacyclic).trans mem_properSteps
  pairwise := by
    refine ((Chain.pairwise_linearize s.steps.nodup_toList).filter _).imp fun hba => ?_
    exact Bool.eq_false_iff.2 fun hleads => hba (Chain.leads_iff.1 hleads)

theorem Assembled.mem_linearize_pairs (h : s.Assembled S g) (hacyclic : Chain.Acyclic s.pairs) :
    a ∈ Chain.linearize s.pairs s.steps.toList ↔ a ∈ s.steps := by
  rw [Chain.mem_linearize_iff fun p hp => (h.orderly ⟨p.1, p.2⟩ (mem_pairs.1 hp)).first_mem]
  exact and_iff_left fun c hc => absurd hc (hacyclic c)

/-- In the order of all steps the frame stands around the proper ones. -/
theorem Assembled.linearize_eq (h : s.Assembled S g) (hacyclic : Chain.Acyclic s.pairs) :
    Chain.linearize s.pairs s.steps.toList = s.start :: (s.linearize ++ [s.finish]) := by
  have hnodup : (Chain.linearize s.pairs s.steps.toList).Nodup :=
    Chain.nodup_linearize s.steps.nodup_toList
  have hpairwise : (Chain.linearize s.pairs s.steps.toList).Pairwise fun a b =>
      ¬ Chain.Leads s.pairs b a := Chain.pairwise_linearize s.steps.nodup_toList
  have hmem : ∀ a, a ∈ Chain.linearize s.pairs s.steps.toList ↔ a ∈ s.steps := fun _ =>
    h.mem_linearize_pairs hacyclic
  rw [linearize]
  generalize Chain.linearize s.pairs s.steps.toList = all at hnodup hpairwise hmem
  -- Nothing stands before the first step, which leads to all others.
  obtain ⟨before, rest, rfl⟩ := List.append_of_mem ((hmem _).2 h.start_mem)
  have hbefore : before = [] := by
    refine List.eq_nil_iff_forall_not_mem.2 fun a ha => ?_
    obtain ⟨_, _, hne⟩ := List.nodup_append.1 hnodup
    have hleads := h.start_first a ((hmem a).1 (List.mem_append_left _ ha))
      (hne a ha s.start (List.mem_cons_self ..))
    exact (List.pairwise_append.1 hpairwise).2.2 a ha s.start (List.mem_cons_self ..)
      (.single (mem_pairs.2 hleads))
  subst hbefore
  rw [List.nil_append] at hnodup hpairwise hmem ⊢
  -- Nothing stands behind the last step, to which all others lead.
  have hfinish := (List.mem_cons.1 ((hmem _).2 h.finish_mem)).resolve_left h.start_ne_finish.symm
  obtain ⟨proper, after, rfl⟩ := List.append_of_mem hfinish
  obtain ⟨hstart, hnodup⟩ := List.nodup_cons.1 hnodup
  obtain ⟨_, hlast, hne⟩ := List.nodup_append.1 hnodup
  have hafter : after = [] := by
    refine List.eq_nil_iff_forall_not_mem.2 fun a ha => ?_
    have hstep := (hmem a).1
      (List.mem_cons_of_mem _ (List.mem_append_right _ (List.mem_cons_of_mem _ ha)))
    have hleads := h.finish_last a hstep fun heq => (List.nodup_cons.1 hlast).1 (heq ▸ ha)
    have hlater := (List.pairwise_append.1 (List.pairwise_cons.1 hpairwise).2).2.1
    exact List.rel_of_pairwise_cons hlater ha (.single (mem_pairs.2 hleads))
  subst hafter
  have hproper : proper.filter s.isProper = proper := by
    refine List.filter_eq_self.2 fun a ha => ?_
    rw [isProper, Bool.and_eq_true, decide_eq_true_iff, decide_eq_true_iff]
    refine ⟨?_, hne a ha s.finish (List.mem_cons_self ..)⟩
    rintro rfl
    exact hstart (List.mem_append_left _ ha)
  simp [List.filter_append, hproper, isProper]

theorem Assembled.isLE_compare_linearize (h : s.Assembled S g) (hacyclic : Chain.Acyclic s.pairs)
    (horder : s.ProperOrder order) : (compare s.linearize order).isLE = true := by
  have hperm := (h.properOrder_linearize (h.isAcyclic_iff.2 hacyclic)).perm.trans horder.perm.symm
  have hall : (s.start :: (order ++ [s.finish])).Perm s.steps.toList := by
    refine (List.perm_ext_iff_of_nodup (h.respects_of_properOrder horder).nodup
      s.steps.nodup_toList).2 fun a => ?_
    rw [SortedSet.mem_toList, ← h.mem_linearize_pairs hacyclic, h.linearize_eq hacyclic]
    simp only [List.mem_cons, List.mem_append, hperm.mem_iff]
  have hle := Chain.isLE_compare_linearize s.steps.ascending (h.respects_of_properOrder horder) hall
  rw [h.linearize_eq hacyclic, List.compare_cons_cons, Std.ReflOrd.compare_self] at hle
  rwa [Ordering.eq_then, compare_append_right _ hperm.length_eq] at hle

end Skeleton

namespace PlanningProblem

/-- The linear order of a skeleton that refinements reach names each proper step once, none before
one that precedes it, and no other such order comes before it. For any precedences between the steps
of a skeleton, whether or not they form cycles, counting down never takes a count below zero, and it
lists once each just the steps that neither lie on a cycle nor come after one; the linear order are
the proper steps among them. -/
theorem linearize_least_and_countdown (p : PlanningProblem) :
    (∀ root s, Skeleton.ofGoal p.initial p.goal = .ok root → (p.refinement root).Reachable s →
      s.ProperOrder s.linearize ∧
        ∀ order, s.ProperOrder order → (compare s.linearize order).isLE = true) ∧
    ∀ s : Skeleton, (∀ q ∈ s.precedences, q.first ∈ s.steps ∧ q.second ∈ s.steps) →
      ∃ order, Chain.countdown? s.pairs s.steps = some order ∧ order.Nodup ∧
        (∀ a, a ∈ order ↔ a ∈ s.steps ∧
          ∀ c, Chain.Leads s.pairs c c → c ≠ a ∧ ¬ Chain.Leads s.pairs c a) ∧
        s.linearize = order.filter s.isProper := by
  refine ⟨fun root s hroot hs => ?_, fun s hends => ?_⟩
  · obtain ⟨h, hacyclic⟩ := assembled_and_acyclic_of_reachable hroot hs
    exact ⟨h.properOrder_linearize (h.isAcyclic_iff.2 hacyclic),
      fun order horder => h.isLE_compare_linearize hacyclic horder⟩
  · have hpairs : ∀ q ∈ s.pairs, q.1 ∈ s.steps ∧ q.2 ∈ s.steps := fun q hq =>
      hends ⟨q.1, q.2⟩ (Skeleton.mem_pairs.1 hq)
    refine ⟨Chain.linearize s.pairs s.steps.toList, ?_, ?_, fun a => ?_, rfl⟩
    · exact Chain.countdown?_eq_some s.nodup_pairs fun q hq => (hpairs q hq).2
    · exact Chain.nodup_linearize s.steps.nodup_toList
    · exact Chain.mem_linearize_iff fun q hq => (hpairs q hq).1

def unlocking : PlanningProblem where
  initial := .ofAtoms []
  actions := [⟨"open", [], [.pos ⟨"unlocked", []⟩], [.pos ⟨"open", []⟩]⟩,
    ⟨"unlock", [], [], [.pos ⟨"unlocked", []⟩]⟩]
  goal := ⟨[.pos ⟨"open", []⟩]⟩
  rules := []
  heuristic := .blind

def unlockingRoot : Skeleton :=
  .frame (.lifted ⟨"start", [], [], []⟩ ⟨1⟩)
    (.lifted ⟨"finish", [], unlocking.goal.literals, []⟩ ⟨2⟩)

def openStep : Instance :=
  .lifted ⟨"open", [], [.pos ⟨"unlocked", []⟩], [.pos ⟨"open", []⟩]⟩ ⟨3⟩

def unlockStep : Instance := .lifted ⟨"unlock", [], [], [.pos ⟨"unlocked", []⟩]⟩ ⟨4⟩

def openAddition : Refinement :=
  .addStep openStep ⟨unlockingRoot.finish, ⟨⟨2⟩, .pos ⟨"open", []⟩⟩⟩ .empty

def unlockAddition : Refinement :=
  .addStep unlockStep ⟨openStep, ⟨⟨3⟩, .pos ⟨"unlocked", []⟩⟩⟩ .empty

def unlockingSkeleton : Skeleton := (unlockingRoot.refine openAddition).refine unlockAddition

theorem reachable_unlockingSkeleton :
    (unlocking.refinement unlockingRoot).Reachable unlockingSkeleton := by
  have hroot : (unlocking.refinement unlockingRoot).Reachable unlockingRoot := .initial
  have hopen : openAddition ∈ unlockingRoot.refinements unlocking.initial unlocking.actions :=
    of_decide_eq_true (by cbv)
  have hunlock : unlockAddition ∈
      (unlockingRoot.refine openAddition).refinements unlocking.initial unlocking.actions :=
    of_decide_eq_true (by cbv)
  exact (hroot.apply hopen).apply hunlock

def deadlock : Skeleton := unlockingSkeleton.order ⟨openStep, unlockStep⟩

/-- The step that was added last comes first. If the two steps have to precede each other, the first
step of the frame is the only one to be listed. -/
theorem linearize_unlocking :
    (unlockingSkeleton.ProperOrder [unlockStep, openStep] ∧
      ∀ order, unlockingSkeleton.ProperOrder order →
        (compare [unlockStep, openStep] order).isLE = true) ∧
      ∃ order, Chain.countdown? deadlock.pairs deadlock.steps = some order ∧
        ∀ a, a ∈ order ↔ a = deadlock.start := by
  have hroot : Skeleton.ofGoal unlocking.initial unlocking.goal = .ok unlockingRoot := by rfl
  have hlinear : unlockingSkeleton.linearize = [unlockStep, openStep] := by cbv
  have hends : ∀ q ∈ deadlock.precedences,
      q.first ∈ deadlock.steps ∧ q.second ∈ deadlock.steps := by decide
  obtain ⟨hleast, hcount⟩ := linearize_least_and_countdown unlocking
  refine ⟨hlinear ▸ hleast _ _ hroot reachable_unlockingSkeleton, ?_⟩
  obtain ⟨order, hsome, _, hmem, _⟩ := hcount deadlock hends
  refine ⟨order, hsome, fun a => (hmem a).trans ⟨?_, ?_⟩⟩
  · rintro ⟨ha, hclean⟩
    have hunlock : (openStep, unlockStep) ∈ deadlock.pairs := by decide
    have hopen : (unlockStep, openStep) ∈ deadlock.pairs := by decide
    have hfinish : (openStep, deadlock.finish) ∈ deadlock.pairs := by decide
    have hsteps : ∀ a ∈ deadlock.steps.toList,
        a = deadlock.start ∨ a = deadlock.finish ∨ a = openStep ∨ a = unlockStep := by decide
    obtain ⟨hne, hleads⟩ := hclean openStep (.tail (.single hunlock) hopen)
    rcases hsteps a ha with rfl | rfl | rfl | rfl
    · rfl
    · exact absurd (.single hfinish) hleads
    · exact absurd rfl hne
    · exact absurd (.single hunlock) hleads
  · rintro rfl
    have hfree : Chain.isFree deadlock.pairs deadlock.start = true := by decide
    refine ⟨by decide, fun c hc => ⟨?_, Chain.not_leads_of_isFree hfree⟩⟩
    rintro rfl
    exact Chain.not_leads_of_isFree hfree hc

end PlanningProblem

end LiftedPlanning
