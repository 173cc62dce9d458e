import Mathlib.Data.Prod.Lex
import LiftedPlanning.Proofs.Planning.ReachableSkeleton
import LiftedPlanning.Proofs.Planning.SkeletonPath
import LiftedPlanning.Proofs.Search.Descent
import LiftedPlanning.Proofs.Skeleton.Threats

/-!
# Refinements that cost nothing

A refinement that adds no step leaves fewer open preconditions, or as many and fewer threats
(`Skeleton.Assembled.flaws_refine_lt`), since it makes nothing a threat that was none. Such
refinements therefore come to an end, and skeletons with few steps are few
(`PlanningProblem.mends_and_infinite_addSteps_and_finite`).
-/

namespace LiftedPlanning

namespace Skeleton

variable {S : Situation} {g : Goal} {s : Skeleton} {r : Refinement} {actions : List Action}

/-- The numbers of open preconditions and of threats, the first one counting most. -/
def flaws (s : Skeleton) : Nat ×ₗ Nat := toLex (s.openConditions.length, s.threats.length)

/-- What a refinement without a new step repairs: the first threat, or one open precondition. -/
def Mends (s : Skeleton) : Refinement → Prop
  | .order q =>
    (s.order q).openConditions = s.openConditions ∧
      ∃ t ts, s.threats = t :: ts ∧
        (q = ⟨t.step, t.link.producer⟩ ∨ q = ⟨t.link.consumer, t.step⟩) ∧
        t ∉ (s.order q).threats
  | .separate step k c =>
    (s.rebind c).openConditions = s.openConditions ∧
      ∃ ts, s.threats = ⟨step, k⟩ :: ts ∧ ⟨step, k⟩ ∉ (s.rebind c).threats
  | .link producer o c => (s.link producer o c).openConditions.length + 1 = s.openConditions.length
  | .addStep _ _ _ => True

theorem Assembled.mends (h : s.Assembled S g) (hr : r ∈ s.refinements S actions) :
    s.Mends r := by
  cases hthreats : s.threats with
  | nil =>
    cases offers_of_mem_refinements hr with
    | order threat _ _ => rw [hthreats] at threat; cases threat
    | separate threat _ => rw [hthreats] at threat; cases threat
    | link condition _ _ _ => exact length_openConditions_link condition
    | addStep _ _ _ _ => exact trivial
  | cons t ts =>
    have hrepair : r ∈ s.repairs t := refinements_of_threats hthreats S actions ▸ hr
    have hgone := not_mem_threats_of_mem_repairs h.wellFormed hrepair
    rcases mem_repairs.1 hrepair with ⟨rfl, _⟩ | ⟨rfl, _⟩ | ⟨c, _, rfl⟩
    · exact ⟨rfl, t, ts, hthreats, .inl rfl, hgone⟩
    · exact ⟨rfl, t, ts, hthreats, .inr rfl, hgone⟩
    · exact ⟨rfl, ts, hthreats, hgone⟩

theorem Assembled.flaws_refine_lt (h : s.Assembled S g) (hr : r ∈ s.refinements S actions)
    (hcost : r.newSteps = 0) : (s.refine r).flaws < s.flaws := by
  refine Prod.Lex.toLex_lt_toLex.2 ?_
  have hmends := h.mends hr
  have hfewer : ∀ {t ts}, s.threats = t :: ts →
      (s.refine r).threats.length < s.threats.length := fun hthreats => by
    rw [← threatCount_eq_length, ← threatCount_eq_length]
    exact h.threatCount_refine_lt hthreats hr
  cases r with
  | order q =>
    obtain ⟨hopen, t, ts, hthreats, _, _⟩ := hmends
    exact .inr ⟨congrArg List.length hopen, hfewer hthreats⟩
  | separate step k c =>
    obtain ⟨hopen, ts, hthreats, _⟩ := hmends
    exact .inr ⟨congrArg List.length hopen, hfewer hthreats⟩
  | link producer o c => exact .inl (Nat.lt_of_succ_le (Nat.le_of_eq hmends))
  | addStep step o c => cases hcost

end Skeleton

namespace PlanningProblem

variable {p : PlanningProblem} {root s : Skeleton}

theorem descends_flaws (hroot : Skeleton.ofGoal p.initial p.goal = .ok root) :
    (p.refinement root).Descends Skeleton.flaws := by
  intro s hs r hr hcost
  obtain ⟨h, _⟩ := assembled_and_acyclic_of_reachable hroot hs
  exact h.flaws_refine_lt hr hcost

/-- Every skeleton that is reached lies on a path, since none of them is rejected. -/
theorem exists_path_of_reachable (hroot : Skeleton.ofGoal p.initial p.goal = .ok root)
    (hs : (p.refinement root).Reachable s) : ∃ rs, (p.refinement root).Path root rs s := by
  induction hs with
  | initial => exact ⟨[], .nil root⟩
  | apply hs hoffered ih =>
    obtain ⟨rs, hpath⟩ := ih
    exact ⟨_, hpath.concat hoffered (isValid_of_reachable hroot (hs.apply hoffered))⟩

theorem finite_of_length_properSteps_le (hroot : Skeleton.ofGoal p.initial p.goal = .ok root)
    (n : Nat) : {s | (p.refinement root).Reachable s ∧ s.properSteps.length ≤ n}.Finite := by
  refine ((descends_flaws hroot).finite_of_totalCost_le .initial n).subset ?_
  rintro s ⟨hs, hlength⟩
  obtain ⟨rs, hpath⟩ := exists_path_of_reachable hroot hs
  obtain ⟨hassembled, _⟩ := assembled_and_acyclic_of_reachable hroot .initial
  have hcost := length_properSteps_of_path hassembled hpath
  exact ⟨rs, hpath, by omega⟩

/-- Nothing that an offered refinement of a reachable skeleton leaves in place becomes a threat. An
order or a separation keeps the open preconditions and removes the threat that it repairs, and a
link closes one of them, so that refinements that cost nothing leave fewer open preconditions, or
as many and fewer threats. Whoever refines without an end thus adds infinitely many steps, and there
are finitely many skeletons with a bounded number of proper steps. -/
theorem mends_and_infinite_addSteps_and_finite
    (hroot : Skeleton.ofGoal p.initial p.goal = .ok root) :
    (∀ s, (p.refinement root).Reachable s → ∀ r ∈ (p.refinement root).options s,
      (∀ a ∈ s.steps, ∀ k ∈ s.links, ⟨a, k⟩ ∉ s.threats → ⟨a, k⟩ ∉ (s.refine r).threats) ∧
      s.Mends r ∧
      ((p.refinement root).cost r = 0 → (s.refine r).flaws < s.flaws)) ∧
    (∀ states rs, (p.refinement root).Reachable (states 0) →
      (p.refinement root).Endless states rs →
        {n | ∃ step o c, rs n = .addStep step o c}.Infinite) ∧
    ∀ n, {s | (p.refinement root).Reachable s ∧ s.properSteps.length ≤ n}.Finite := by
  refine ⟨fun s hs r hr => ?_, fun states rs hstart hendless => ?_,
    finite_of_length_properSteps_le hroot⟩
  · obtain ⟨h, _⟩ := assembled_and_acyclic_of_reachable hroot hs
    refine ⟨fun a ha k hk hnone ht => hnone ?_, h.mends hr, h.flaws_refine_lt hr⟩
    exact h.mem_threats_of_refine hr ht ha hk
  · refine (hendless.infinite_cost_ne_zero (descends_flaws hroot) hstart).mono fun n hn => ?_
    cases hrefinement : rs n with
    | addStep step o c => exact ⟨step, o, c, hrefinement⟩
    | link _ _ _ => exact absurd (congrArg Refinement.newSteps hrefinement) hn
    | order _ => exact absurd (congrArg Refinement.newSteps hrefinement) hn
    | separate _ _ _ => exact absurd (congrArg Refinement.newSteps hrefinement) hn

/-- To use another nail costs nothing and leaves fewer flaws, and something can be hung up in
finitely many ways with at most three more steps. -/
theorem flaws_and_finite_nailing :
    (nailingThreatened.refine nailingSeparation).flaws < nailingThreatened.flaws ∧
      {s | (nailing.refinement nailingRoot).Reachable s ∧ s.properSteps.length ≤ 3}.Finite := by
  have hroot : Skeleton.ofGoal nailing.initial nailing.goal = .ok nailingRoot := by rfl
  have hoffered : nailingSeparation ∈
      nailingThreatened.refinements nailing.initial nailing.actions := of_decide_eq_true (by cbv)
  obtain ⟨hrefine, _, hfinite⟩ := mends_and_infinite_addSteps_and_finite hroot
  obtain ⟨_, _, hflaws⟩ := hrefine _ reachable_nailingThreatened nailingSeparation hoffered
  exact ⟨hflaws rfl, hfinite 3⟩

end PlanningProblem

end LiftedPlanning
