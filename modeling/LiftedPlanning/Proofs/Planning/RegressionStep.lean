import LiftedPlanning.Proofs.Planning.SubgoalPath

/-!
# One step of regression

A regression may be taken wherever the regressed subgoal is verified, in the initial situation or
in any other: under the bindings of the verification its instance is applicable, and afterwards all
literals of the subgoal are true, however the variables are read that are still open. So they match
under the same bindings (`PlanningProblem.applicable_and_matches_of_verified`).
-/

namespace LiftedPlanning

namespace PlanningProblem

variable {p : PlanningProblem} {s : Subgoal} {r : Regression} {S : Situation} {c : Bindings}

/-- If a situation verifies what a regression of a reachable subgoal requires, and the verification
grounds the instance, then the instance is applicable there, and afterwards the literals of the
subgoal match under the same bindings: in all models of these, each of them is true, whether it was
achieved or kept, asserted or denied. -/
theorem applicable_and_matches_of_verified (hactions : ∀ a ∈ p.actions, a.WellFormed)
    (hs : p.backward.Reachable s) (hr : r ∈ s.regressions p.actions) (hS : S.Ground)
    (hverify : (s.regress r).verification? S = some c)
    (hground : (r.inst.ground c).isGround = true) :
    S.applicable (r.inst.ground c) = true ∧
      ((S.apply (r.inst.ground c)).firstMatch? s.literals.toList c).isSome = true ∧
      ∀ m : Assignment, m.Models c → ∀ l ∈ s.literals,
        (S.apply (r.inst.ground c)).holds (m.literal l) = true := by
  have hwell := wellFormed_of_reachable hs
  obtain ⟨_, hsupports⟩ := Subgoal.supports_of_mem_regressions hwell hr
  obtain ⟨hc, htrue⟩ := trueUnder_of_verification? hS hsupports.wellFormed hverify
  have hstep : ∀ m : Assignment, m.Models c → S.applicable (r.inst.ground c) = true ∧
      s.TrueUnder m (S.apply (r.inst.ground c)) := by
    intro m hmc
    obtain ⟨hm, hregress⟩ := htrue m hmc
    exact applicable_and_trueUnder_apply hactions hwell hr hmc hm hregress hground
  obtain ⟨m, hmc⟩ := hc.exists_models
  refine ⟨(hstep m hmc).1, ?_, fun n hn => (hstep n hn).2⟩
  refine Situation.isSome_firstMatch?_of_holds (hS.apply _) hc fun n hn l hl => ?_
  exact (hstep n hn).2 l (SortedSet.mem_toList.1 hl)

/-- Some picture has to hang, but not on nail A, which has to stay free, nor on whichever nail is to
be unused. -/
def hanging : PlanningProblem where
  initial := .ofAtoms []
  actions := [⟨"hang", ["u", "v"],
    [.pos ⟨"picture", [.var "u"]⟩, .pos ⟨"nail", [.var "v"]⟩],
    [.pos ⟨"hanging", [.var "u"]⟩, .neg ⟨"free", [.var "v"]⟩, .pos ⟨"used", [.var "v"]⟩]⟩]
  goal := ⟨[.pos ⟨"hanging", [.var "x"]⟩, .pos ⟨"free", [.const "A"]⟩,
    .neg ⟨"used", [.var "z"]⟩]⟩
  rules := []
  heuristic := .blind

def hangingRegression : Regression where
  inst := .lifted ⟨"hang", ["u", "v"],
    [.pos ⟨"picture", [.var "u"]⟩, .pos ⟨"nail", [.var "v"]⟩],
    [.pos ⟨"hanging", [.var "u"]⟩, .neg ⟨"free", [.var "v"]⟩, .pos ⟨"used", [.var "v"]⟩]⟩ ⟨1⟩
  achieved := .ofList [⟨.goal, .pos ⟨"hanging", [.var "x"]⟩⟩]
  bindings := ⟨SortedMap.empty.insert ⟨⟨1⟩, "u"⟩ ⟨.goal, "x"⟩, .empty,
    .ofList [.of (.object "A") (.unbound ⟨⟨1⟩, "v"⟩),
      .of (.unbound ⟨.goal, "z"⟩) (.unbound ⟨⟨1⟩, "v"⟩)]⟩

def hangingSituation : Situation :=
  .ofAtoms [⟨"picture", [.const "P"]⟩, ⟨"nail", [.const "A"]⟩, ⟨"nail", [.const "B"]⟩,
    ⟨"free", [.const "A"]⟩, ⟨"free", [.const "B"]⟩]

def hangingVerification : Bindings :=
  ⟨SortedMap.empty.insert ⟨⟨1⟩, "u"⟩ ⟨.goal, "x"⟩,
    (SortedMap.empty.insert ⟨.goal, "x"⟩ "P").insert ⟨⟨1⟩, "v"⟩ "B",
    .ofList [.of (.object "B") (.unbound ⟨.goal, "z"⟩)]⟩

theorem applicable_and_matches_hanging :
    ((Subgoal.ofGoal hanging.goal).regress hangingRegression).verification? hangingSituation =
        some hangingVerification ∧
      hangingSituation.applicable (hangingRegression.inst.ground hangingVerification) = true ∧
      ((hangingSituation.apply (hangingRegression.inst.ground hangingVerification)).firstMatch?
        (Subgoal.ofGoal hanging.goal).literals.toList hangingVerification).isSome = true := by
  have hs : hanging.backward.Reachable (.ofGoal hanging.goal) := .initial
  have hverify : ((Subgoal.ofGoal hanging.goal).regress hangingRegression).verification?
      hangingSituation = some hangingVerification := by decide
  obtain ⟨happlicable, hmatch, _⟩ :=
    applicable_and_matches_of_verified (by decide) hs (by decide) (Situation.ground_ofAtoms _)
      hverify (by decide)
  exact ⟨hverify, happlicable, hmatch⟩

end PlanningProblem

end LiftedPlanning
