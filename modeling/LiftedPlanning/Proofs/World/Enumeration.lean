import LiftedPlanning.Proofs.Bindings.Request
import LiftedPlanning.Proofs.World.Matching
import Mathlib.Data.List.Basic

/-!
# The list of all matchings

A matching of literals is determined by the facts that it takes the asserted ones for
(`Situation.models_iff_atoms_eq`). The facts of the matchings come in lexicographic order, each list
of facts once (`Situation.pairwise_groundAtoms`), and they are the lists of facts for which the
asserted literals can be taken such that the denied ones are absent
(`Situation.mem_map_groundAtoms_iff`). A visitor is passed the matchings in this order and, if it
stops the walk, no other ones than those up to there (`Situation.run_forM_noteUntil_of_stop`).
-/

namespace LiftedPlanning

def Assignment.atoms (m : Assignment) (ls : List ScopedLiteral) : List Atom :=
  ls.map fun l => (m.literal l).atom

def Bindings.groundAtoms (c : Bindings) (ls : List ScopedLiteral) : List Atom :=
  ls.filterMap fun l => c.ground? l.scope l.atom

namespace Situation

def asserted (ls : List ScopedLiteral) : List ScopedLiteral := ls.filter fun l => !l.negated

/-- The asserted literals can be taken for the given facts, and no denied one is a fact if they
are. -/
structure Selects (S : Situation) (c : Bindings) (ls : List ScopedLiteral) (facts : List Atom) :
    Prop where
  mem_facts : ∀ a ∈ facts, a ∈ S.facts
  exists_models : ∃ m : Assignment, m.Models c ∧ m.atoms (asserted ls) = facts
  absent : ∀ m : Assignment, m.Models c → m.atoms (asserted ls) = facts →
    ∀ l ∈ ls, l.negated = true → (m.literal l).atom ∉ S.facts

variable {S : Situation} {c c' d e : Bindings} {m : Assignment} {l : ScopedLiteral} {fact : Atom}
  {negatives ls : List ScopedLiteral}

/-! ## The facts of a matching -/

theorem groundAtoms_eq_atoms (hS : S.Ground) (h : c.WellFormed)
    (hd : d ∈ S.matchingsFrom negatives ls c) (hm : m.Models d) :
    d.groundAtoms ls = m.atoms ls := by
  rw [Bindings.groundAtoms, Assignment.atoms, ← List.filterMap_eq_map]
  refine List.filterMap_congr fun l hl => ?_
  obtain ⟨fact, _, hfact⟩ := exists_fact_of_mem_matchingsFrom hS h hd hl
  have hwell := wellFormed_of_mem_matchingsFrom h hd
  exact hwell.ground?_eq_some_iff_atom_eq.2 fun n hn => (hfact n hn).trans (hfact m hm).symm

theorem groundAtoms_asserted_eq_atoms (hS : S.Ground) (h : c.WellFormed)
    (hd : d ∈ S.matchings ls c) (hm : m.Models d) :
    d.groundAtoms (asserted ls) = m.atoms (asserted ls) :=
  groundAtoms_eq_atoms hS h hd hm

/-- The models of a matching are those that take the asserted literals for its facts. -/
theorem models_iff_atoms_eq (hS : S.Ground) (h : c.WellFormed)
    (hd : d ∈ S.matchingsFrom negatives ls c) :
    m.Models d ↔ m.Models c ∧ m.atoms ls = d.groundAtoms ls := by
  constructor
  · intro hm
    exact ⟨((models_matchingsFrom hS h).1 ⟨d, hd, hm⟩).1, (groundAtoms_eq_atoms hS h hd hm).symm⟩
  · rintro ⟨hm, hatoms⟩
    obtain ⟨n, hn⟩ := (wellFormed_of_mem_matchingsFrom h hd).exists_models
    rw [groundAtoms_eq_atoms hS h hd hn] at hatoms
    exact models_of_atoms_eq hS h hd hn hm (List.map_inj_left.1 hatoms)

theorem groundAtoms_cons (hS : S.Ground) (h : c.WellFormed) (hfact : fact ∈ S.candidates l.atom)
    (hc' : matchFact? c l fact = some c') (hd : d ∈ S.matchingsFrom negatives ls c') :
    d.groundAtoms (l :: ls) = fact :: d.groundAtoms ls := by
  have hwell := wellFormed_matchFact? h hc'
  have hground : d.ground? l.scope l.atom = some fact := by
    refine (wellFormed_of_mem_matchingsFrom hwell hd).ground?_eq_some_iff_atom_eq.2 fun m hm => ?_
    have hmc' := ((models_matchingsFrom hS hwell).1 ⟨d, hd, hm⟩).1
    exact ((models_matchFact? h (hS fact (mem_candidates.1 hfact).1)).1 ⟨c', hc', hmc'⟩).2
  exact List.filterMap_cons_some hground

theorem pairwise_groundAtoms (hS : S.Ground) (h : c.WellFormed) :
    (S.matchingsFrom negatives ls c).Pairwise fun d e =>
      compare (d.groundAtoms ls) (e.groundAtoms ls) = .lt := by
  induction ls generalizing c with
  | nil =>
    rw [matchingsFrom]
    split
    · exact List.pairwise_singleton _ _
    · exact .nil
  | cons l ls ih =>
    rw [matchingsFrom, List.pairwise_flatMap]
    constructor
    -- Matchings that choose the same fact for the first literal.
    · intro fact hfact
      split
      · next c' hc' =>
        refine (ih (wellFormed_matchFact? h hc')).imp_of_mem fun {d e} hd he hlt => ?_
        rw [groundAtoms_cons hS h hfact hc' hd, groundAtoms_cons hS h hfact hc' he]
        refine List.compareLex_cons_cons.trans ?_
        rw [Std.ReflOrd.compare_self]
        exact hlt
      · exact .nil
    -- Matchings that choose different facts, in the order of the facts.
    · refine (S.facts.ascending.filter _).imp_of_mem fun {f g} hf hg hlt => ?_
      intro d hd e he
      split at hd
      · next c' hc' =>
        split at he
        · next c'' hc'' =>
          rw [groundAtoms_cons hS h hf hc' hd, groundAtoms_cons hS h hg hc'' he]
          refine List.compareLex_cons_cons.trans ?_
          rw [hlt]
          rfl
        · cases he
      · cases hd

/-- The facts of the matchings are all those that the literals select. -/
theorem mem_map_groundAtoms_iff (hS : S.Ground) (h : c.WellFormed) {facts : List Atom} :
    facts ∈ (S.matchings ls c).map (·.groundAtoms (asserted ls)) ↔ S.Selects c ls facts := by
  rw [List.mem_map]
  constructor
  · rintro ⟨d, hd, rfl⟩
    obtain ⟨m, hm⟩ := (wellFormed_of_mem_matchings h hd).exists_models
    obtain ⟨hmc, hfacts, habsent⟩ := (models_matchingsFrom hS h).1 ⟨d, hd, hm⟩
    rw [groundAtoms_asserted_eq_atoms hS h hd hm]
    refine ⟨fun a ha => ?_, ⟨m, hmc, rfl⟩, fun n hn hatoms l hl hneg => ?_⟩
    · obtain ⟨l, hl, rfl⟩ := List.mem_map.1 ha
      exact hfacts l hl
    · exact habsent n hn (List.map_inj_left.1 hatoms) l (List.mem_filter.2 ⟨hl, hneg⟩)
  · rintro ⟨hfacts, ⟨m, hm, rfl⟩, habsent⟩
    have hmatching : ∃ d ∈ S.matchings ls c, m.Models d := by
      refine (models_matchingsFrom hS h).2 ⟨hm, fun l hl => ?_, fun n hn hatoms l hl => ?_⟩
      · exact hfacts _ (List.mem_map_of_mem hl)
      · obtain ⟨hl, hneg⟩ := List.mem_filter.1 hl
        exact habsent n hn (List.map_inj_left.2 hatoms) l hl hneg
    obtain ⟨d, hd, hm⟩ := hmatching
    exact ⟨d, hd, groundAtoms_asserted_eq_atoms hS h hd hm⟩

/-! ## Stopping the walk -/

/-- A visitor that notes what it is passed and decides by this when to stop. -/
def noteUntil (stop : List Bindings → Bool) (d : Bindings) :
    ExceptT Unit (StateM (List Bindings)) Unit :=
  fun seen => (if stop (seen ++ [d]) then .error () else .ok (), seen ++ [d])

variable {stop : List Bindings → Bool} {ds seen : List Bindings}

theorem run_forM_noteUntil_cons :
    (forM (d :: ds) (noteUntil stop)).run.run seen =
      if stop (seen ++ [d]) then (.error (), seen ++ [d])
      else (forM ds (noteUntil stop)).run.run (seen ++ [d]) := by
  have hstep : (noteUntil stop d).run.run seen =
      (if stop (seen ++ [d]) then .error () else .ok (), seen ++ [d]) := rfl
  rw [List.forM_cons, ExceptT.run_bind, StateT.run_bind, hstep]
  split
  · rfl
  · rfl

theorem run_forM_noteUntil_of_forall (seen : List Bindings)
    (hstop : ∀ k, 0 < k → k ≤ ds.length → stop (seen ++ ds.take k) = false) :
    (forM ds (noteUntil stop)).run.run seen = (.ok (), seen ++ ds) := by
  induction ds generalizing seen with
  | nil =>
    rw [List.append_nil]
    rfl
  | cons d ds ih =>
    have hfirst : stop (seen ++ [d]) = false := hstop 1 Nat.one_pos (Nat.succ_pos _)
    rw [run_forM_noteUntil_cons, hfirst, if_neg Bool.noConfusion, ih, List.append_assoc]
    · rfl
    · intro k _ hk
      rw [List.append_assoc]
      exact hstop (k + 1) k.succ_pos (Nat.succ_le_succ hk)

theorem run_forM_noteUntil_of_stop (seen : List Bindings) {n : Nat} (hn : n < ds.length)
    (hstop : stop (seen ++ ds.take (n + 1)) = true)
    (hbefore : ∀ k, 0 < k → k ≤ n → stop (seen ++ ds.take k) = false) :
    (forM ds (noteUntil stop)).run.run seen = (.error (), seen ++ ds.take (n + 1)) := by
  induction ds generalizing seen n with
  | nil => cases hn
  | cons d ds ih =>
    rw [run_forM_noteUntil_cons]
    cases n with
    | zero =>
      rw [List.take_succ_cons, List.take_zero] at hstop ⊢
      rw [if_pos hstop]
    | succ n =>
      have hfirst : stop (seen ++ [d]) = false := hbefore 1 Nat.one_pos (Nat.succ_pos _)
      have hshift : ∀ k, (seen ++ [d]) ++ ds.take k = seen ++ (d :: ds).take (k + 1) := fun k =>
        List.append_assoc ..
      rw [hfirst, if_neg Bool.noConfusion, ← hshift]
      refine ih _ (Nat.lt_of_succ_lt_succ hn) ((hshift _).symm ▸ hstop) fun k _ hk => ?_
      rw [hshift]
      exact hbefore (k + 1) k.succ_pos (Nat.succ_le_succ hk)

/-! ## All matchings -/

/-- The matchings come in the order of the facts that they take the asserted literals for, one for
each list of facts that the literals select. The models of a matching are those that take the
asserted literals for its facts, so no two matchings have the same models. A visitor that never
stops is passed all matchings, and one that stops the walk the matchings up to there. Whether there
is a matching depends neither on the order of the literals nor on repetitions. -/
theorem matchings_ascending_and_selects_iff (hS : S.Ground) (h : c.Reachable)
    (ls : List ScopedLiteral) :
    ((S.matchings ls c).Pairwise fun d e =>
      compare (d.groundAtoms (asserted ls)) (e.groundAtoms (asserted ls)) = .lt) ∧
    (∀ facts, facts ∈ (S.matchings ls c).map (·.groundAtoms (asserted ls)) ↔
      S.Selects c ls facts) ∧
    (∀ d ∈ S.matchings ls c, ∀ m : Assignment,
      m.Models d ↔ m.Models c ∧ m.atoms (asserted ls) = d.groundAtoms (asserted ls)) ∧
    ((S.matchings ls c).Pairwise fun d e => ¬ ∀ m : Assignment, m.Models d ↔ m.Models e) ∧
    (∀ stop : List Bindings → Bool,
      ((∀ k, 0 < k → k ≤ (S.matchings ls c).length → stop ((S.matchings ls c).take k) = false) →
        (S.forMatchings ls c (noteUntil stop)).run.run [] = (.ok (), S.matchings ls c)) ∧
      ∀ n < (S.matchings ls c).length, stop ((S.matchings ls c).take (n + 1)) = true →
        (∀ k, 0 < k → k ≤ n → stop ((S.matchings ls c).take k) = false) →
          (S.forMatchings ls c (noteUntil stop)).run.run [] =
            (.error (), (S.matchings ls c).take (n + 1))) ∧
    ∀ ks, (∀ l, l ∈ ls ↔ l ∈ ks) →
      ((S.firstMatch? ls c).isSome = true ↔ (S.firstMatch? ks c).isSome = true) := by
  have hwell := h.wellFormed
  have hascending : (S.matchings ls c).Pairwise fun d e =>
      compare (d.groundAtoms (asserted ls)) (e.groundAtoms (asserted ls)) = .lt :=
    pairwise_groundAtoms hS hwell
  refine ⟨hascending, fun _ => mem_map_groundAtoms_iff hS hwell,
    fun d hd m => models_iff_atoms_eq hS hwell hd, ?_, fun stop => ?_,
    fun ks hks => isSome_firstMatch?_congr hS hwell hks⟩
  · refine hascending.imp_of_mem fun {d e} hd he hlt hmodels => ?_
    obtain ⟨m, hm⟩ := (wellFormed_of_mem_matchingsFrom hwell hd).exists_models
    rw [groundAtoms_asserted_eq_atoms hS hwell hd hm,
      groundAtoms_asserted_eq_atoms hS hwell he ((hmodels m).1 hm), Std.ReflOrd.compare_self] at hlt
    cases hlt
  · rw [forMatchings_eq]
    exact ⟨run_forM_noteUntil_of_forall [], fun n => run_forM_noteUntil_of_stop []⟩

theorem selects_stacked :
    let on (x y : Term) : Atom := ⟨"on", [x, y]⟩
    let S := ofAtoms [on (.const "A") (.const "B"), on (.const "B") (.const "C"),
      on (.const "C") (.const "A"), on (.const "D") (.const "A"), ⟨"clear", [.const "B"]⟩]
    let ls : List ScopedLiteral :=
      [⟨⟨1⟩, .neg ⟨"clear", [.var "y"]⟩⟩, ⟨⟨1⟩, .pos (on (.var "x") (.var "y"))⟩]
    let c := (Request.separate (.lifted ⟨1⟩) (.var "x") .facts (.const "C")).after .empty
    S.Selects c ls [on (.const "D") (.const "A")] ∧
      (S.forMatchings ls c (noteUntil fun _ => true)).run.run [] =
        (.error (), (S.matchings ls c).take 1) := by
  intro on S ls c
  obtain ⟨_, hselects, _, _, hwalk, _⟩ :=
    matchings_ascending_and_selects_iff (ground_ofAtoms _) (Bindings.Reachable.empty.after _) ls
  refine ⟨(hselects _).1 (by decide),
    (hwalk fun _ => true).2 0 (by decide) rfl fun k hpos hle => ?_⟩
  omega

end Situation

end LiftedPlanning
