import LiftedPlanning.Proofs.Bindings.Generic

/-!
# Sequences of requests

Whatever is asked of a binding set, starting with the one in which nothing is known, its models are
those that satisfy every request that was accepted. A request is accepted if a model satisfies it,
and otherwise the binding set stays as it was (`Bindings.Reachable.models_after`).
-/

namespace LiftedPlanning

/-- What may be asked of a binding set. -/
inductive Request where
  | unify (s : Scope) (a : Atom) (t : Scope) (b : Atom)
  | bind (v : ScopedVar) (object : String)
  | separate (s : Scope) (x : Term) (t : Scope) (y : Term)

namespace Request

def answer? (c : Bindings) : Request → Option Bindings
  | unify s a t b => c.unify? s a t b
  | bind v object => c.bind? v object
  | separate s x t y => c.separate? s x t y

/-- The binding set after a request, which a refusal leaves alone. -/
def after (r : Request) (c : Bindings) : Bindings := (r.answer? c).getD c

def Holds (m : Assignment) : Request → Prop
  | unify s a t b => m.atom s a = m.atom t b
  | bind v object => m v = object
  | separate s x t y => m.term s x ≠ m.term t y

variable {c : Bindings} {r : Request} {m : Assignment}

theorem after_of_eq_some {d : Bindings} (h : r.answer? c = some d) : r.after c = d := by
  rw [after, h]
  rfl

theorem after_of_eq_none (h : r.answer? c = none) : r.after c = c := by
  rw [after, h]
  rfl

theorem wellFormed_after (h : c.WellFormed) (r : Request) : (r.after c).WellFormed := by
  cases hr : r.answer? c with
  | none => rwa [after_of_eq_none hr]
  | some d =>
    rw [after_of_eq_some hr]
    cases r with
    | unify s a t b => exact h.wellFormed_unify? hr
    | bind v object => exact h.wellFormed_bind? hr
    | separate s x t y => exact h.wellFormed_separate? hr

theorem models_answer? (h : c.WellFormed) :
    (∃ d, r.answer? c = some d ∧ m.Models d) ↔ m.Models c ∧ r.Holds m := by
  cases r with
  | unify s a t b => exact h.models_unify?
  | bind v object => exact h.models_bind?
  | separate s x t y => exact Bindings.models_separate?

/-- The models after an accepted request are those that satisfy it. -/
theorem models_after_iff (h : c.WellFormed) (hr : (r.answer? c).isSome = true) :
    m.Models (r.after c) ↔ m.Models c ∧ r.Holds m := by
  obtain ⟨d, hd⟩ := Option.isSome_iff_exists.1 hr
  rw [after_of_eq_some hd, ← models_answer? h]
  constructor
  · intro hm
    exact ⟨d, hd, hm⟩
  · rintro ⟨e, he, hm⟩
    rw [hd, Option.some.injEq] at he
    exact he ▸ hm

/-- A request is accepted exactly if a model satisfies it. -/
theorem isSome_answer?_iff (h : c.WellFormed) :
    (r.answer? c).isSome = true ↔ ∃ m : Assignment, m.Models c ∧ r.Holds m := by
  constructor
  · intro hr
    obtain ⟨m, hm⟩ := (wellFormed_after h r).exists_models
    exact ⟨m, (models_after_iff h hr).1 hm⟩
  · rintro ⟨m, hm⟩
    obtain ⟨d, hd, _⟩ := (models_answer? h).2 hm
    rw [hd]
    rfl

end Request

namespace Bindings

variable {c d : Bindings} {s t : Scope} {a b : Atom}

/-! ## Atoms that are the same already -/

theorem identify?_self (c : Bindings) (d : Denotation) : c.identify? d d = some c := by
  cases d with
  | object name => exact if_pos rfl
  | unbound v => rw [identify?, Std.ReflOrd.compare_self]

theorem identifyArgs?_eq_self {xs ys : List Term}
    (h : ∀ p ∈ xs.zip ys, c.denote s p.1 = c.denote t p.2) :
    identifyArgs? s t xs ys c = some c := by
  induction xs generalizing ys with
  | nil => rfl
  | cons x xs ih =>
    cases ys with
    | nil => rfl
    | cons y ys =>
      obtain ⟨hxy, hrest⟩ := List.forall_mem_cons.1 h
      rw [identifyArgs?_cons, hxy, identify?_self]
      exact ih hrest

theorem WellFormed.unify?_eq_self (h : c.WellFormed) (hab : c.codesignate s a t b = true) :
    c.unify? s a t b = some c := by
  obtain ⟨hsignature, hargs⟩ := codesignate_eq_true_iff.1 hab
  rw [unify?, if_pos hsignature, identifyArgs?_eq_self hargs]
  exact h.settle?_eq_some

theorem WellFormed.unify?_repeated (h : c.WellFormed) (hd : c.unify? s a t b = some d) :
    d.unify? s a t b = some d := by
  have hwell := h.wellFormed_unify? hd
  refine hwell.unify?_eq_self (hwell.codesignate_iff.2 fun m hm => ?_)
  exact (h.models_unify?.1 ⟨d, hd, hm⟩).2

/-! ## Binding sets that arise from requests -/

/-- The binding sets that arise from the one in which nothing is known. -/
inductive Reachable : Bindings → Prop
  | empty : Reachable .empty
  | after {c : Bindings} (h : Reachable c) (r : Request) : Reachable (r.after c)
  | separation {c d : Bindings} {s t : Scope} {a b : Atom} (h : Reachable c)
      (hd : d ∈ c.separationsOf s a t b) : Reachable d

theorem Reachable.wellFormed (h : c.Reachable) : c.WellFormed := by
  induction h with
  | empty => exact wellFormed_empty
  | after _ r ih => exact Request.wellFormed_after ih r
  | separation _ hd ih => exact ih.wellFormed_of_mem_separationsOf hd

/-- The models of a binding set are those that satisfy what was accepted. -/
theorem Reachable.models_after (h : c.Reachable) :
    (∀ r : Request,
      ((r.answer? c).isSome = true ↔ ∃ m : Assignment, m.Models c ∧ r.Holds m) ∧
      ((r.answer? c).isSome = true →
        ∀ m : Assignment, m.Models (r.after c) ↔ m.Models c ∧ r.Holds m) ∧
      ((r.answer? c).isSome = false → r.after c = c)) ∧
    (∀ s x t y, c.separated s x t y = true ↔
      ¬ ∃ m : Assignment, m.Models c ∧ m.term s x = m.term t y) ∧
    (∀ s a t b, c.codesignate s a t b = true ↔
      ∀ m : Assignment, m.Models c → m.atom s a = m.atom t b) ∧
    ∀ s a t b d, c.unify? s a t b = some d → d.unify? s a t b = some d := by
  have hwell := h.wellFormed
  refine ⟨?_, ?_, fun s a t b => hwell.codesignate_iff, fun s a t b d => hwell.unify?_repeated⟩
  · intro r
    refine ⟨Request.isSome_answer?_iff hwell, fun hr m => Request.models_after_iff hwell hr, ?_⟩
    intro hr
    rw [Option.isSome_eq_false_iff, Option.isNone_iff_eq_none] at hr
    exact Request.after_of_eq_none hr
  · intro s x t y
    rw [hwell.separated_iff]
    constructor
    · rintro hall ⟨m, hm, heq⟩
      exact hall m hm heq
    · intro hnone m hm heq
      exact hnone ⟨m, hm, heq⟩

theorem Reachable.codesignate_after_bind :
    let c := (Request.bind ⟨⟨1⟩, "x"⟩ "A").after .empty
    c.Reachable ∧
      c.codesignate (.lifted ⟨1⟩) ⟨"p", [.var "x"]⟩ .facts ⟨"p", [.const "A"]⟩ = true := by
  have hreachable := Reachable.empty.after (Request.bind ⟨⟨1⟩, "x"⟩ "A")
  refine ⟨hreachable, ?_⟩
  obtain ⟨hbind, _⟩ := Reachable.empty.models_after
  obtain ⟨haccepted, hmodels, _⟩ := hbind (Request.bind ⟨⟨1⟩, "x"⟩ "A")
  obtain ⟨_, _, hsame, _⟩ := hreachable.models_after
  refine (hsame _ _ _ _).2 fun m hm => ?_
  have hvalue := ((hmodels rfl m).1 hm).2
  rw [Assignment.atom_eq_atom_iff]
  exact ⟨rfl, congrArg (fun o => [o]) hvalue⟩

end Bindings

end LiftedPlanning
