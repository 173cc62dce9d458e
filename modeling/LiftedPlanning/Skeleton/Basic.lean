import LiftedPlanning.Order.Linear
import LiftedPlanning.Skeleton.Link
import LiftedPlanning.World.Goal

/-!
# Plan skeletons

A skeleton is a plan under construction: steps, some of which have to come before others, the causal
links between them, the preconditions that are still open, and what is known about the values of the
variables. Two steps frame it. The first one has the initial facts as its effects, and the last one
has the goal as its preconditions.

A skeleton is complete if nothing is open and nothing is threatened (`Skeleton.isComplete_iff`).
`Skeleton.linearize` lists the steps between the frame in an order that respects the precedences.
-/

namespace LiftedPlanning

/-- A plan under construction. -/
structure Skeleton where
  /-- The step that provides the initial facts. -/
  start : Instance
  /-- The step that requires the goal. -/
  finish : Instance
  steps : SortedSet Instance
  precedences : SortedSet Precedence
  links : SortedSet CausalLink
  /-- The preconditions without a link, the oldest one first. -/
  openConditions : List OpenCondition
  bindings : Bindings
  supply : ScopeSupply
deriving DecidableEq, Hashable

namespace Skeleton

def startStep (S : Situation) : Except SchemaError Instance :=
  (Action.ofParts "start" [] [] (S.facts.toList.map Literal.pos)).map fun a =>
    .lifted a ScopeSupply.initial.next

def finishStep (g : Goal) : Except SchemaError Instance :=
  -- The parameters are declared anew, so names with blanks or question marks in front are changed.
  (Action.ofParts "finish" g.vars.toList g.literals []).map fun a =>
    .lifted a ScopeSupply.initial.advance.next

def frame (start finish : Instance) : Skeleton where
  start := start
  finish := finish
  steps := .ofList [start, finish]
  precedences := .ofList [⟨start, finish⟩]
  links := .empty
  openConditions := OpenCondition.ofStep finish
  bindings := .empty
  supply := ScopeSupply.initial.advance.advance

/-- The skeleton with which planning begins: the goal is open. -/
def ofGoal (S : Situation) (g : Goal) : Except SchemaError Skeleton :=
  match startStep S with
  | .error e => .error e
  | .ok start => (finishStep g).map (frame start)

/-! ## Order -/

def pairs (s : Skeleton) : List (Instance × Instance) := s.precedences.toList.map Precedence.toPair

/-- Whether a chain of precedences leads from one step to another. -/
def precedes (s : Skeleton) (a b : Instance) : Bool := Chain.leads s.pairs a b

/-- Whether a step can be put before another one without closing a cycle. -/
def canOrder (s : Skeleton) (a b : Instance) : Bool := decide (a ≠ b) && !s.precedes b a

def isAcyclic (s : Skeleton) : Bool := s.steps.toList.all fun a => !s.precedes a a

def isProper (s : Skeleton) (a : Instance) : Bool := decide (a ≠ s.start) && decide (a ≠ s.finish)

def properSteps (s : Skeleton) : List Instance := s.steps.toList.filter s.isProper

/-- The steps between the first and the last one, each as early as the precedences and the steps
that were added before it allow. -/
def linearize (s : Skeleton) : List Instance :=
  (Chain.linearize s.pairs s.steps.toList).filter s.isProper

/-! ## Flaws -/

/-- Whether a step may come between the ends of a link and undo what it provides. -/
def endangers (s : Skeleton) (step : Instance) (link : CausalLink) : Bool :=
  decide (step ≠ link.producer) && decide (step ≠ link.consumer) &&
    step.clobbers link.proposition s.bindings &&
    !s.precedes step link.producer && !s.precedes link.consumer step

def threats (s : Skeleton) : List Threat :=
  s.links.toList.flatMap fun link =>
    (s.steps.toList.filter fun step => s.endangers step link).map fun step => ⟨step, link⟩

def isComplete (s : Skeleton) : Bool := s.openConditions.isEmpty && s.threats.isEmpty

/-- Whether a literal denies an atom that is known to be ground and is no initial fact. -/
def deniedInitially (s : Skeleton) (S : Situation) (l : ScopedLiteral) : Bool :=
  l.negated && (s.bindings.ground? l.scope l.atom).any fun a => decide (a ∉ S.facts)

/-- The number of open preconditions that neither the initial situation nor a step could provide. -/
def unsupported (s : Skeleton) (S : Situation) : Nat :=
  s.openConditions.countP fun o =>
    !s.deniedInitially S o.proposition &&
      !s.steps.toList.any fun a =>
        decide (a ≠ o.step) && (a.establishing? o.proposition s.bindings).isSome

/-! ## Changes -/

def order (s : Skeleton) (p : Precedence) : Skeleton :=
  { s with precedences := s.precedences.insert p }

def rebind (s : Skeleton) (c : Bindings) : Skeleton := { s with bindings := c }

/-- Closes an open precondition by a link from a step, which has to come before. -/
def link (s : Skeleton) (producer : Instance) (o : OpenCondition) (c : Bindings) : Skeleton :=
  { s with
    precedences :=
      if producer = o.step then s.precedences else s.precedences.insert ⟨producer, o.step⟩
    links := s.links.insert (o.linkFrom producer)
    openConditions := s.openConditions.erase o
    bindings := c }

/-- Closes an open precondition by a new step, whose own preconditions become open. -/
def addStep (s : Skeleton) (step : Instance) (o : OpenCondition) (c : Bindings) : Skeleton :=
  let t := s.link step o c
  { t with
    steps := t.steps.insert step
    precedences := (t.precedences.insert ⟨t.start, step⟩).insert ⟨step, t.finish⟩
    openConditions := t.openConditions ++ OpenCondition.ofStep step
    supply := t.supply.advance }

def text (s : Skeleton) : String :=
  let lines (texts : List String) : String := String.join (texts.map fun t => "  " ++ t ++ "\n")
  "steps:\n" ++ lines (s.properSteps.map fun a => a.textUnder s.bindings) ++
    "links:\n" ++ lines (s.links.toList.map CausalLink.text) ++
    "open:\n" ++ lines (s.openConditions.map OpenCondition.text)

theorem mem_threats {s : Skeleton} {t : Threat} :
    t ∈ s.threats ↔ t.link ∈ s.links ∧ t.step ∈ s.steps ∧ s.endangers t.step t.link = true := by
  simp only [threats, List.mem_flatMap, List.mem_map, List.mem_filter]
  constructor
  · rintro ⟨link, hlink, step, ⟨hstep, h⟩, rfl⟩
    exact ⟨hlink, hstep, h⟩
  · rintro ⟨hlink, hstep, h⟩
    exact ⟨t.link, hlink, t.step, ⟨hstep, h⟩, rfl⟩

theorem isComplete_iff {s : Skeleton} :
    s.isComplete = true ↔
      s.openConditions = [] ∧
        ∀ link ∈ s.links, ∀ step ∈ s.steps, s.endangers step link = false := by
  rw [isComplete, Bool.and_eq_true, List.isEmpty_iff, List.isEmpty_iff,
    @List.eq_nil_iff_forall_not_mem _ s.threats]
  refine and_congr_right fun _ => ⟨fun h link hlink step hstep => ?_, fun h t ht => ?_⟩
  · exact Bool.eq_false_iff.2 fun he => h ⟨step, link⟩ (mem_threats.2 ⟨hlink, hstep, he⟩)
  · obtain ⟨hlink, hstep, he⟩ := mem_threats.1 ht
    rw [h _ hlink _ hstep] at he
    cases he

end Skeleton

end LiftedPlanning
