import LiftedPlanning.World.Goal

/-!
# Two domains

In the blocks world, a hand takes blocks from the table or from other blocks and puts them down
again. What holds is said with `on(x, y)`, `onTable(x)`, `clear(x)`, `holding(x)` and `handEmpty()`.

A lamp can be used only while it is on, and has to be off in the end. Its two actions must therefore
come in one order, although neither provides what the other requires.
-/

namespace LiftedPlanning.Blocks

def on (x y : Term) : Atom := ⟨"on", [x, y]⟩

def onTable (x : Term) : Atom := ⟨"onTable", [x]⟩

def clear (x : Term) : Atom := ⟨"clear", [x]⟩

def holding (x : Term) : Atom := ⟨"holding", [x]⟩

def handEmpty : Atom := ⟨"handEmpty", []⟩

def blocks : List Term := [.const "A", .const "B", .const "C"]

def take : Action where
  name := "take"
  parameters := ["x"]
  preconditions := [.pos (onTable (.var "x")), .pos (clear (.var "x")), .pos handEmpty]
  effects := [.neg (onTable (.var "x")), .neg (clear (.var "x")), .neg handEmpty,
    .pos (holding (.var "x"))]

def put : Action where
  name := "put"
  parameters := ["x"]
  preconditions := [.pos (holding (.var "x"))]
  effects := [.neg (holding (.var "x")), .pos (onTable (.var "x")), .pos (clear (.var "x")),
    .pos handEmpty]

def stack : Action where
  name := "stack"
  parameters := ["x", "y"]
  preconditions := [.pos (holding (.var "x")), .pos (clear (.var "y"))]
  effects := [.neg (holding (.var "x")), .neg (clear (.var "y")), .pos (on (.var "x") (.var "y")),
    .pos (clear (.var "x")), .pos handEmpty]

def unstack : Action where
  name := "unstack"
  parameters := ["x", "y"]
  preconditions := [.pos (on (.var "x") (.var "y")), .pos (clear (.var "x")), .pos handEmpty]
  effects := [.neg (on (.var "x") (.var "y")), .neg (clear (.var "x")), .neg handEmpty,
    .pos (holding (.var "x")), .pos (clear (.var "y"))]

def actions : List Action := [take, put, stack, unstack]

/-- What is physically impossible. -/
def rules : List Rule :=
  [⟨"held-and-on-table", [.pos (holding (.var "x")), .pos (onTable (.var "x"))]⟩,
    ⟨"hand-empty-and-holding", [.pos handEmpty, .pos (holding (.var "x"))]⟩,
    ⟨"covered-and-clear", [.pos (on (.var "x") (.var "y")), .pos (clear (.var "y"))]⟩,
    ⟨"stacked-and-on-table", [.pos (on (.var "x") (.var "y")), .pos (onTable (.var "x"))]⟩]

def sideBySide : Situation :=
  .ofAtoms (blocks.flatMap (fun b => [onTable b, clear b]) ++ [handEmpty])

def tower : Goal :=
  ⟨[.pos (on (.const "A") (.const "B")), .pos (on (.const "B") (.const "C"))]⟩

def pile : Goal := ⟨[.pos (on (.const "A") (.const "B"))]⟩

def allOnTable : Goal := ⟨blocks.map fun b => .pos (onTable b)⟩

def anyTower : Goal :=
  ⟨[.pos (on (.var "x") (.var "y")), .pos (on (.var "y") (.var "z"))]⟩

def onItself : Goal := ⟨[.pos (on (.const "A") (.const "A"))]⟩

theorem wellFormed_of_mem_actions : ∀ a ∈ actions, a.WellFormed := by decide

end LiftedPlanning.Blocks

namespace LiftedPlanning.Lamp

def isOn (x : Term) : Atom := ⟨"on", [x]⟩

def isOff (x : Term) : Atom := ⟨"off", [x]⟩

def used (x : Term) : Atom := ⟨"used", [x]⟩

def flipOff : Action where
  name := "flip_off"
  parameters := ["x"]
  preconditions := [.pos (isOn (.var "x"))]
  effects := [.neg (isOn (.var "x")), .pos (isOff (.var "x"))]

def useLamp : Action where
  name := "use"
  parameters := ["x"]
  preconditions := [.pos (isOn (.var "x"))]
  effects := [.pos (used (.var "x"))]

def actions : List Action := [flipOff, useLamp]

def lampOn : Situation := .ofAtoms [isOn (.const "L")]

def usedAndOff : Goal := ⟨[.pos (used (.const "L")), .pos (isOff (.const "L"))]⟩

theorem wellFormed_of_mem_actions : ∀ a ∈ actions, a.WellFormed := by decide

end LiftedPlanning.Lamp
