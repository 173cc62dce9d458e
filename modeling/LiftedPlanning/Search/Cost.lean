/-!
# Costs

What a search needs to know of the costs of its paths: a zero, a sum, whether a path at one cost
makes a path at another superfluous, and the place of a cost in a total order by which open nodes
are chosen. Whole numbers and double-precision numbers are costs.
-/

namespace LiftedPlanning

universe u

class Cost (κ : Type u) where
  zero : κ
  add : κ → κ → κ
  /-- Whether the first cost is no more than the second. -/
  atMost : κ → κ → Bool
  /-- The place of a cost in the order in which open nodes are chosen. -/
  rank : κ → Nat

namespace Cost

instance : Cost Nat where
  zero := 0
  add := Nat.add
  atMost a b := decide (a ≤ b)
  rank a := a

@[simp] theorem zero_nat : (Cost.zero : Nat) = 0 := rfl

@[simp] theorem add_nat (a b : Nat) : Cost.add a b = a + b := rfl

@[simp] theorem atMost_nat (a b : Nat) : Cost.atMost a b = decide (a ≤ b) := rfl

@[simp] theorem rank_nat (a : Nat) : Cost.rank a = a := rfl

/-- The place of a double-precision number in the order of all of them. Numbers without a sign
follow their bits, numbers with a sign come before them in reverse, so that minus zero precedes
zero. A sum of opposite infinities is no number and precedes all. -/
def floatRank (x : Float) : Nat :=
  if x.isNaN then 0
  else
    let bits := x.toBits.toNat
    if bits < 0x8000000000000000 then 0x8000000000000000 + bits else 0xffffffffffffffff - bits

instance : Cost Float where
  zero := 0.0
  add a b := a + b
  atMost a b := decide (a ≤ b)
  rank := floatRank

end Cost

end LiftedPlanning
