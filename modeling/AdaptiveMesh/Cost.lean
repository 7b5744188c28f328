/-!
# Costs

Blocks carry estimated costs. Shares of work are computed with a few operations that floating-point
numbers and rational numbers both have, so that one definition serves the program, which sums in
floating point, and statements about exact arithmetic.
-/

namespace AdaptiveMesh

set_option autoImplicit false

class CostNumber (α : Type) extends Add α, Mul α, Div α, LT α, LE α where
  ofCount : Nat → α
  isFinite : α → Bool
  decideLT : (a b : α) → Decidable (a < b)
  decideLE : (a b : α) → Decidable (a ≤ b)

namespace CostNumber

variable {α : Type} [CostNumber α]

instance (a b : α) : Decidable (a < b) := decideLT a b

instance (a b : α) : Decidable (a ≤ b) := decideLE a b

def zero : α := ofCount 0

def unit : α := ofCount 1

/-- Whether a number may be the cost of a block: costs are finite and positive. -/
def isCost (cost : α) : Bool := isFinite cost && !decide (cost ≤ zero)

/-- Adds from left to right, starting from nothing. -/
def sum (costs : List α) : α := costs.foldl (· + ·) zero

def larger (a b : α) : α := if a < b then b else a

end CostNumber

instance : CostNumber Float where
  ofCount := Float.ofNat
  isFinite := Float.isFinite
  decideLT := Float.decLt
  decideLE := Float.decLe

instance : CostNumber Rat where
  ofCount count := count
  isFinite _ := true
  decideLT := inferInstance
  decideLE := inferInstance

end AdaptiveMesh
