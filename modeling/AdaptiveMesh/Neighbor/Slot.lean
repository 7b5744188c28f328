import AdaptiveMesh.Region

/-!
# Neighbour slots

A block keeps one slot for each direction along which it may exchange data: 2 with one active axis, 8
with two, 26 with three. The slots are numbered in this order:

| slots    | directions    |
|----------|---------------|
| 0 .. 1   | x1 faces      |
| 2 .. 3   | x2 faces      |
| 4 .. 7   | x1 x2 edges   |
| 8 .. 9   | x3 faces      |
| 10 .. 13 | x1 x3 edges   |
| 14 .. 17 | x2 x3 edges   |
| 18 .. 25 | corners       |

Within a group the first listed axis varies fastest, lower side first. What is sent along a slot
arrives in the neighbour's reciprocal slot, that of the opposite direction.
-/

namespace AdaptiveMesh

set_option autoImplicit false

namespace Slot

def maxSlots : Nat := 26

def count (dim : Nat) : Nat :=
  match dim with
  | 1 => 2
  | 2 => 8
  | _ => 26

/-- Number of entries in a slot: as many finer blocks as can touch one face. -/
def width (dim : Nat) : Nat := 1 <<< (max 1 (min dim 3) - 1)

def upper : Side → Nat
  | .right => 1
  | _ => 0

def index? (r : Region) : Option Nat :=
  let n := r.sides.x1
  let m := r.sides.x2
  let l := r.sides.x3
  match n != .middle, m != .middle, l != .middle with
  | false, false, false => none
  | true, false, false => some (upper n)
  | false, true, false => some (2 + upper m)
  | true, true, false => some (4 + 2 * upper m + upper n)
  | false, false, true => some (8 + upper l)
  | true, false, true => some (10 + 2 * upper l + upper n)
  | false, true, true => some (14 + 2 * upper l + upper m)
  | true, true, true => some (18 + 4 * upper l + 2 * upper m + upper n)

/-- The slot in which a neighbour in the given direction keeps this block. -/
def reciprocal? (r : Region) : Option Nat := index? r.reverse

def region? (slot : Nat) : Option Region := Region.all.find? fun r => index? r = some slot

def regions (dim : Nat) : List Region := (List.range (count dim)).filterMap region?

theorem index?_region? : ∀ slot : Fin 26, (region? slot).bind index? = some slot.val := by
  decide +kernel

end Slot

end AdaptiveMesh
