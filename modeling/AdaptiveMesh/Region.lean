import AdaptiveMesh.Face
import AdaptiveMesh.Octant

/-!
# Regions

Around a block lie 26 regions, one for each way to step at most one block along every axis; the
block itself is the central region. Regions with one step are the block's faces, with two its edges,
with three its corners. The module lists them in a fixed order and says which octants of a node
touch a region.
-/

namespace AdaptiveMesh

set_option autoImplicit false

inductive Side where
  | left
  | middle
  | right
deriving DecidableEq, Repr

namespace Side

def reverse : Side → Side
  | left => right
  | middle => middle
  | right => left

def offset : Side → Int
  | left => -1
  | middle => 0
  | right => 1

def ofOffset? (offset : Int) : Option Side :=
  if offset = -1 then some left
  else if offset = 0 then some middle
  else if offset = 1 then some right
  else none

def all : List Side := [left, middle, right]

def index : Side → Nat
  | left => 0
  | middle => 1
  | right => 2

theorem ofOffset?_offset (s : Side) : ofOffset? s.offset = some s := by
  cases s <;> rfl

@[simp] theorem reverse_reverse (s : Side) : s.reverse.reverse = s := by
  cases s <;> rfl

@[simp] theorem offset_reverse (s : Side) : s.reverse.offset = -s.offset := by
  cases s <;> rfl

end Side

/-- A direction out of a block, as a step along every axis. -/
structure Region where
  sides : Triple Side
deriving DecidableEq, Repr

namespace Region

def central : Region := ⟨.fill .middle⟩

def side (r : Region) (axis : Axis) : Side := r.sides axis

def offsets (r : Region) : Triple Int := r.sides.map Side.offset

def ofOffsets? (offsets : Triple Int) : Option Region := do
  let x1 ← Side.ofOffset? offsets.x1
  let x2 ← Side.ofOffset? offsets.x2
  let x3 ← Side.ofOffset? offsets.x3
  return ⟨⟨x1, x2, x3⟩⟩

def ofFace (f : Face) : Region :=
  ⟨(Triple.fill Side.middle).set f.axis (if f.outer then .right else .left)⟩

def reverse (r : Region) : Region := ⟨r.sides.map Side.reverse⟩

def crossed (r : Region) : List Axis := Axis.all.filter fun axis => r.side axis ≠ .middle

def adjacency (r : Region) : Nat := r.crossed.length

def isValidFor (r : Region) (dim : Nat) : Bool :=
  Axis.all.all fun axis => axis.val < dim || r.side axis = .middle

/-- The faces to cross on the way to the region. -/
def adjacentFaces (r : Region) : List Face :=
  r.crossed.map fun axis => ⟨axis, r.side axis = .right⟩

/-- Whether an octant reaches its parent's boundary along every axis below `dim` that the region
crosses. -/
def touches (r : Region) (dim : Nat) (o : Octant) : Bool :=
  Axis.all.all fun axis => dim ≤ axis.val ||
    match r.side axis with
    | .left => !o.isSet axis
    | .middle => true
    | .right => o.isSet axis

/-- The children of a node with `dim` active axes that touch the region of their parent, in octant
order. -/
def adjacentOctants (r : Region) (dim : Nat) : List Octant :=
  (Octant.forDim dim).filter (r.touches dim)

def all : List Region :=
  Side.all.flatMap fun x3 => Side.all.flatMap fun x2 => Side.all.map fun x1 => ⟨⟨x1, x2, x3⟩⟩

def directions (dim : Nat) : List Region :=
  all.filter fun r => r ≠ central && r.isValidFor dim

def rank (r : Region) : Nat :=
  9 * r.sides.x1.index + 3 * r.sides.x2.index + r.sides.x3.index

def sorted : List Region := all.mergeSort fun a b => a.rank ≤ b.rank

def describe (r : Region) : String :=
  s!"[{r.offsets.x1}, {r.offsets.x2}, {r.offsets.x3}]"

theorem mem_all (r : Region) : r ∈ all := by
  obtain ⟨⟨a, b, c⟩⟩ := r
  cases a <;> cases b <;> cases c <;> decide

@[simp] theorem reverse_reverse (r : Region) : r.reverse.reverse = r := by
  obtain ⟨⟨a, b, c⟩⟩ := r
  simp [reverse, Triple.map]

theorem ofOffsets?_offsets (r : Region) : ofOffsets? r.offsets = some r := by
  obtain ⟨⟨a, b, c⟩⟩ := r
  cases a <;> cases b <;> cases c <;> rfl

end Region

end AdaptiveMesh
