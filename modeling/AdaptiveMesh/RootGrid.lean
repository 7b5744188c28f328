import AdaptiveMesh.Location
import AdaptiveMesh.Signed64

/-!
# Root grids

A root grid says how the domain is cut into root blocks: the number of active axes, the number of
root blocks along each, and which axes are periodic. The root blocks lie at `rootLevel`, the least
level of the tree at which they fit. `extent` counts the cells of a level along an axis, and a
location is in the domain if each of its coordinates is below the extent.
-/

namespace AdaptiveMesh

set_option autoImplicit false

inductive GridError where
  | invalidDimension (dim : Nat)
  | emptyAxis (axis : Axis)
  | degenerateAxis (axis : Axis) (blocks : Nat)
deriving DecidableEq, Repr

def GridError.message : GridError → String
  | invalidDimension dim => s!"mesh dimension {dim} is invalid, expected 1, 2 or 3"
  | emptyAxis axis => s!"axis {axis.val} has no root blocks"
  | degenerateAxis axis blocks =>
      s!"degenerate axis {axis.val} must span exactly one root block, found {blocks}"

/-- The arrangement of root blocks. Axes from `dim` on are degenerate: one block wide and not
periodic. -/
structure RootGrid where
  dim : Nat
  blocks : Triple Nat
  periodic : Triple Bool
  one_le_dim : 1 ≤ dim
  dim_le_three : dim ≤ 3
  blocks_pos : ∀ axis, 0 < blocks axis
  blocks_degenerate : ∀ axis : Axis, dim ≤ axis.val → blocks axis = 1
  active_of_periodic : ∀ axis : Axis, periodic axis = true → axis.val < dim
deriving DecidableEq

namespace RootGrid

def axisFault? (dim : Nat) (blocks : Triple Nat) (axis : Axis) : Option GridError :=
  if blocks axis = 0 then some (.emptyAxis axis)
  else if dim ≤ axis.val ∧ blocks axis ≠ 1 then some (.degenerateAxis axis (blocks axis))
  else none

theorem axisFault?_eq_none {dim : Nat} {blocks : Triple Nat} {axis : Axis}
    (sound : axisFault? dim blocks axis = none) :
    0 < blocks axis ∧ (dim ≤ axis.val → blocks axis = 1) := by
  unfold axisFault? at sound
  split at sound
  · cases sound
  · split at sound
    · cases sound
    · constructor <;> omega

/-- Checks the numbers of a root grid, the dimension first and then axis by axis. Periodicity along
degenerate axes is dropped. -/
def create (dim : Nat) (blocks : Triple Nat) (periodic : Triple Bool) :
    Except GridError RootGrid :=
  if range : 1 ≤ dim ∧ dim ≤ 3 then
    match fault : Axis.all.findSome? (axisFault? dim blocks) with
    | some error => .error error
    | none =>
        have sound (axis : Axis) :=
          axisFault?_eq_none (List.findSome?_eq_none_iff.1 fault axis axis.mem_all)
        .ok {
          dim
          blocks
          periodic := .ofFn fun axis => axis.val < dim && periodic axis
          one_le_dim := range.1
          dim_le_three := range.2
          blocks_pos := fun axis => (sound axis).1
          blocks_degenerate := fun axis => (sound axis).2
          active_of_periodic := by
            intro axis
            simp only [Triple.get_ofFn, Bool.and_eq_true, decide_eq_true_eq]
            exact And.left }
  else .error (.invalidDimension dim)

variable (grid : RootGrid)

def widest : Nat := max grid.blocks.x1 (max grid.blocks.x2 grid.blocks.x3)

/-- The least level at which the root blocks fit: the least `k` with `widest ≤ 2 ^ k`. -/
def rootLevel : Nat := if grid.widest ≤ 1 then 0 else Nat.log2 (grid.widest - 1) + 1

def numChildren : Nat := 1 <<< grid.dim

def numRootBlocks : Nat := grid.blocks.x1 * grid.blocks.x2 * grid.blocks.x3

/-- Number of cells of a level along an axis. Below the root level a cell covers several root
blocks and the last one may lie partly outside; degenerate axes have one cell at every level. -/
def extent (level axis : Nat) : Int :=
  if active : axis < grid.dim then
    let blocks := Signed64.wrap (grid.blocks ⟨axis, Nat.lt_of_lt_of_le active grid.dim_le_three⟩)
    if grid.rootLevel ≤ level then
      Signed64.shiftLeft blocks (level - grid.rootLevel)
    else
      let places := grid.rootLevel - level
      (blocks + Signed64.shiftLeft 1 places - 1) >>> places
  else 1

def contains (loc : Location) : Bool :=
  Axis.all.all fun axis => 0 ≤ loc.lx axis && loc.lx axis < grid.extent loc.level axis

def rootLocations : List Location :=
  (List.range grid.blocks.x3).flatMap fun (k : Nat) =>
    (List.range grid.blocks.x2).flatMap fun (j : Nat) =>
      (List.range grid.blocks.x1).map fun (i : Nat) => ⟨grid.rootLevel, ⟨i, j, k⟩⟩

def children (loc : Location) : List Location := (Octant.forDim grid.dim).map loc.child

theorem widest_le_shiftLeft_rootLevel : grid.widest ≤ 1 <<< grid.rootLevel := by
  rw [Nat.one_shiftLeft]
  unfold rootLevel
  split
  · simpa
  · have below := Nat.lt_log2_self (n := grid.widest - 1)
    omega

theorem rootLevel_le {level : Nat} (fits : grid.widest ≤ 1 <<< level) : grid.rootLevel ≤ level := by
  rw [Nat.one_shiftLeft] at fits
  unfold rootLevel
  split
  · exact Nat.zero_le _
  · have above : Nat.log2 (grid.widest - 1) < level :=
      (Nat.log2_lt (by omega)).2 (by omega)
    omega

end RootGrid

end AdaptiveMesh
