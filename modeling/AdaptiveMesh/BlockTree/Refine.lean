import AdaptiveMesh.BlockTree.Neighbor

/-!
# Refining a block tree

Refinement replaces every flagged leaf by its children. Two blocks that touch may differ by one
level only, so a leaf may be refined only together with all coarser leaves that touch it;
`checkRefineFlags` tells whether flags respect that, and `balanceRefineFlags` adds the flags that
are missing. A flagged leaf calls only for coarser ones, so one sweep from the finest level to the
coarsest finds them all.
-/

namespace AdaptiveMesh

set_option autoImplicit false

namespace BlockTree

variable (tree : BlockTree)

def blocksAt (level : Nat) : List (Location × Nat) :=
  tree.locations.toList.zipIdx.filter fun block => block.1.level = level

def levelsFinestFirst : List Nat := (List.range (tree.maxLevel + 1)).reverse

def raiseFlags (flags : Array Bool) (gids : List Nat) : Array Bool :=
  gids.foldl (fun flags gid => flags.setIfInBounds gid true) flags

/-- Flags the coarser blocks that touch a block, if the block itself is flagged. -/
def flagCoarser (flags : Array Bool) (block : Location × Nat) : Except TreeError (Array Bool) :=
  if flags.getD block.2 false then return raiseFlags flags (← tree.coarseNeighbors block.1)
  else .ok flags

/-- Whether the flagged blocks can be refined without leaving two blocks more than one level apart:
with a block, all coarser blocks that touch it are flagged. -/
def checkRefineFlags (flags : Array Bool) : Except TreeError Bool := do
  tree.checkFlagCount flags
  let flagged := tree.locations.toList.zipIdx.filter fun block => flags.getD block.2 false
  flagged.allM fun block => do
    return (← tree.coarseNeighbors block.1).all fun gid => flags.getD gid false

def balanceRefineFlags (flags : Array Bool) : Except TreeError (Array Bool) := do
  tree.checkFlagCount flags
  (tree.levelsFinestFirst.flatMap tree.blocksAt).foldlM tree.flagCoarser flags

def withFlags (flags : Array Bool) : List (Location × Bool) :=
  tree.locations.toList.zip flags.toList

/-- The positions at which pieces of the given lengths start when laid end to end. -/
def startsOf : (start : Nat) → List Nat → List Nat
  | _, [] => []
  | start, length :: rest => start :: startsOf (start + length) rest

def refined (grid : RootGrid) (leaf : Location × Bool) : List Location :=
  if leaf.2 then grid.children leaf.1 else [leaf.1]

/-- Replaces each flagged leaf by its children. Returns the new tree and, for every old gid, the new
gid of the leaf or of its first child. -/
def refine (flags : Array Bool) : Except TreeError (BlockTree × List Nat) := do
  tree.checkFlagCount flags
  let pieces := (tree.withFlags flags).map (refined tree.grid)
  let next ← ofLeaves tree.grid pieces.flatten
  return (next, startsOf 0 (pieces.map List.length))

end BlockTree

end AdaptiveMesh
