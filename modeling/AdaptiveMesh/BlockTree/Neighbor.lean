import AdaptiveMesh.BlockTree.Basic

/-!
# Neighbours in a block tree

The neighbour of a location in a direction is the node that covers the shifted location: a leaf at
the same or a coarser level, or an internal node at the same level whose descendants are finer. A
step across a periodic end of the domain comes back in at the other end; a step across any other end
has no neighbour.
-/

namespace AdaptiveMesh

set_option autoImplicit false

namespace RootGrid

/-- Brings one coordinate of a location back into the domain. `none` means that it left the domain
across an end that is not periodic. -/
def wrapCoordinate (grid : RootGrid) (level : Nat) (axis : Axis) (x : Int) :
    Except TreeError (Option Int) :=
  let extent := grid.extent level axis
  if 0 ≤ x ∧ x < extent then .ok (some x)
  else if !grid.periodic axis then .ok none
  else if extent = 0 then .error (.vanishedExtent level axis)
  else .ok (some (x % extent))

def wrap (grid : RootGrid) (loc : Location) : Except TreeError (Option Location) :=
  go loc Axis.all
where
  go (loc : Location) : List Axis → Except TreeError (Option Location)
    | [] => .ok (some loc)
    | axis :: rest =>
        if axis.val < grid.dim then
          match grid.wrapCoordinate loc.level axis (loc.lx axis) with
          | .error error => .error error
          | .ok none => .ok none
          | .ok (some x) => go ⟨loc.level, loc.lx.set axis x⟩ rest
        else go loc rest

end RootGrid

namespace PlacedNode

def reach (n : PlacedNode) : List Octant → Except TreeError PlacedNode
  | [] => .ok n
  | o :: rest =>
      if n.isLeaf then .ok n
      else
        match n.child? o with
        | none => .error (.incomplete n.loc)
        | some child => child.reach rest

end PlacedNode

namespace BlockTree

variable (tree : BlockTree)

/-- The node next to a location in a direction. -/
def findNeighbor (loc : Location) (region : Region) : Except TreeError (Option PlacedNode) :=
  if !region.isValidFor tree.grid.dim then .error (.degenerateDirection region)
  else do
    match ← tree.grid.wrap (loc.shifted region) with
    | none => return none
    | some target => return some (← tree.rootNode.reach target.path)

def neighbors (loc : Location) : Except TreeError (List PlacedNode) := do
  let found ← (Region.directions tree.grid.dim).mapM (tree.findNeighbor loc)
  return found.filterMap id

def coarseNeighbors (loc : Location) : Except TreeError (List Nat) := do
  let found ← tree.neighbors loc
  return found.filterMap fun n => if n.loc.level < loc.level then n.gid? else none

def bordersFiner (loc : Location) : Except TreeError Bool := do
  let found ← tree.neighbors loc
  return found.any fun n => !n.isLeaf

end BlockTree

end AdaptiveMesh
