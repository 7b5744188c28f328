import AdaptiveMesh.BlockTree.Neighbor
import AdaptiveMesh.Neighbor.Slot
import AdaptiveMesh.StagedArray

/-!
# Neighbour rows

The row of a block lists its neighbours slot by slot, `Slot.width` entries each. An entry names one
neighbour: its gid, its level, the worker that owns it, and the slot in which it keeps this block, all
of them signed 32-bit numbers. An empty entry has minus one in all fields, and any entry with a negative
gid counts as empty. A slot holds the one neighbour at the same or a coarser level, or all finer
neighbours in octant order, followed by empty entries. A block that touches another one more than one
level away has no row.
-/

namespace AdaptiveMesh

set_option autoImplicit false

structure NeighborEntry where
  gid : Int
  level : Int
  rank : Int
  destn : Int
deriving DecidableEq, Repr

inductive TopologyError where
  | tree (error : TreeError)
  | sync (error : SyncError)
  | missingRank (gid : Nat)
  | rankCount (expected found : Nat)
  | levelJump (gid : Nat) (neighbor : Location)
  | overflow (value : Nat)
  | invalidRange (start stop count : Nat)
deriving DecidableEq, Repr

def TopologyError.message : TopologyError → String
  | tree error => error.message
  | sync error => error.message
  | missingRank gid => s!"no rank is assigned to block {gid}"
  | rankCount expected found => s!"rank map covers {found} blocks, but the tree has {expected}"
  | levelJump gid neighbor =>
      s!"block {gid} borders {neighbor.describe} across more than one level"
  | overflow value => s!"value {value} does not fit into a neighbor entry"
  | invalidRange start stop count =>
      s!"blocks {start}..{stop} are out of range for a tree with {count} blocks"

namespace NeighborEntry

def empty : NeighborEntry := ⟨-1, -1, -1, -1⟩

def isEmpty (entry : NeighborEntry) : Bool := entry.gid < 0

def isPresent (entry : NeighborEntry) : Bool := !entry.isEmpty

def field (value : Nat) : Except TopologyError Int :=
  if value < 2147483648 then .ok value else .error (.overflow value)

def resolve (ranks : Array Nat) (gid level destn : Nat) : Except TopologyError NeighborEntry := do
  match ranks[gid]? with
  | none => .error (.missingRank gid)
  | some rank =>
      return ⟨← field gid, ← field level, ← field rank, ← field destn⟩

end NeighborEntry

namespace BlockTree

variable (tree : BlockTree) (ranks : Array Nat)

/-- The child of an internal node in an octant that faces a block, as that block sees it: a child
that is refined itself lies more than one level below. -/
def facingLeaf (gid : Nat) (node : PlacedNode) (o : Octant) : Except TopologyError PlacedNode :=
  match node.leafChild o with
  | .ok child => .ok child
  | .error (.notALeaf neighbor) => .error (.levelJump gid neighbor)
  | .error error => .error (.tree error)

def entryFor (destn : Nat) (leaf : PlacedNode) : Except TopologyError NeighborEntry :=
  match leaf.gid? with
  | none => .error (.tree (.notALeaf leaf.loc))
  | some gid => NeighborEntry.resolve ranks gid leaf.loc.level destn

/-- The entries of a block for one direction. A coarser neighbour is listed only where the block lies
on the boundary of its parent along every axis crossed; elsewhere the same neighbour is met across a
face or edge already. -/
def neighborsAcross (gid : Nat) (loc : Location) (region : Region) (destn : Nat) :
    Except TopologyError (List NeighborEntry) :=
  match tree.findNeighbor loc region with
  | .error error => .error (.tree error)
  | .ok none => .ok []
  | .ok (some node) =>
      if node.isLeaf then
        if 1 < loc.level - node.loc.level then .error (.levelJump gid node.loc)
        else if node.loc.level < loc.level && !region.touches 3 loc.octant then .ok []
        else do return [← entryFor ranks destn node]
      else
        (region.reverse.adjacentOctants tree.grid.dim).mapM fun o => do
          entryFor ranks destn (← facingLeaf gid node o)

/-- One slot of a block: its entries for the slot's direction, filled up to the slot's width. -/
def slotEntries (gid : Nat) (loc : Location) (region : Region) :
    Except TopologyError (List NeighborEntry) := do
  let found ←
    match Slot.reciprocal? region with
    | none => pure []
    | some destn => tree.neighborsAcross ranks gid loc region destn
  return found ++ List.replicate (Slot.width tree.grid.dim - found.length) .empty

def rowLength : Nat := Slot.count tree.grid.dim * Slot.width tree.grid.dim

def rowAt (gid : Nat) (loc : Location) : Except TopologyError (List (List NeighborEntry)) :=
  (Slot.regions tree.grid.dim).mapM (tree.slotEntries ranks gid loc)

def row? (gid : Nat) : Option (Except TopologyError (List NeighborEntry)) :=
  (tree.location? gid).map fun loc => List.flatten <$> tree.rowAt ranks gid loc

end BlockTree

end AdaptiveMesh
