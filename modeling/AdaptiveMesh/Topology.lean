import AdaptiveMesh.Boundary
import AdaptiveMesh.Decomposition
import AdaptiveMesh.Neighbor.Row

/-!
# Topologies

The topology of a span of blocks holds their gids, levels, boundary flags and neighbour rows in flat
tables, one stretch per block in gid order, and an estimated cost per block. It is built from scratch
whenever the tree or the assignment of blocks to workers changes, and every table is published before
the topology is handed out.
-/

namespace AdaptiveMesh

set_option autoImplicit false

/-- The tables of a span of blocks, whose costs are floating-point numbers unless said otherwise. -/
structure Topology (α : Type := Float) where
  dim : Nat
  blocks : Span
  gids : StagedArray Int
  levels : StagedArray Int
  /-- Six flags per block, in face order. -/
  boundaries : StagedArray BoundaryFlag
  /-- One row per block. -/
  neighbors : StagedArray NeighborEntry
  /-- For every flag, whether it is a physical condition. -/
  physical : Array Bool
  costs : Array α
deriving Repr

namespace Topology

def publishedTable {α : Type} (blank : α) (values : List α) : StagedArray α :=
  ((StagedArray.filled 0 blank).fillWith values.toArray).publish

/-- Builds the tables of a span of a tree's blocks. `ranks` gives the worker of every block of the
tree. All blocks cost one to begin with. -/
def build {α : Type} [CostNumber α] (tree : BlockTree) (conds : BoundaryConds) (blocks : Span)
    (ranks : Array Nat) : Except TopologyError (Topology α) := do
  if blocks.stop < blocks.start || tree.numLeaves < blocks.stop then
    throw (.invalidRange blocks.start blocks.stop tree.numLeaves)
  if ranks.size ≠ tree.numLeaves then
    throw (.rankCount tree.numLeaves ranks.size)
  let locations := (blocks.slice tree.locations).toList
  let gids ← blocks.toList.mapM NeighborEntry.field
  let rows ← (locations.zip blocks.toList).mapM fun (loc, gid) => tree.rowAt ranks gid loc
  let flags := locations.flatMap fun loc => (tree.grid.classify conds loc).toList
  return {
    dim := tree.grid.dim
    blocks
    gids := publishedTable (-1) gids
    levels := publishedTable (-1) (locations.map fun loc => (loc.level : Int))
    boundaries := publishedTable .block flags
    neighbors := publishedTable .empty (rows.flatten.flatten)
    physical := (flags.map BoundaryFlag.isPhysical).toArray
    costs := Array.replicate blocks.size CostNumber.unit }

variable {α : Type} (topology : Topology α)

def numBlocks : Nat := topology.blocks.size

def numSlots : Nat := Slot.count topology.dim

def slotWidth : Nat := Slot.width topology.dim

def rowLength : Nat := topology.numSlots * topology.slotWidth

def local? (gid : Nat) : Option Nat :=
  if topology.blocks.contains gid then some (gid - topology.blocks.start) else none

def gid? (position : Nat) : Option Nat := topology.gids.device[position]?.map Int.toNat

def level? (position : Nat) : Option Nat := topology.levels.device[position]?.map Int.toNat

def boundary? (position : Nat) : Option (FaceMap BoundaryFlag) :=
  FaceMap.ofList?
    (Span.slice ⟨6 * position, 6 * position + 6⟩ topology.boundaries.device).toList

def isPhysical? (position : Nat) (face : Face) : Option Bool :=
  topology.physical[6 * position + face.linear]?

def physicalFaces (position : Nat) : List Face :=
  Face.all.filter fun face => topology.isPhysical? position face = some true

def row? (position : Nat) : Option (Array NeighborEntry) :=
  if position < topology.numBlocks then
    let start := position * topology.rowLength
    some (Span.slice ⟨start, start + topology.rowLength⟩ topology.neighbors.device)
  else none

def slot? (position slot : Nat) : Option (Array NeighborEntry) := do
  let row ← topology.row? position
  if slot < topology.numSlots then
    let start := slot * topology.slotWidth
    some (Span.slice ⟨start, start + topology.slotWidth⟩ row)
  else none

def neighborTable : Except SyncError (Array NeighborEntry) := topology.neighbors.read

def boundaryTable : Except SyncError (Array BoundaryFlag) := topology.boundaries.read

def setCost? (position : Nat) (cost : α) : Option (Topology α) :=
  if position < topology.costs.size then
    some { topology with costs := topology.costs.setIfInBounds position cost }
  else none

end Topology

end AdaptiveMesh
