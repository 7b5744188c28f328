import AdaptiveMesh.Mesh.Basic
import AdaptiveMesh.Stored.Reader

/-!
# Stored forms

For each domain type that is kept in files, its reader and its form as a value. Grids, trees and
meshes are checked while they are read: a record whose numbers describe none is refused with the
message of that check.
-/

namespace AdaptiveMesh

set_option autoImplicit false

open RecordReader

namespace Stored

def octantLabel : Reader OctantLabel := Reader.byte.mapped fun byte => ⟨byte.toUInt8⟩

def faceLabel : Reader FaceLabel :=
  (FaceLabel.mk <$> required "axis" Reader.size <*> required "side" Reader.bool).reader "Face"

def sideName : Side → String
  | .left => "Left"
  | .middle => "Middle"
  | .right => "Right"

def side : Reader Side := Reader.variant (Side.all.map fun side => (sideName side, side))

def region : Reader Region := (Region.mk <$> required "sides" (Reader.triple side)).reader "Region"

def location : Reader Location :=
  (Location.mk <$> required "level" Reader.level <*>
    required "lx" (Reader.triple Reader.coordinate)).reader "LogicalLocation"

def entry : Reader NeighborEntry :=
  (NeighborEntry.mk <$> required "gid" Reader.entryField <*>
    required "level" Reader.entryField <*> required "rank" Reader.entryField <*>
    required "destn" Reader.entryField).reader "NeighborEntry"

def grid : Reader RootGrid :=
  ((fun dim blocks periodic => (dim, blocks, periodic)) <$> required "dim" Reader.size <*>
    required "blocks" (Reader.triple Reader.size) <*>
    required "periodic" (Reader.triple Reader.bool)).checked "RootGridDef"
      fun (dim, blocks, periodic) => (RootGrid.create dim blocks periodic).mapError GridError.message

def tree : Reader BlockTree :=
  (TreeCheckpoint.mk <$> required "grid" grid <*>
    required "leaves" (Reader.list location)).checked "TreeCheckpoint" fun kept =>
      kept.restore.mapError TreeError.message

def boundaryFlag : Reader BoundaryFlag :=
  Reader.variant (BoundaryFlag.all.map fun flag => (flag.name, flag))

def condition (name : String) : RecordReader BoundaryFlag :=
  optional name BoundaryFlag.unspecified boundaryFlag

def boundaryConds : Reader BoundaryConds :=
  (FaceMap.mk <$> condition "inner_x1" <*> condition "outer_x1" <*> condition "inner_x2" <*>
    condition "outer_x2" <*> condition "inner_x3" <*> condition "outer_x3").reader "BoundaryConds"

def config : Reader MeshConfig :=
  (MeshConfig.mk <$> required "dim" Reader.size <*>
    required "root_blocks" (Reader.triple Reader.size) <*>
    optional "boundary" BoundaryConds.unspecified boundaryConds).reader "MeshConfig"

def costs : Reader (Array Float) := (Reader.list Reader.number).mapped List.toArray

def mesh : Reader Mesh :=
  (MeshCheckpoint.mk <$> required "config" config <*> required "tree" tree <*>
    required "costs" costs <*> required "balanced" costs <*> required "workers" Reader.size <*>
    required "rank" Reader.size).checked "MeshCheckpoint" fun kept =>
      kept.restore.mapError MeshError.message

end Stored

/-! Each `toValue` gives the form that the reader of the same type takes. -/

def OctantLabel.toValue (label : OctantLabel) : Value := .natural label.byte.toNat

def FaceLabel.toValue (label : FaceLabel) : Value :=
  .record [("axis", .natural label.axis), ("side", .bool label.side)]

def Side.toValue (side : Side) : Value := .text (Stored.sideName side)

def Region.toValue (region : Region) : Value :=
  .record [("sides", .list (region.sides.toList.map Side.toValue))]

def Location.toValue (loc : Location) : Value :=
  .record [("level", .natural loc.level), ("lx", .integers loc.lx.toList)]

def NeighborEntry.toValue (entry : NeighborEntry) : Value :=
  .record [("gid", .integer entry.gid), ("level", .integer entry.level),
    ("rank", .integer entry.rank), ("destn", .integer entry.destn)]

def RootGrid.toValue (grid : RootGrid) : Value :=
  .record [("dim", .natural grid.dim), ("blocks", .list (grid.blocks.toList.map .natural)),
    ("periodic", .list (grid.periodic.toList.map .bool))]

def BlockTree.toValue (tree : BlockTree) : Value :=
  let kept := tree.checkpoint
  .record [("grid", kept.grid.toValue), ("leaves", .list (kept.leaves.map Location.toValue))]

def BoundaryFlag.toValue (flag : BoundaryFlag) : Value := .text flag.name

def BoundaryConds.toValue (conds : BoundaryConds) : Value :=
  .record [("inner_x1", conds.innerX1.toValue), ("outer_x1", conds.outerX1.toValue),
    ("inner_x2", conds.innerX2.toValue), ("outer_x2", conds.outerX2.toValue),
    ("inner_x3", conds.innerX3.toValue), ("outer_x3", conds.outerX3.toValue)]

def MeshConfig.toValue (config : MeshConfig) : Value :=
  .record [("dim", .natural config.dim),
    ("root_blocks", .list (config.rootBlocks.toList.map .natural)),
    ("boundary", BoundaryConds.toValue config.boundary)]

def Mesh.toValue (mesh : Mesh) : Value :=
  let kept := mesh.checkpoint
  .record [("config", kept.config.toValue), ("tree", kept.tree.toValue),
    ("costs", .list (kept.costs.toList.map .number)),
    ("balanced", .list (kept.balanced.toList.map .number)),
    ("workers", .natural kept.workers), ("rank", .natural kept.rank)]

end AdaptiveMesh
