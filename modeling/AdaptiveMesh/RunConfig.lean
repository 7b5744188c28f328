import AdaptiveMesh.Stored.Forms

/-!
# Run configurations

A run configuration describes a mesh, the blocks to refine one after another, and costs of single
blocks.
-/

namespace AdaptiveMesh

set_option autoImplicit false

structure BlockCost where
  loc : Location
  cost : Float
deriving Repr

structure RunConfig where
  workers : Nat
  rank : Nat
  mesh : MeshConfig
  /-- Blocks to refine, in order. -/
  refine : List Location
  /-- Costs that differ from one, set after all refinement. -/
  costs : List BlockCost
deriving Repr

namespace Stored

open RecordReader

def blockCost : Reader BlockCost :=
  ((fun level lx cost => BlockCost.mk ⟨level, lx⟩ cost) <$> required "level" Reader.level <*>
    required "lx" (Reader.triple Reader.coordinate) <*> required "cost" Reader.number).reader
      "BlockCost"

/-- A run configuration. One worker is assumed if no number is given, and the first one's tables. -/
def runConfig : Reader RunConfig :=
  (RunConfig.mk <$> optional "workers" 1 Reader.size <*> optional "rank" 0 Reader.size <*>
    required "mesh" config <*> optional "refine" [] (Reader.list location) <*>
    optional "costs" [] (Reader.list blockCost)).reader "Config"

end Stored

end AdaptiveMesh
