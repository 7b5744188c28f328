import AdaptiveMesh.Decimal.Digits
import AdaptiveMesh.Decomposition
import AdaptiveMesh.MeshConfig
import AdaptiveMesh.Topology

/-!
# Meshes

A mesh is a block tree shared out to workers, as one worker sees it. Every worker holds the whole
tree and all costs, and thus computes the same shares; the tables are built for the worker's own
blocks only. Costs may be changed at any time, but the shares follow the costs as they were when the
mesh was last rebuilt. The program's costs are floating-point numbers, and only the operations of
`CostNumber` are used on them.

A checkpoint keeps what can not be derived: of a tree the grid and the leaves, of a mesh the
configuration, tree, costs, the costs of the present shares, the number of workers and the worker.
Everything else is built again, and checked again, when the checkpoint is restored.
-/

namespace AdaptiveMesh

set_option autoImplicit false

inductive MeshError (α : Type := Float) where
  | config (error : ConfigError)
  | tree (error : TreeError)
  | topology (error : TopologyError)
  | decompose (error : DecomposeError α)
  | invalidRank (rank workers : Nat)
  | gridMismatch
  | costCount (expected found : Nat)
deriving Repr

namespace MeshError

def cause? : MeshError → Option String
  | config error => some error.message
  | tree error => some error.message
  | topology error => some error.message
  | decompose error => some (error.message Decimal.shortest)
  | _ => none

def message : MeshError → String
  | config error => s!"invalid mesh configuration: {error.message}"
  | tree error => s!"invalid block tree: {error.message}"
  | topology error => s!"failed to build topology: {error.message}"
  | decompose error => s!"failed to decompose mesh: {error.message Decimal.shortest}"
  | invalidRank rank workers => s!"rank {rank} is out of range for {workers} workers"
  | gridMismatch => "tree was built for a different root grid than the configuration describes"
  | costCount expected found => s!"expected {expected} costs, found {found}"

end MeshError

/-- A mesh as seen by the worker `rank`. -/
structure Mesh (α : Type := Float) where
  config : MeshConfig
  tree : BlockTree
  /-- The estimated cost of every block, by gid. -/
  costs : Array α
  /-- The costs from which the present shares were computed. -/
  balanced : Array α
  decomposition : Decomposition α
  rank : Nat
  /-- The tables of the worker's own blocks. -/
  topology : Topology α

namespace Mesh

variable {α : Type} [CostNumber α]

def lift {ε β : Type} (wrap : ε → MeshError α) : Except ε β → Except (MeshError α) β
  | .ok value => .ok value
  | .error error => .error (wrap error)

def checkCosts (costs : Array α) : Except (MeshError α) Unit :=
  match costs.toList.zipIdx.find? fun (cost, _) => !CostNumber.isCost cost with
  | some (cost, gid) => .error (.decompose (.invalidCost gid cost))
  | none => .ok ()

def withLocalCosts (topology : Topology α) (costs : Array α) : Topology α :=
  { topology with costs := topology.blocks.slice costs }

/-- Shares the blocks of a tree out by `balanced` and builds the worker's tables, which show
`costs`. -/
def assemble (config : MeshConfig) (tree : BlockTree) (balanced costs : Array α)
    (workers rank : Nat) : Except (MeshError α) (Mesh α) := do
  let decomposition ← lift .decompose (Decomposition.ofCosts balanced workers)
  let topology ← lift .topology
    (Topology.build tree config.boundary (decomposition.range rank) decomposition.ranks)
  return {
    config, tree, costs, balanced, decomposition, rank
    topology := withLocalCosts topology costs }

/-- The mesh that has these parts. The shares follow `balanced`, while `costs` are pending. -/
def restore (config : MeshConfig) (tree : BlockTree) (balanced costs : Array α)
    (workers rank : Nat) : Except (MeshError α) (Mesh α) := do
  if workers ≤ rank then throw (.invalidRank rank workers)
  if tree.grid ≠ (← lift .config config.rootGrid) then throw .gridMismatch
  if balanced.size ≠ tree.numLeaves then throw (.costCount tree.numLeaves balanced.size)
  if costs.size ≠ tree.numLeaves then throw (.costCount tree.numLeaves costs.size)
  checkCosts costs
  assemble config tree balanced costs workers rank

def ofTree (config : MeshConfig) (tree : BlockTree) (costs : Array α) (workers rank : Nat) :
    Except (MeshError α) (Mesh α) :=
  restore config tree costs costs workers rank

def create (config : MeshConfig) (workers rank : Nat) : Except (MeshError α) (Mesh α) := do
  let grid ← lift .config config.rootGrid
  let tree ← lift .tree (BlockTree.uniform grid)
  ofTree config tree (Array.replicate tree.numLeaves CostNumber.unit) workers rank

variable (mesh : Mesh α)

def numWorkers : Nat := mesh.decomposition.numWorkers

def numBlocks : Nat := mesh.tree.numLeaves

def rebuild (tree : BlockTree) (costs : Array α) : Except (MeshError α) (Mesh α) :=
  assemble mesh.config tree costs costs mesh.numWorkers mesh.rank

/-- Changes the estimated cost of a block. The shares follow at the next rebuilding. -/
def setCost (gid : Nat) (cost : α) : Except (MeshError α) (Mesh α) :=
  if mesh.numBlocks ≤ gid then .error (.decompose (.invalidGid gid mesh.numBlocks))
  else if !CostNumber.isCost cost then .error (.decompose (.invalidCost gid cost))
  else
    let topology :=
      ((mesh.topology.local? gid).bind fun position =>
        mesh.topology.setCost? position cost).getD mesh.topology
    .ok { mesh with costs := mesh.costs.setIfInBounds gid cost, topology }

def rebalance : Except (MeshError α) (Mesh α) := mesh.rebuild mesh.tree mesh.costs

/-- The mesh as another worker sees it, shared out by the present costs. -/
def view (workers rank : Nat) : Except (MeshError α) (Mesh α) :=
  ofTree mesh.config mesh.tree mesh.costs workers rank

end Mesh

structure TreeCheckpoint where
  grid : RootGrid
  leaves : List Location
deriving DecidableEq

def BlockTree.checkpoint (tree : BlockTree) : TreeCheckpoint := ⟨tree.grid, tree.locations.toList⟩

def TreeCheckpoint.restore (kept : TreeCheckpoint) : Except TreeError BlockTree :=
  BlockTree.ofLeaves kept.grid kept.leaves

structure MeshCheckpoint (α : Type := Float) where
  config : MeshConfig
  tree : BlockTree
  /-- Costs, pending ones included. -/
  costs : Array α
  balanced : Array α
  workers : Nat
  rank : Nat

def Mesh.checkpoint {α : Type} (mesh : Mesh α) : MeshCheckpoint α where
  config := mesh.config
  tree := mesh.tree
  costs := mesh.costs
  balanced := mesh.balanced
  workers := mesh.numWorkers
  rank := mesh.rank

def MeshCheckpoint.restore {α : Type} [CostNumber α] (kept : MeshCheckpoint α) :
    Except (MeshError α) (Mesh α) :=
  Mesh.restore kept.config kept.tree kept.balanced kept.costs kept.workers kept.rank

end AdaptiveMesh
