import AdaptiveMesh.Mesh.Adapt

/-!
# Actions

What a caller can do with a mesh once it has been made. A call that fails leaves the mesh as it was.
What an action makes of the tree and the costs depends on nothing else, so workers that hold the same
tree and costs plan the same.
-/

namespace AdaptiveMesh

set_option autoImplicit false

inductive Action (α : Type) where
  | refine (flags : Array Bool)
  | coarsen (flags : Array Bool)
  | rebalance
  | setCost (gid : Nat) (cost : α)

namespace Mesh

variable {α : Type} [CostNumber α] (mesh : Mesh α)

def act : Action α → Except (MeshError α) (Mesh α)
  | .refine flags => mesh.refine flags
  | .coarsen flags => mesh.coarsen flags
  | .rebalance => mesh.rebalance
  | .setCost gid cost => mesh.setCost gid cost

/-- The mesh after a call, which changes nothing if it fails. -/
def after (action : Action α) : Mesh α :=
  match mesh.act action with
  | .ok next => next
  | .error _ => mesh

def run (actions : List (Action α)) : Mesh α := actions.foldl after mesh

def plan : Action α → Except (MeshError α) (BlockTree × Array α)
  | .refine flags => do
      let flags ← lift .tree (mesh.tree.balanceRefineFlags flags)
      let (tree, _) ← lift .tree (mesh.tree.refine flags)
      return (tree, spreadCosts mesh.tree.grid.numChildren mesh.costs flags)
  | .coarsen flags => do
      let flags ← lift .tree (mesh.tree.balanceCoarsenFlags flags)
      let (tree, map) ← lift .tree (mesh.tree.coarsen flags)
      return (tree, mergedCosts tree.numLeaves mesh.costs map)
  | .rebalance => return (mesh.tree, mesh.costs)
  | .setCost gid cost => return (mesh.tree, mesh.costs.setIfInBounds gid cost)

/-- Number of blocks that a call leaves, or none if it gets no tree. -/
def plannedBlocks (action : Action α) : Nat :=
  match mesh.plan action with
  | .ok (tree, _) => tree.numLeaves
  | .error _ => 0

end Mesh

end AdaptiveMesh
