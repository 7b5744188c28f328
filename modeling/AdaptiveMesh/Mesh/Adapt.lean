import AdaptiveMesh.BlockTree.Coarsen
import AdaptiveMesh.Mesh.Basic

/-!
# Adapting a mesh

Where to refine or coarsen is decided by the caller, block by block. The mesh completes or cuts back
the flags so that touching blocks stay within one level of each other, adapts its tree, carries the
costs over and shares the blocks out again. A failed attempt leaves no trace, since a mesh is a
value.
-/

namespace AdaptiveMesh

set_option autoImplicit false

namespace Mesh

variable {α : Type} [CostNumber α]

def spreadCosts (children : Nat) (costs : Array α) (flags : Array Bool) : Array α :=
  ((costs.toList.zip flags.toList).flatMap fun (cost, flag) =>
    List.replicate (if flag then children else 1) cost).toArray

def meanCost (costs : List α) : α := CostNumber.sum costs / CostNumber.ofCount costs.length

/-- Sorts costs into `count` groups. `group` gives the group of each cost, and a group keeps its
costs in order. -/
def grouped (count : Nat) (group : List Nat) (costs : List α) : Array (Array α) :=
  (group.zip costs).foldl (fun groups (index, cost) => groups.modify index (·.push cost))
    (Array.replicate count #[])

/-- The costs after coarsening: the mean of the costs of the blocks that each new block covers.
`map` gives the new block of each old one. -/
def mergedCosts (count : Nat) (costs : Array α) (map : List Nat) : Array α :=
  (grouped count map costs.toList).map fun group => meanCost group.toList

variable (mesh : Mesh α)

def refine (flags : Array Bool) : Except (MeshError α) (Mesh α) := do
  let flags ← lift .tree (mesh.tree.balanceRefineFlags flags)
  let (tree, _) ← lift .tree (mesh.tree.refine flags)
  mesh.rebuild tree (spreadCosts mesh.tree.grid.numChildren mesh.costs flags)

def coarsen (flags : Array Bool) : Except (MeshError α) (Mesh α) := do
  let flags ← lift .tree (mesh.tree.balanceCoarsenFlags flags)
  let (tree, map) ← lift .tree (mesh.tree.coarsen flags)
  mesh.rebuild tree (mergedCosts tree.numLeaves mesh.costs map)

end Mesh

end AdaptiveMesh
