import AdaptiveMesh.BlockTree.Refine

/-!
# Coarsening a block tree

A family is all children of one parent, all of them leaves; it may be merged into the parent if the
parent is not coarser than a root block. The members of a family follow one another in gid order, so
a family is found by comparing the next leaves with the children of the first one's parent.
`coarsen` accepts flags that mark whole families; `balanceCoarsenFlags` clears all other flags, and
those of families that touch a finer block.
-/

namespace AdaptiveMesh

set_option autoImplicit false

def RootGrid.familyParent? (grid : RootGrid) (leaves : List Location) : Option Location := do
  let first ← leaves.head?
  let parent ← first.parent?
  if grid.rootLevel ≤ parent.level ∧ leaves = grid.children parent then some parent else none

namespace BlockTree

variable (tree : BlockTree)

def mayMerge (parent : Location) : Except TreeError Bool :=
  (tree.grid.children parent).allM fun member => return !(← tree.bordersFiner member)

/-- The flags that remain of the given leaves: those of whole flagged families that touch no finer
block. `skip` leaves have been dealt with already, as later members of a family. -/
def keptFlags : (leaves : List (Location × Bool)) → (skip : Nat) → (keep : Bool) →
    Except TreeError (List Bool)
  | [], _, _ => .ok []
  | _ :: rest, skip + 1, keep => return keep :: (← keptFlags rest skip keep)
  | leaf :: rest, 0, _ =>
      let group := (leaf :: rest).take tree.grid.numChildren
      match tree.grid.familyParent? (group.map Prod.fst) with
      | none => return false :: (← keptFlags rest 0 false)
      | some parent => do
          let keep ← if group.all Prod.snd then tree.mayMerge parent else pure false
          return keep :: (← keptFlags rest (tree.grid.numChildren - 1) keep)

/-- Clears the flags that can not be honoured: of blocks whose family is not complete and wholly
flagged, of families of root blocks, and of families that touch a finer block. -/
def balanceCoarsenFlags (flags : Array Bool) : Except TreeError (Array Bool) := do
  tree.checkFlagCount flags
  return (← tree.keptFlags (tree.withFlags flags) 0 false).toArray

/-- The leaves that remain of the given ones, each with the number of old leaves it covers. `skip`
leaves have been merged already, as later members of a family. -/
def merged (grid : RootGrid) : (leaves : List (Location × Bool)) → (skip : Nat) →
    Except TreeError (List (Location × Nat))
  | [], _ => .ok []
  | _ :: rest, skip + 1 => merged grid rest skip
  | leaf :: rest, 0 =>
      if leaf.2 then
        let group := (leaf :: rest).take grid.numChildren
        match grid.familyParent? (group.map Prod.fst) with
        | none => .error (.invalidCoarsenFlags leaf.1)
        | some parent =>
            if group.all Prod.snd then
              return (parent, grid.numChildren) :: (← merged grid rest (grid.numChildren - 1))
            else .error (.invalidCoarsenFlags leaf.1)
      else return (leaf.1, 1) :: (← merged grid rest 0)

/-- Merges each flagged family into its parent. Returns the new tree and, for every old gid, the gid
of the new leaf that covers it. -/
def coarsen (flags : Array Bool) : Except TreeError (BlockTree × List Nat) := do
  tree.checkFlagCount flags
  let pieces ← merged tree.grid (tree.withFlags flags) 0
  let next ← ofLeaves tree.grid (pieces.map Prod.fst)
  return (next, pieces.zipIdx.flatMap fun (piece, gid) => List.replicate piece.2 gid)

end BlockTree

end AdaptiveMesh
