import AdaptiveMesh.BlockTree.Neighbor
import AdaptiveMesh.Proofs.Box
import AdaptiveMesh.Proofs.Descent

/-!
# Neighbourhoods

Along periodic axes a block has images beyond the ends of the domain. A step from a block either
leaves the domain, or ends inside an image of a leaf that is at most as fine, or ends at an image of
a refined node (`findNeighbor_cases`); which of the three it is follows from any image of a leaf that
the step meets. So the blocks found by steps in all directions are those that touch.
-/

namespace AdaptiveMesh

set_option autoImplicit false

theorem Region.isValidFor_iff {r : Region} {dim : Nat} : r.isValidFor dim = true ↔
    ∀ axis : Axis, dim ≤ axis.val → r.side axis = .middle := by
  simp only [isValidFor, List.all_eq_true, Axis.mem_all, true_implies, Bool.or_eq_true,
    decide_eq_true_eq]
  apply forall_congr'
  intro axis
  rw [← not_lt]
  tauto

namespace BlockTree

variable {tree : BlockTree} {gid other : Nat} {loc home place target : Location} {r : Region}
  {turns : Triple Int}

/-- Whether a place is an image of a block, the block itself included. -/
def IsImage (tree : BlockTree) (gid : Nat) (place : Location) : Prop :=
  ∃ loc turns, tree.location? gid = some loc ∧ tree.grid.Winds turns ∧
    place = tree.grid.image loc turns

theorem lx_shifted_eq_zero (inside : tree.grid.contains loc = true)
    (valid : r.isValidFor tree.grid.dim = true) {axis : Axis}
    (degenerate : tree.grid.dim ≤ axis.val) : (loc.shifted r).lx axis = 0 := by
  rw [Location.lx_shifted, RootGrid.lx_eq_zero inside degenerate,
    Region.isValidFor_iff.1 valid axis degenerate]
  rfl

theorem findNeighbor_of_wrap {node : PlacedNode} (valid : r.isValidFor tree.grid.dim = true)
    (wrapped : tree.grid.wrap (loc.shifted r) = .ok (some target))
    (reached : tree.rootNode.reach target.path = .ok node) :
    tree.findNeighbor loc r = .ok (some node) := by
  rw [findNeighbor, valid, wrapped]
  simp only [Bool.not_true, Bool.false_eq_true, if_false, bind, Except.bind, reached]
  rfl

theorem findNeighbor_none (valid : r.isValidFor tree.grid.dim = true)
    (outside : tree.grid.wrap (loc.shifted r) = .ok none) :
    tree.findNeighbor loc r = .ok none := by
  rw [findNeighbor, valid, outside]
  rfl

theorem findNeighbor_of_image {node : PlacedNode} (fits : tree.grid.LevelFits loc.level)
    (fine : tree.grid.rootLevel ≤ loc.level) (valid : r.isValidFor tree.grid.dim = true)
    (winds : tree.grid.Winds turns) (inside : tree.grid.contains target = true)
    (step : loc.shifted r = tree.grid.image target turns)
    (reached : tree.rootNode.reach target.path = .ok node) :
    tree.findNeighbor loc r = .ok (some node) := by
  have level : target.level = loc.level := (congrArg Location.level step).symm
  have wrapped := RootGrid.wrap_image (level ▸ fits) (by omega) winds inside
  exact findNeighbor_of_wrap valid (step ▸ wrapped) reached

theorem findNeighbor_of_block (fits : tree.Fits) (block : tree.location? gid = some loc)
    (valid : r.isValidFor tree.grid.dim = true) (found : tree.location? other = some home)
    (winds : tree.grid.Winds turns)
    (inside : (tree.grid.image home turns).contains (loc.shifted r) = true) :
    tree.findNeighbor loc r = .ok (some ⟨home, .leaf other⟩) := by
  have fine := rootLevel_le_level found
  have fitsLoc := fits.level block
  have fitsStep : tree.grid.LevelFits (loc.shifted r).level := fitsLoc
  have within := (RootGrid.contains_image_back_iff winds fitsStep fine).1 inside
  have flat (axis : Axis) (degenerate : tree.grid.dim ≤ axis.val) :
      (tree.grid.image (loc.shifted r) (RootGrid.back turns)).lx axis = 0 := by
    rw [RootGrid.lx_image, winds.back.degenerate degenerate,
      lx_shifted_eq_zero (contains_block fits block) valid degenerate]
    simp
  have step : loc.shifted r =
      tree.grid.image (tree.grid.image (loc.shifted r) (RootGrid.back turns)) turns :=
    (RootGrid.image_of_back ..).symm
  have fitsTarget : tree.grid.LevelFits
      (tree.grid.image (loc.shifted r) (RootGrid.back turns)).level := fitsStep
  have domain := RootGrid.contains_of_inside fitsTarget fine within (contains_block fits found) flat
  have near := (rootLevel_le_level block).trans (Nat.le_add_right _ 62)
  have proper := RootGrid.root_contains fitsTarget near domain
  exact findNeighbor_of_image fitsLoc (rootLevel_le_level block) valid winds domain step
    (reach_block found proper within)

theorem findNeighbor_of_finer (fits : tree.Fits) (block : tree.location? gid = some loc)
    (valid : r.isValidFor tree.grid.dim = true) (found : tree.location? other = some home)
    (winds : tree.grid.Winds turns) (finer : loc.level < home.level)
    (inside : (loc.shifted r).contains (tree.grid.image home turns) = true) :
    ∃ f, tree.findNeighbor loc r =
      .ok (some ⟨tree.grid.image (loc.shifted r) (RootGrid.back turns), .ofChildren f⟩) ∧
      tree.root.along (tree.grid.image (loc.shifted r) (RootGrid.back turns)).path =
        .ofChildren f ∧
      (tree.grid.image (loc.shifted r) (RootGrid.back turns)).contains home = true := by
  generalize target_eq : tree.grid.image (loc.shifted r) (RootGrid.back turns) = target
  have level : target.level = loc.level := by rw [← target_eq]; rfl
  have fine := rootLevel_le_level block
  have step : loc.shifted r = tree.grid.image target turns := by
    rw [← target_eq, RootGrid.image_of_back]
  have within : target.contains home = true := by
    rw [step, RootGrid.contains_image_iff winds (fits.level found) (by omega)] at inside
    exact inside
  have domain := RootGrid.contains_of_contains (fits.level found) (by omega) within
    (contains_block fits found)
  have fitsTarget : tree.grid.LevelFits target.level := level ▸ fits.level block
  have proper := RootGrid.root_contains fitsTarget (by omega) domain
  rcases exists_cover fitsTarget (by omega) domain with ⟨third, cover, covers, outside⟩ | ⟨f, refined⟩
  · -- a leaf around the target would contain the finer block
    have same := (eq_of_contains_block covers found (Location.contains_trans outside within)).2
    have coarser := Location.level_le_of_contains outside
    rw [same] at coarser
    omega
  · exact ⟨f, findNeighbor_of_image (fits.level block) fine valid winds domain step
      (reach_refined proper refined), refined, within⟩

/-- A step from a block ends inside an image of a leaf, at an image of a refined node, or outside of
the domain. -/
theorem findNeighbor_cases (fits : tree.Fits) (block : tree.location? gid = some loc)
    (valid : r.isValidFor tree.grid.dim = true) :
    (∃ other home turns, tree.findNeighbor loc r = .ok (some ⟨home, .leaf other⟩) ∧
      tree.location? other = some home ∧ tree.grid.Winds turns ∧
      (tree.grid.image home turns).contains (loc.shifted r) = true) ∨
    (∃ target turns f, tree.findNeighbor loc r = .ok (some ⟨target, .ofChildren f⟩) ∧
      tree.root.along target.path = .ofChildren f ∧ Location.root.contains target = true ∧
      tree.grid.contains target = true ∧ tree.grid.Winds turns ∧
      loc.shifted r = tree.grid.image target turns) ∨
    tree.findNeighbor loc r = .ok none := by
  have fitsLoc := fits.level block
  have fine := rootLevel_le_level block
  have fitsStep : tree.grid.LevelFits (loc.shifted r).level := fitsLoc
  have near := fine.trans (Nat.le_add_right _ 62)
  rcases RootGrid.wrap_cases fitsStep near
      (fun axis => lx_shifted_eq_zero (contains_block fits block) valid) with
    ⟨target, turns, inside, winds, step⟩ | ⟨_, outside⟩
  · have level : target.level = loc.level := (congrArg Location.level step).symm
    have fitsTarget : tree.grid.LevelFits target.level := level ▸ fitsLoc
    have proper := RootGrid.root_contains fitsTarget (by omega) inside
    rcases exists_cover fitsTarget (by omega) inside with ⟨other, home, found, within⟩ | ⟨f, refined⟩
    · left
      refine ⟨other, home, turns, ?_, found, winds, ?_⟩
      · exact findNeighbor_of_image fitsLoc fine valid winds inside step
          (reach_block found proper within)
      · rw [step, RootGrid.contains_image_iff winds fitsTarget (rootLevel_le_level found)]
        exact within
    · right
      left
      exact ⟨target, turns, f, findNeighbor_of_image fitsLoc fine valid winds inside step
        (reach_refined proper refined), refined, proper, inside, winds, step⟩
  · right
    right
    exact findNeighbor_none valid outside

end BlockTree

end AdaptiveMesh
