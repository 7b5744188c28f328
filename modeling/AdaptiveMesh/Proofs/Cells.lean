import Mathlib.Data.List.Nodup
import AdaptiveMesh.Proofs.Box

/-!
# Cells of the domain

From the root level on the domain consists of whole cells: along an active axis as many as the root
blocks are cut into, along a degenerate axis one. Where their number is a word, the places inside the
domain are the cells counted here (`contains_iff_holds`). Every place of the domain has a cell of any
finer level in its lower corner, and the root blocks are the cells of the root level.
-/

namespace AdaptiveMesh

set_option autoImplicit false

def Location.cornerAt (loc : Location) (level : Nat) : Location := ⟨level, .ofFn (loc.lowerAt level)⟩

namespace Location

variable {loc : Location} {level : Nat}

@[simp] theorem level_cornerAt (loc : Location) (level : Nat) : (loc.cornerAt level).level = level :=
  rfl

@[simp] theorem lx_cornerAt (loc : Location) (level : Nat) (axis : Axis) :
    (loc.cornerAt level).lx axis = loc.lowerAt level axis := by
  simp [cornerAt]

theorem contains_cornerAt (finer : loc.level ≤ level) : loc.contains (loc.cornerAt level) = true := by
  rw [contains_iff]
  refine ⟨finer, fun axis => ?_⟩
  rw [lx_cornerAt, level_cornerAt, lowerAt]
  exact Int.mul_ediv_cancel _ (by positivity)

end Location

namespace RootGrid

variable {grid : RootGrid} {loc place : Location} {level : Nat}

/-- Number of cells of the domain along an axis, at a level from the root level on. -/
def cells (grid : RootGrid) (level : Nat) (axis : Axis) : Nat :=
  if axis.val < grid.dim then grid.blocks axis * 2 ^ (level - grid.rootLevel) else 1

def Holds (grid : RootGrid) (place : Location) : Prop :=
  ∀ axis, 0 ≤ place.lx axis ∧ place.lx axis < grid.cells place.level axis

instance (grid : RootGrid) (place : Location) : Decidable (grid.Holds place) :=
  inferInstanceAs (Decidable (∀ _, _))

theorem extent_eq_cells (fits : grid.LevelFits level) (fine : grid.rootLevel ≤ level) (axis : Axis) :
    grid.extent level axis = grid.cells level axis := by
  unfold cells
  split
  · rename_i active
    rw [extent_active fits fine active]
    push_cast
    rfl
  · rename_i degenerate
    exact extent_degenerate (Nat.not_lt.1 degenerate)

theorem contains_iff_holds (fits : grid.LevelFits loc.level) (fine : grid.rootLevel ≤ loc.level) :
    grid.contains loc = true ↔ grid.Holds loc := by
  rw [contains_iff, Holds]
  apply forall_congr'
  intro axis
  rw [extent_eq_cells fits fine]

theorem contains_cornerAt (fits : grid.LevelFits level) (near : grid.rootLevel ≤ loc.level + 62)
    (finer : loc.level ≤ level) (inside : grid.contains loc = true) :
    grid.contains (loc.cornerAt level) = true := by
  rw [contains_iff] at inside ⊢
  intro axis
  obtain ⟨lower, upper⟩ := inside axis
  rw [Location.lx_cornerAt, Location.level_cornerAt, Location.lowerAt]
  refine ⟨mul_nonneg lower (by positivity), ?_⟩
  rcases Nat.lt_or_ge axis.val grid.dim with active | degenerate
  · rw [lt_extent_iff (fits.mono finer) near active] at upper
    rw [lt_extent_iff fits (by omega) active]
    have places : (0 : Int) < 2 ^ (level - loc.level) := by positivity
    have split : (2 : Int) ^ level = 2 ^ loc.level * 2 ^ (level - loc.level) := by
      rw [← pow_add]
      congr 1
      omega
    calc loc.lx axis * 2 ^ (level - loc.level) * 2 ^ grid.rootLevel
        = loc.lx axis * 2 ^ grid.rootLevel * 2 ^ (level - loc.level) := by ring
      _ < grid.blocks axis * 2 ^ loc.level * 2 ^ (level - loc.level) := by gcongr
      _ = grid.blocks axis * 2 ^ level := by rw [split, mul_assoc]
  · rw [extent_degenerate degenerate] at upper ⊢
    have zero : loc.lx axis = 0 := by omega
    rw [zero, zero_mul]
    decide

theorem exists_contains_above (fits : grid.LevelFits place.level)
    (near : grid.rootLevel ≤ level + 62) (coarser : level ≤ place.level)
    (inside : grid.contains place = true) :
    ∃ above : Location, above.level = level ∧ grid.contains above = true ∧
      above.contains place = true := by
  have proper := root_contains fits (by omega) inside
  have around := (Location.contains_ofPath_iff proper (place.path.take level)).2
    (List.take_prefix _ _)
  have length : (Location.ofPath (place.path.take level)).level = level := by
    simpa using coarser
  exact ⟨_, length, contains_of_contains fits (by omega) around inside, around⟩

theorem cells_rootLevel (grid : RootGrid) (axis : Axis) :
    grid.cells grid.rootLevel axis = grid.blocks axis := by
  unfold cells
  split
  · simp
  · rename_i degenerate
    exact (grid.blocks_degenerate axis (Nat.not_lt.1 degenerate)).symm

theorem mem_rootLocations : loc ∈ grid.rootLocations ↔
    loc.level = grid.rootLevel ∧ grid.Holds loc := by
  have bounds : (∀ axis, 0 ≤ loc.lx axis ∧ loc.lx axis < grid.blocks axis) ↔
      (0 ≤ loc.lx.x1 ∧ loc.lx.x1 < grid.blocks.x1) ∧ (0 ≤ loc.lx.x2 ∧ loc.lx.x2 < grid.blocks.x2) ∧
        (0 ≤ loc.lx.x3 ∧ loc.lx.x3 < grid.blocks.x3) := by
    constructor
    · exact fun all => ⟨all Axis.x1, all Axis.x2, all Axis.x3⟩
    · rintro ⟨first, second, third⟩ axis
      match axis with
      | 0 => exact first
      | 1 => exact second
      | 2 => exact third
  have counted : loc.level = grid.rootLevel ∧ grid.Holds loc ↔ loc.level = grid.rootLevel ∧
      ∀ axis, 0 ≤ loc.lx axis ∧ loc.lx axis < grid.blocks axis := by
    apply and_congr_right
    intro level
    simp only [Holds, level, cells_rootLevel]
  rw [counted, bounds]
  simp only [rootLocations, List.mem_flatMap, List.mem_map, List.mem_range]
  constructor
  · rintro ⟨k, boundK, j, boundJ, i, boundI, rfl⟩
    dsimp only
    exact ⟨rfl, by omega, by omega, by omega⟩
  · rintro ⟨level, ⟨lowerX, upperX⟩, ⟨lowerY, upperY⟩, lowerZ, upperZ⟩
    refine ⟨loc.lx.x3.toNat, by omega, loc.lx.x2.toNat, by omega, loc.lx.x1.toNat, by omega, ?_⟩
    rw [Int.toNat_of_nonneg lowerX, Int.toNat_of_nonneg lowerY, Int.toNat_of_nonneg lowerZ, ← level]

theorem length_rootLocations (grid : RootGrid) :
    grid.rootLocations.length = grid.numRootBlocks := by
  simp only [rootLocations, List.length_flatMap, List.length_map, List.length_range,
    List.map_const', List.sum_replicate_nat, numRootBlocks]
  ring

theorem nodup_rootLocations (grid : RootGrid) : grid.rootLocations.Nodup := by
  have columns (k j : Nat) : ((List.range grid.blocks.x1).map fun (i : Nat) =>
      (⟨grid.rootLevel, ⟨i, j, k⟩⟩ : Location)).Nodup := by
    apply List.Nodup.map _ List.nodup_range
    intro a b same
    simpa using same
  have layers (k : Nat) : ((List.range grid.blocks.x2).flatMap fun (j : Nat) =>
      (List.range grid.blocks.x1).map fun (i : Nat) =>
        (⟨grid.rootLevel, ⟨i, j, k⟩⟩ : Location)).Nodup := by
    rw [List.nodup_flatMap]
    refine ⟨fun j _ => columns k j, List.nodup_range.imp fun {a b} differ => ?_⟩
    intro loc inA inB
    simp only [List.mem_map] at inA inB
    obtain ⟨_, _, rfl⟩ := inA
    obtain ⟨_, _, same⟩ := inB
    exact differ (by simpa using (congrArg (fun place : Location => place.lx.x2) same).symm)
  rw [rootLocations, List.nodup_flatMap]
  refine ⟨fun k _ => layers k, List.nodup_range.imp fun {a b} differ => ?_⟩
  intro loc inA inB
  simp only [List.mem_flatMap, List.mem_map] at inA inB
  obtain ⟨_, _, _, _, rfl⟩ := inA
  obtain ⟨_, _, _, _, same⟩ := inB
  exact differ (by simpa using (congrArg (fun place : Location => place.lx.x3) same).symm)

end RootGrid

end AdaptiveMesh
