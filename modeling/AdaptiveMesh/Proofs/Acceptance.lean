import Mathlib.Data.List.Perm.Subperm
import AdaptiveMesh.Proofs.Cells
import AdaptiveMesh.Proofs.Numbering

/-!
# Which lists of leaves are accepted

A list of places is accepted as the leaves of a tree exactly if it cuts the domain up: every place of
the list lies in the domain, at the root level or below, and every cell of the finest level listed lies
in exactly one place of the list. The order of the list does not matter, and nothing is lost or added:
the leaves of the tree are the listed places. The root blocks always make a tree.
-/

namespace AdaptiveMesh

set_option autoImplicit false

theorem countP_eq_one_iff {α : Type} {p : α → Bool} {members : List α} : members.countP p = 1 ↔
    (∃ member ∈ members, p member = true) ∧
      members.Pairwise fun a b => ¬(p a = true ∧ p b = true) := by
  induction members with
  | nil => simp
  | cons first rest ih =>
      rw [List.countP_cons, List.pairwise_cons, List.exists_mem_cons_iff]
      by_cases holds : p first = true
      · have none : rest.countP p = 0 ↔ ∀ other ∈ rest, ¬p other = true := List.countP_eq_zero
        simp only [holds, if_true, true_and, true_or, Nat.add_eq_right, none]
        constructor
        · intro absent
          exact ⟨absent, List.pairwise_of_forall_mem_list fun a inA _ _ both => absent a inA both.1⟩
        · exact And.left
      · simp only [holds, Bool.false_eq_true, if_false, Nat.add_zero, false_and, false_or,
          not_false_eq_true, implies_true, true_and]
        exact ih

namespace Location

variable {leaves : List Location} {loc : Location}

def finest (leaves : List Location) : Nat := (leaves.map level).foldr max 0

theorem level_le_finest (member : loc ∈ leaves) : loc.level ≤ finest leaves := by
  induction leaves with
  | nil => cases member
  | cons first rest ih =>
      show loc.level ≤ max first.level (finest rest)
      rcases List.mem_cons.1 member with rfl | later
      · exact Nat.le_max_left _ _
      · exact (ih later).trans (Nat.le_max_right _ _)

theorem exists_level_eq_finest (occupied : leaves ≠ []) : ∃ loc ∈ leaves, loc.level = finest leaves := by
  induction leaves with
  | nil => exact absurd rfl occupied
  | cons first rest ih =>
      rw [List.exists_mem_cons_iff]
      show first.level = max first.level (finest rest) ∨
        ∃ loc ∈ rest, loc.level = max first.level (finest rest)
      by_cases deeper : first.level < finest rest
      · right
        have more : rest ≠ [] := by
          rintro rfl
          exact absurd deeper (Nat.not_lt_zero _)
        rw [Nat.max_eq_right deeper.le]
        exact ih more
      · left
        exact (Nat.max_eq_left (Nat.not_lt.1 deeper)).symm

end Location

namespace RootGrid

variable {grid : RootGrid} {leaves others : List Location}

/-- Whether every cell of the domain, at the finest level listed, lies in exactly one listed place. -/
def CoveredOnce (grid : RootGrid) (leaves : List Location) : Prop :=
  ∀ cell : Location, cell.level = Location.finest leaves → grid.Holds cell →
    leaves.countP (fun loc => loc.contains cell) = 1

theorem Tiles.perm (tiles : grid.Tiles leaves) (same : leaves.Perm others) : grid.Tiles others where
  occupied := by
    intro empty
    rw [empty] at same
    exact tiles.occupied (List.perm_nil.1 same)
  fine := fun loc member => tiles.fine loc (same.mem_iff.2 member)
  inside := fun loc member => tiles.inside loc (same.mem_iff.2 member)
  apart := (same.pairwise_iff fun apart meets => apart (Location.meets_comm.1 meets)).1 tiles.apart
  covering := by
    intro place fits near domain
    obtain ⟨loc, member, meets⟩ := tiles.covering place fits near domain
    exact ⟨loc, same.mem_iff.1 member, meets⟩

section

variable (fits : ∀ loc ∈ leaves, grid.LevelFits loc.level)

include fits

theorem fits_finest (occupied : leaves ≠ []) : grid.LevelFits (Location.finest leaves) := by
  obtain ⟨loc, member, level⟩ := Location.exists_level_eq_finest occupied
  exact level ▸ fits loc member

theorem Tiles.coveredOnce (tiles : grid.Tiles leaves) : grid.CoveredOnce leaves := by
  intro cell level holds
  obtain ⟨deepest, listed, deep⟩ := Location.exists_level_eq_finest tiles.occupied
  have fine := tiles.fine deepest listed
  have fitsCell : grid.LevelFits cell.level := level ▸ fits_finest fits tiles.occupied
  have domain := (contains_iff_holds fitsCell (by omega)).2 holds
  rw [countP_eq_one_iff]
  constructor
  · obtain ⟨loc, member, around | within⟩ := tiles.covering cell fitsCell (by omega) domain
    · exact ⟨loc, member, around⟩
    · refine ⟨loc, member, ?_⟩
      have coarser := Location.level_le_finest member
      rw [Location.eq_of_contains within (by omega)]
      exact Location.contains_refl loc
  · apply tiles.apart.imp
    intro a b apart both
    exact apart (Location.meets_of_contains_common both.1 both.2)

variable (occupied : leaves ≠ [])
  (inside : ∀ loc ∈ leaves, grid.rootLevel ≤ loc.level ∧ grid.contains loc = true)
  (once : grid.CoveredOnce leaves)

include occupied inside once

/-- Every place of the domain has a part in common with some listed place: with the one that holds the
cell in its corner, if it is not finer than that cell. -/
theorem CoveredOnce.covering {place : Location} (fitsPlace : grid.LevelFits place.level)
    (near : grid.rootLevel ≤ place.level + 62) (domain : grid.contains place = true) :
    ∃ loc ∈ leaves, loc.Meets place := by
  have fitsFinest := fits_finest fits occupied
  obtain ⟨deepest, listed, deep⟩ := Location.exists_level_eq_finest occupied
  have fine : grid.rootLevel ≤ Location.finest leaves := deep ▸ (inside deepest listed).1
  have found (cell : Location) (level : cell.level = Location.finest leaves)
      (within : grid.contains cell = true) : ∃ loc ∈ leaves, loc.contains cell = true := by
    have holds := (contains_iff_holds (level ▸ fitsFinest) (by omega)).1 within
    exact (countP_eq_one_iff.1 (once cell level holds)).1
  rcases Nat.le_total place.level (Location.finest leaves) with coarser | finer
  · have corner := contains_cornerAt fitsFinest near coarser domain
    obtain ⟨loc, member, around⟩ := found _ rfl corner
    exact ⟨loc, member,
      Location.meets_of_contains_common around (Location.contains_cornerAt coarser)⟩
  · obtain ⟨above, level, within, around⟩ :=
      exists_contains_above fitsPlace (by omega) finer domain
    obtain ⟨loc, member, outer⟩ := found above level within
    exact ⟨loc, member, .inl (Location.contains_trans outer around)⟩

theorem CoveredOnce.apart : leaves.Pairwise fun a b => ¬a.Meets b := by
  have fitsFinest := fits_finest fits occupied
  -- the cell in the corner of a place would lie in both places that meet there
  have shared (inner : Location) (member : inner ∈ leaves) : leaves.Pairwise fun a b =>
      ¬(a.contains (inner.cornerAt (Location.finest leaves)) = true ∧
        b.contains (inner.cornerAt (Location.finest leaves)) = true) := by
    obtain ⟨fine, domain⟩ := inside inner member
    have coarser := Location.level_le_finest member
    have corner := contains_cornerAt fitsFinest (by omega) coarser domain
    have holds := (contains_iff_holds (by exact fitsFinest) (fine.trans coarser)).1 corner
    exact (countP_eq_one_iff.1 (once _ rfl holds)).2
  have whole (inner : Location) (member : inner ∈ leaves) :=
    Location.contains_cornerAt (Location.level_le_finest member)
  rw [List.pairwise_iff_getElem]
  intro i j boundI boundJ before meets
  have memberI := List.getElem_mem boundI
  have memberJ := List.getElem_mem boundJ
  rcases meets with outer | outer
  · exact List.pairwise_iff_getElem.1 (shared _ memberJ) i j boundI boundJ before
      ⟨Location.contains_trans outer (whole _ memberJ), whole _ memberJ⟩
  · exact List.pairwise_iff_getElem.1 (shared _ memberI) i j boundI boundJ before
      ⟨whole _ memberI, Location.contains_trans outer (whole _ memberI)⟩

end

/-- A list tiles the domain exactly if it covers it once with places of the domain. -/
theorem tiles_iff (fits : ∀ loc ∈ leaves, grid.LevelFits loc.level) : grid.Tiles leaves ↔
    leaves ≠ [] ∧ (∀ loc ∈ leaves, grid.rootLevel ≤ loc.level ∧ grid.Holds loc) ∧
      grid.CoveredOnce leaves := by
  constructor
  · intro tiles
    refine ⟨tiles.occupied, fun loc member => ⟨tiles.fine loc member, ?_⟩, tiles.coveredOnce fits⟩
    exact (contains_iff_holds (fits loc member) (tiles.fine loc member)).1 (tiles.inside loc member)
  · rintro ⟨occupied, held, once⟩
    have inside (loc : Location) (member : loc ∈ leaves) :
        grid.rootLevel ≤ loc.level ∧ grid.contains loc = true := by
      obtain ⟨fine, holds⟩ := held loc member
      exact ⟨fine, (contains_iff_holds (fits loc member) fine).2 holds⟩
    exact ⟨occupied, fun loc member => (inside loc member).1,
      fun loc member => (inside loc member).2, once.apart fits occupied inside,
      fun place => once.covering fits occupied inside⟩

theorem levelFits_rootLevel (small : ∀ axis, grid.blocks axis ≤ 2 ^ 62) :
    grid.LevelFits grid.rootLevel := by
  intro axis
  have bound := small axis
  rw [Nat.sub_self, pow_zero, mul_one]
  omega

theorem tiles_rootLocations (grid : RootGrid) (small : ∀ axis, grid.blocks axis ≤ 2 ^ 62) :
    grid.Tiles grid.rootLocations := by
  have level (loc : Location) (member : loc ∈ grid.rootLocations) : loc.level = grid.rootLevel :=
    (mem_rootLocations.1 member).1
  have corner : (⟨grid.rootLevel, .fill 0⟩ : Location) ∈ grid.rootLocations := by
    refine mem_rootLocations.2 ⟨rfl, fun axis => ?_⟩
    have positive := grid.blocks_pos axis
    simp only [Triple.get_fill, cells_rootLevel]
    omega
  have occupied := List.ne_nil_of_mem corner
  rw [tiles_iff fun loc member => (level loc member).symm ▸ levelFits_rootLevel small]
  refine ⟨occupied, fun loc member => ?_, fun cell finest holds => ?_⟩
  · exact ⟨(level loc member).symm.le, (mem_rootLocations.1 member).2⟩
  · obtain ⟨deepest, listed, deep⟩ := Location.exists_level_eq_finest occupied
    have levelCell : cell.level = grid.rootLevel := by rw [finest, ← deep, level deepest listed]
    have listedCell : cell ∈ grid.rootLocations := mem_rootLocations.2 ⟨levelCell, holds⟩
    have alone : grid.rootLocations.countP (fun loc => loc.contains cell) =
        grid.rootLocations.countP (fun loc => loc == cell) := by
      apply List.countP_congr
      intro loc member
      rw [beq_iff_eq]
      constructor
      · intro around
        exact Location.eq_of_contains around (by rw [levelCell, level loc member])
      · rintro rfl
        exact Location.contains_refl loc
    rw [alone]
    exact List.count_eq_one_of_mem grid.nodup_rootLocations listedCell

end RootGrid

namespace BlockTree

variable {grid : RootGrid} {leaves : List Location} {tree : BlockTree}

theorem inside_of_placeLeaves {placed : Node Unit} (placing : placeLeaves grid leaves = .ok placed) :
    ∀ loc ∈ leaves, grid.rootLevel ≤ loc.level ∧ grid.contains loc = true := by
  rw [placeLeaves] at placing
  generalize Node.absent = start at placing
  induction leaves generalizing start with
  | nil =>
      intro loc member
      cases member
  | cons first rest ih =>
      rw [List.foldlM_cons] at placing
      obtain ⟨next, step, later⟩ := Outcome.bind_ok_iff.1 placing
      obtain ⟨fine, domain, _⟩ := placeLeaf_ok_iff.1 step
      intro loc member
      rcases List.mem_cons.1 member with rfl | inside
      · exact ⟨fine, domain⟩
      · exact ih next later loc inside

theorem exists_placeLeaves_of_ofLeaves (built : ofLeaves grid leaves = .ok tree) :
    ∃ placed, placeLeaves grid leaves = .ok placed := by
  unfold ofLeaves at built
  split at built
  · cases built
  · exact ⟨_, ‹_›⟩

theorem perm_of_ofLeaves (fits : ∀ loc ∈ leaves, grid.LevelFits loc.level)
    (built : ofLeaves grid leaves = .ok tree) :
    tree.grid = grid ∧ tree.locations.toList.Perm leaves ∧ tree.Fits := by
  obtain ⟨placed, placing⟩ := exists_placeLeaves_of_ofLeaves built
  have inside := inside_of_placeLeaves placing
  obtain ⟨same, count, members⟩ := ofLeaves_spec built
  have listed (loc : Location) : loc ∈ tree.locations ↔ loc ∈ leaves := by
    have kept (leaf : Location) (member : leaf ∈ leaves) : Location.ofPath leaf.path = leaf := by
      obtain ⟨fine, domain⟩ := inside leaf member
      exact Location.ofPath_path (RootGrid.root_contains (fits leaf member) (by omega) domain)
    rw [members]
    constructor
    · rintro ⟨leaf, member, rfl⟩
      rwa [kept leaf member]
    · intro member
      exact ⟨loc, member, kept loc member⟩
  have treeFits : tree.Fits := by
    intro loc member
    rw [same]
    exact fits loc ((listed loc).1 member)
  refine ⟨same, ?_, treeFits⟩
  apply List.Subperm.perm_of_length_le
  · apply List.subperm_of_subset tree.nodup_locations
    intro loc member
    exact (listed loc).1 (Array.mem_toList_iff.1 member)
  · rw [Array.length_toList]
    exact count.symm.le

theorem exists_ofLeaves_iff_tiles (fits : ∀ loc ∈ leaves, grid.LevelFits loc.level) :
    (∃ tree, ofLeaves grid leaves = .ok tree) ↔ grid.Tiles leaves := by
  constructor
  · rintro ⟨tree, built⟩
    obtain ⟨same, listed, treeFits⟩ := perm_of_ofLeaves fits built
    have tiles := tiles_locations treeFits
    rw [same] at tiles
    exact tiles.perm listed
  · intro tiles
    obtain ⟨tree, built, _⟩ := ofLeaves_of_tiles tiles fits
    exact ⟨tree, built⟩

/-- A list makes a tree exactly if it covers the domain once, and then the leaves of the tree are the
listed places. A tree with one leaf per root block can always be made. -/
theorem ofLeaves_accepts_tilings (grid : RootGrid) (small : ∀ axis, grid.blocks axis ≤ 2 ^ 62) :
    (∀ leaves : List Location, (∀ loc ∈ leaves, grid.LevelFits loc.level) →
      ((∃ tree, ofLeaves grid leaves = .ok tree) ↔
        leaves ≠ [] ∧ (∀ loc ∈ leaves, grid.rootLevel ≤ loc.level ∧ grid.Holds loc) ∧
          grid.CoveredOnce leaves) ∧
      ∀ tree, ofLeaves grid leaves = .ok tree →
        tree.grid = grid ∧ tree.locations.toList.Perm leaves) ∧
    ∃ tree, uniform grid = .ok tree ∧ tree.grid = grid ∧ tree.numLeaves = grid.numRootBlocks ∧
      ∀ loc, loc ∈ tree.locations ↔ loc.level = grid.rootLevel ∧
        ∀ axis, 0 ≤ loc.lx axis ∧ loc.lx axis < grid.blocks axis := by
  constructor
  · intro leaves fits
    constructor
    · rw [exists_ofLeaves_iff_tiles fits, RootGrid.tiles_iff fits]
    · intro tree built
      obtain ⟨same, listed, _⟩ := perm_of_ofLeaves fits built
      exact ⟨same, listed⟩
  · have fits (loc : Location) (member : loc ∈ grid.rootLocations) : grid.LevelFits loc.level := by
      rw [(RootGrid.mem_rootLocations.1 member).1]
      exact RootGrid.levelFits_rootLevel small
    obtain ⟨tree, built, same, count, members⟩ :=
      ofLeaves_of_tiles (grid.tiles_rootLocations small) fits
    refine ⟨tree, built, same, by rw [count, RootGrid.length_rootLocations], fun loc => ?_⟩
    rw [members, RootGrid.mem_rootLocations]
    apply and_congr_right
    intro level
    simp only [RootGrid.Holds, level, RootGrid.cells_rootLevel]

def oblongGrid : RootGrid where
  dim := 2
  blocks := ⟨3, 2, 1⟩
  periodic := .fill false
  one_le_dim := by decide
  dim_le_three := by decide
  blocks_pos := by decide
  blocks_degenerate := by decide
  active_of_periodic := by decide

/-- The root blocks of `oblongGrid` but for the first, and the children of that one in reverse. -/
def oblongLeaves : List Location :=
  oblongGrid.rootLocations.tail ++ (oblongGrid.children ⟨2, ⟨0, 0, 0⟩⟩).reverse

/-- Out of order the list is accepted, and without its first place it is not. -/
theorem ofLeaves_accepts_tilings_oblong :
    (∃ tree, ofLeaves oblongGrid oblongLeaves = .ok tree ∧
      tree.locations.toList.Perm oblongLeaves) ∧
    oblongGrid.CoveredOnce oblongLeaves ∧
    (¬∃ tree, ofLeaves oblongGrid oblongLeaves.tail = .ok tree) ∧
    ∃ tree, uniform oblongGrid = .ok tree ∧ tree.numLeaves = 6 := by
  have small : ∀ axis, oblongGrid.blocks axis ≤ 2 ^ 62 := by decide
  have fits : ∀ loc ∈ oblongLeaves, oblongGrid.LevelFits loc.level := by decide
  obtain ⟨accepts, tree, uniformTree, _, count, _⟩ := ofLeaves_accepts_tilings oblongGrid small
  obtain ⟨accepted, leavesOf⟩ := accepts oblongLeaves fits
  have computed : (ofLeaves oblongGrid oblongLeaves).isOk = true := by decide +kernel
  obtain ⟨whole, built⟩ := Outcome.exists_ok_of_isOk computed
  refine ⟨⟨whole, built, (leavesOf whole built).2⟩, (accepted.1 ⟨whole, built⟩).2.2, ?_,
    tree, uniformTree, count⟩
  have fitsTail (loc : Location) (member : loc ∈ oblongLeaves.tail) :
      oblongGrid.LevelFits loc.level := fits loc (List.mem_of_mem_tail member)
  rw [(accepts oblongLeaves.tail fitsTail).1]
  rintro ⟨_, _, once⟩
  -- a cell of the place left out
  have missed := once ⟨3, ⟨2, 0, 0⟩⟩ (by decide) (by decide)
  exact absurd missed (by decide)

end BlockTree

end AdaptiveMesh
