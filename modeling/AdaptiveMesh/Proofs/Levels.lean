import Mathlib.Algebra.Order.Floor.Ring
import Mathlib.Data.Rat.Floor
import AdaptiveMesh.Proofs.Acceptance
import AdaptiveMesh.Proofs.Ancestry

/-!
# Extents from level to level

Above the root level the extent along an axis is a quotient that is rounded up, from there on it is a product.
The two agree at every level with the one below it: a cell starts inside the domain exactly if its lower half
does (`lt_extent_iff_lower`). So extents double from the root level on, and are halved and rounded up above it.
A place of the domain therefore has its parent in the domain and a child in the domain, and from the root
level on all of its children.
-/

namespace AdaptiveMesh

set_option autoImplicit false

namespace RootGrid

variable {grid : RootGrid} {loc up : Location} {level : Nat} {axis : Axis}

/-- The root level is the least one at which the root blocks of the active axes fit. -/
theorem isLeast_rootLevel (grid : RootGrid) :
    IsLeast {level | ∀ axis : Axis, axis.val < grid.dim → grid.blocks axis ≤ 2 ^ level}
      grid.rootLevel := by
  constructor
  · exact fun axis _ => grid.blocks_le_two_pow axis
  · intro level fitting
    rw [rootLevel_le_iff]
    intro axis
    rcases Nat.lt_or_ge axis.val grid.dim with active | degenerate
    · exact fitting axis active
    · rw [grid.blocks_degenerate axis degenerate]
      exact Nat.one_le_two_pow

theorem near_of_few (few : ∀ axis, grid.blocks axis ≤ 2 ^ 62) (level : Nat) :
    grid.rootLevel ≤ level + 62 :=
  (rootLevel_le_iff.2 few).trans (Nat.le_add_left 62 level)

theorem lt_extent_iff_lower (fits : grid.LevelFits (level + 1)) (near : grid.rootLevel ≤ level + 62)
    (axis : Axis) (x : Int) :
    x < grid.extent level axis ↔ 2 * x < grid.extent (level + 1) axis := by
  rcases Nat.lt_or_ge axis.val grid.dim with active | degenerate
  · rw [lt_extent_iff (fits.mono (Nat.le_succ level)) near active, lt_extent_iff fits (by omega) active,
      pow_succ]
    constructor <;> intro bound <;> linarith
  · rw [extent_degenerate degenerate, extent_degenerate degenerate]
    omega

theorem extent_zero (few : ∀ axis, grid.blocks axis ≤ 2 ^ 62) (active : axis.val < grid.dim) :
    grid.extent 0 axis = 1 := by
  have fits : grid.LevelFits 0 := (levelFits_rootLevel few).mono (Nat.zero_le _)
  have blocks : (0 : Int) < grid.blocks axis := by exact_mod_cast grid.blocks_pos axis
  have fitting : (grid.blocks axis : Int) ≤ 2 ^ grid.rootLevel := by
    exact_mod_cast grid.blocks_le_two_pow axis
  have cells : (0 : Int) < 2 ^ grid.rootLevel := by positivity
  apply eq_of_forall_lt_iff
  intro x
  rw [lt_extent_iff fits (near_of_few few 0) active, pow_zero, mul_one]
  constructor
  · intro starts
    apply lt_of_mul_lt_mul_right _ cells.le
    calc x * 2 ^ grid.rootLevel < grid.blocks axis := starts
      _ ≤ 1 * 2 ^ grid.rootLevel := by rwa [one_mul]
  · intro first
    have lowest : x * 2 ^ grid.rootLevel ≤ 0 :=
      mul_nonpos_of_nonpos_of_nonneg (Int.lt_add_one_iff.1 first) cells.le
    exact lt_of_le_of_lt lowest blocks

theorem extent_rootLevel (few : ∀ axis, grid.blocks axis ≤ 2 ^ 62) (active : axis.val < grid.dim) :
    grid.extent grid.rootLevel axis = grid.blocks axis := by
  rw [extent_active (levelFits_rootLevel few) le_rfl active, Nat.sub_self, pow_zero, mul_one]

/-- Two cells of the next level make a cell, and a single one at the end does too. -/
theorem extent_eq_ceil (few : ∀ axis, grid.blocks axis ≤ 2 ^ 62) (coarse : level < grid.rootLevel)
    (axis : Axis) : grid.extent level axis = ⌈(grid.extent (level + 1) axis : ℚ) / 2⌉ := by
  have fits : grid.LevelFits (level + 1) := (levelFits_rootLevel few).mono coarse
  apply eq_of_forall_lt_iff
  intro x
  rw [lt_extent_iff_lower fits (near_of_few few level), Int.lt_ceil, lt_div_iff₀ two_pos, mul_comm]
  norm_cast

theorem extent_succ (fine : grid.rootLevel ≤ level) (active : axis.val < grid.dim)
    (countable : grid.blocks axis * 2 ^ (level + 1 - grid.rootLevel) < 2 ^ 63) :
    grid.extent (level + 1) axis = 2 * grid.extent level axis := by
  have places : level + 1 - grid.rootLevel = level - grid.rootLevel + 1 := Nat.succ_sub fine
  have before : grid.blocks axis * 2 ^ (level - grid.rootLevel) < 2 ^ 63 := by
    rw [places, pow_succ, ← mul_assoc] at countable
    omega
  rw [extent_eq_mul (by omega) active countable, extent_eq_mul fine active before, places, pow_succ]
  ring

/-- Kept to a word at every step, the quotient above the root level is the same. With `2 ^ 62` root blocks the
sum leaves the word at the topmost level, and the subtraction brings it back. -/
theorem extent_eq_of_words (few : ∀ axis, grid.blocks axis ≤ 2 ^ 62) (coarse : level < grid.rootLevel)
    (active : axis.val < grid.dim) :
    grid.extent level axis =
      Signed64.wrap (Signed64.wrap (grid.blocks axis +
        Signed64.shiftLeft 1 (grid.rootLevel - level)) - 1) >>> (grid.rootLevel - level) := by
  have short : grid.rootLevel - level ≤ 62 := Nat.sub_le_iff_le_add'.2 (near_of_few few level)
  have bound := few axis
  have power : (2 : Int) ^ (grid.rootLevel - level) ≤ 2 ^ 62 := pow_le_pow_right₀ (by decide) short
  have positive : (0 : Int) < 2 ^ (grid.rootLevel - level) := by positivity
  have back : Signed64.wrap (Signed64.wrap (grid.blocks axis + 2 ^ (grid.rootLevel - level)) - 1) =
      grid.blocks axis + 2 ^ (grid.rootLevel - level) - 1 := by
    rw [Signed64.wrap, Signed64.wrap, Int.bmod_sub_bmod]
    apply Signed64.wrap_eq_self
    constructor <;> omega
  unfold extent
  rw [dif_pos active]
  simp only [if_neg (Nat.not_le.2 coarse), Fin.eta]
  rw [wrap_blocks (by omega), Signed64.shiftLeft_one short, back]

theorem contains_parent (fits : grid.LevelFits loc.level) (near : grid.rootLevel ≤ up.level + 62)
    (above : loc.parent? = some up) (inside : grid.contains loc = true) : grid.contains up = true :=
  contains_of_contains fits near (Location.contains_of_parent? above) inside

theorem isValidFor_empty (grid : RootGrid) : Octant.empty.isValidFor grid.dim = true := by
  rw [Octant.isValidFor_iff grid.one_le_dim grid.dim_le_three]
  exact fun axis _ => Triple.get_fill false axis

theorem contains_lowest_child (fits : grid.LevelFits (loc.level + 1))
    (near : grid.rootLevel ≤ loc.level + 62) (inside : grid.contains loc = true) :
    grid.contains (loc.child .empty) = true := by
  rw [contains_iff] at inside ⊢
  intro axis
  obtain ⟨lower, upper⟩ := inside axis
  have start : (loc.child .empty).lx axis = 2 * loc.lx axis := by
    rw [Location.lx_child, show Octant.empty.isSet axis = false from Triple.get_fill false axis]
    exact Int.add_zero _
  rw [start, Location.level_child, ← lt_extent_iff_lower fits near]
  exact ⟨by omega, upper⟩

theorem contains_of_child (fits : grid.LevelFits (loc.level + 1))
    (near : grid.rootLevel ≤ loc.level + 62) {part : Location} (member : part ∈ grid.children loc)
    (inside : grid.contains part = true) : grid.contains loc = true := by
  apply contains_of_contains _ near (contains_of_mem_children member) inside
  rw [level_of_mem_children member]
  exact fits

theorem lowest_mem_children (grid : RootGrid) (loc : Location) :
    loc.child .empty ∈ grid.children loc :=
  mem_children.2 ⟨.empty, grid.isValidFor_empty, rfl⟩

theorem contains_iff_exists_child (fits : grid.LevelFits (loc.level + 1))
    (near : grid.rootLevel ≤ loc.level + 62) :
    grid.contains loc = true ↔ ∃ part ∈ grid.children loc, grid.contains part = true := by
  constructor
  · intro inside
    exact ⟨_, grid.lowest_mem_children loc, contains_lowest_child fits near inside⟩
  · rintro ⟨part, member, inside⟩
    exact contains_of_child fits near member inside

theorem contains_iff_forall_child (fits : grid.LevelFits (loc.level + 1))
    (fine : grid.rootLevel ≤ loc.level) :
    grid.contains loc = true ↔ ∀ part ∈ grid.children loc, grid.contains part = true := by
  constructor
  · intro inside part member
    obtain ⟨o, valid, rfl⟩ := mem_children.1 member
    exact contains_child fits fine inside valid
  · intro all
    have lowest := grid.lowest_mem_children loc
    exact contains_of_child fits (by omega) lowest (all _ lowest)

/-- The extents of a level and the next one are consistent, and so is the domain: it holds the parents of its
places, above the root level the places with a child in it, and from there on the places with all of their
children in it. -/
theorem extents_consistent (grid : RootGrid) (few : ∀ axis, grid.blocks axis ≤ 2 ^ 62) :
    IsLeast {level | ∀ axis : Axis, axis.val < grid.dim → grid.blocks axis ≤ 2 ^ level}
      grid.rootLevel ∧
    (∀ axis : Axis, axis.val < grid.dim →
      grid.extent 0 axis = 1 ∧ grid.extent grid.rootLevel axis = grid.blocks axis ∧
      (∀ level < grid.rootLevel,
        grid.extent level axis = ⌈(grid.extent (level + 1) axis : ℚ) / 2⌉) ∧
      ∀ level ≥ grid.rootLevel, grid.blocks axis * 2 ^ (level + 1 - grid.rootLevel) < 2 ^ 63 →
        grid.extent (level + 1) axis = 2 * grid.extent level axis) ∧
    ∀ loc : Location, (grid.children loc).length = 2 ^ grid.dim ∧
      (∀ up, loc.parent? = some up → grid.LevelFits loc.level → grid.contains loc = true →
        grid.contains up = true) ∧
      (loc.level < grid.rootLevel →
        (grid.contains loc = true ↔ ∃ part ∈ grid.children loc, grid.contains part = true)) ∧
      (loc.level ≥ grid.rootLevel → grid.LevelFits (loc.level + 1) →
        (grid.contains loc = true ↔ ∀ part ∈ grid.children loc, grid.contains part = true) ∧
        (grid.contains loc = true ↔ ∃ part ∈ grid.children loc, grid.contains part = true)) := by
  refine ⟨grid.isLeast_rootLevel, fun axis active => ⟨extent_zero few active,
    extent_rootLevel few active, fun level coarse => extent_eq_ceil few coarse axis,
    fun level fine countable => extent_succ fine active countable⟩, fun loc => ⟨?_, ?_, ?_, ?_⟩⟩
  · rw [length_children, numChildren_eq]
  · intro up above fits inside
    exact contains_parent fits (near_of_few few _) above inside
  · intro coarse
    exact contains_iff_exists_child ((levelFits_rootLevel few).mono coarse) (near_of_few few _)
  · intro fine fits
    exact ⟨contains_iff_forall_child fits fine, contains_iff_exists_child fits (near_of_few few _)⟩

open BlockTree (oblongGrid)

/-- Three root blocks in a row are two cells and then one above the root level, and six below it. The second of
the two cells reaches out of the domain, and half of its children lie outside. -/
theorem extents_consistent_oblong :
    IsLeast {level | ∀ axis : Axis, axis.val < 2 → oblongGrid.blocks axis ≤ 2 ^ level} 2 ∧
    oblongGrid.extent 0 Axis.x1 = 1 ∧ oblongGrid.extent 1 Axis.x1 = ⌈(3 : ℚ) / 2⌉ ∧
    oblongGrid.extent 2 Axis.x1 = 3 ∧ oblongGrid.extent 3 Axis.x1 = 2 * 3 ∧
    oblongGrid.contains ⟨2, ⟨2, 1, 0⟩⟩ = true ∧
    (∀ part ∈ oblongGrid.children ⟨2, ⟨2, 1, 0⟩⟩, oblongGrid.contains part = true) ∧
    oblongGrid.contains ⟨1, ⟨1, 0, 0⟩⟩ = true ∧
    (∃ part ∈ oblongGrid.children ⟨1, ⟨1, 0, 0⟩⟩, oblongGrid.contains part = true) ∧
    ¬∀ part ∈ oblongGrid.children ⟨1, ⟨1, 0, 0⟩⟩, oblongGrid.contains part = true := by
  have few : ∀ axis, oblongGrid.blocks axis ≤ 2 ^ 62 := by decide
  obtain ⟨least, extents, domain⟩ := extents_consistent oblongGrid few
  obtain ⟨top, roots, halved, doubled⟩ := extents Axis.x1 (by decide)
  have two : oblongGrid.rootLevel = 2 := by decide
  rw [two] at least roots
  have block : oblongGrid.contains ⟨2, ⟨2, 1, 0⟩⟩ = true := by decide
  obtain ⟨_, parents, _, deep⟩ := domain ⟨2, ⟨2, 1, 0⟩⟩
  obtain ⟨_, _, shallow, _⟩ := domain ⟨1, ⟨1, 0, 0⟩⟩
  have parent := parents ⟨1, ⟨1, 0, 0⟩⟩ (by decide) (by decide) block
  refine ⟨least, top, ?_, roots, ?_, block, (deep (by decide) (by decide)).1.1 block, parent,
    (shallow (by decide)).1 parent, by decide⟩
  · rw [halved 1 (by decide), roots]
    rfl
  · rw [doubled 2 (by decide) (by decide), roots]
    rfl

end RootGrid

end AdaptiveMesh
