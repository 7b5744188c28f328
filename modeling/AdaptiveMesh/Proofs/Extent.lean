import AdaptiveMesh.RootGrid
import Mathlib.Tactic.Linarith
import Mathlib.Tactic.Ring

/-!
# Extents and the domain

Where the number of cells of a level is a word, the extent along an active axis is that number, or
the rounded-up number of cells above the root level. Both are one inequality between integers
(`lt_extent_iff`): a cell meets the domain if its lower end lies below the end of the root blocks.
From it follow the two ways to pass between levels: what contains a place of the domain lies in the
domain, and from the root level on so does everything inside a place of the domain.
-/

namespace AdaptiveMesh

set_option autoImplicit false

theorem Signed64.shiftLeft_one {places : Nat} (short : places ≤ 62) :
    Signed64.shiftLeft 1 places = 2 ^ places := by
  rw [Signed64.shiftLeft_eq_wrap, Int.shiftLeft_eq, one_mul]
  apply Signed64.wrap_eq_self
  have power : (2 : Int) ^ places ≤ 2 ^ 62 := pow_le_pow_right₀ (by decide) short
  have positive : (0 : Int) < 2 ^ places := by positivity
  constructor <;> omega

namespace RootGrid

variable {grid : RootGrid} {level : Nat} {axis : Axis}

def Words (grid : RootGrid) : Prop := ∀ axis, grid.blocks axis < 2 ^ 64

instance (grid : RootGrid) : Decidable grid.Words := inferInstanceAs (Decidable (∀ _, _))

/-- Whether the number of cells of a level is a word along every axis. -/
def LevelFits (grid : RootGrid) (level : Nat) : Prop :=
  ∀ axis, grid.blocks axis * 2 ^ (level - grid.rootLevel) < 2 ^ 63

instance (grid : RootGrid) (level : Nat) : Decidable (grid.LevelFits level) :=
  inferInstanceAs (Decidable (∀ _, _))

theorem LevelFits.mono {fine : Nat} (fits : grid.LevelFits fine) (coarser : level ≤ fine) :
    grid.LevelFits level := by
  intro axis
  have powers : 2 ^ (level - grid.rootLevel) ≤ 2 ^ (fine - grid.rootLevel) :=
    Nat.pow_le_pow_right (by decide) (by omega)
  exact lt_of_le_of_lt (Nat.mul_le_mul_left _ powers) (fits axis)

theorem LevelFits.blocks_lt (fits : grid.LevelFits level) (axis : Axis) :
    grid.blocks axis < 2 ^ 63 :=
  lt_of_le_of_lt (Nat.le_mul_of_pos_right _ (Nat.two_pow_pos _)) (fits axis)

theorem blocks_le_widest (grid : RootGrid) (axis : Axis) : grid.blocks axis ≤ grid.widest := by
  unfold widest
  match axis with
  | 0 => exact Nat.le_max_left _ _
  | 1 => exact le_trans (Nat.le_max_left _ _) (Nat.le_max_right _ _)
  | 2 => exact le_trans (Nat.le_max_right _ _) (Nat.le_max_right _ _)

theorem blocks_le_two_pow (grid : RootGrid) (axis : Axis) :
    grid.blocks axis ≤ 2 ^ grid.rootLevel := by
  have fitting := grid.widest_le_shiftLeft_rootLevel
  rw [Nat.one_shiftLeft] at fitting
  exact le_trans (grid.blocks_le_widest axis) fitting

theorem rootLevel_le_iff : grid.rootLevel ≤ level ↔ ∀ axis, grid.blocks axis ≤ 2 ^ level := by
  constructor
  · intro deep axis
    exact (grid.blocks_le_two_pow axis).trans (Nat.pow_le_pow_right (by decide) deep)
  · intro below
    apply RootGrid.rootLevel_le
    rw [Nat.one_shiftLeft]
    exact max_le (below Axis.x1) (max_le (below Axis.x2) (below Axis.x3))

theorem LevelFits.rootLevel_le (fits : grid.LevelFits level) : grid.rootLevel ≤ 63 :=
  rootLevel_le_iff.2 fun axis => le_of_lt (fits.blocks_lt axis)

theorem LevelFits.level_lt (fits : grid.LevelFits level) : level < 126 := by
  have rootLevel := fits.rootLevel_le
  have shift : 2 ^ (level - grid.rootLevel) < 2 ^ 63 := by
    have bound := fits Axis.x1
    have positive := grid.blocks_pos Axis.x1
    calc 2 ^ (level - grid.rootLevel)
        ≤ grid.blocks Axis.x1 * 2 ^ (level - grid.rootLevel) := Nat.le_mul_of_pos_left _ positive
      _ < 2 ^ 63 := bound
  have places := (Nat.pow_lt_pow_iff_right (by decide : 1 < 2)).1 shift
  omega

/-- Levels that can hold a leaf or a child have exact extents, as have all levels but the topmost
one of a grid that is wider than a word can count there. -/
theorem LevelFits.near (fits : grid.LevelFits level) (deep : 0 < level ∨ grid.rootLevel ≤ level) :
    grid.rootLevel ≤ level + 62 := by
  have bound := fits.rootLevel_le
  omega

theorem extent_degenerate (degenerate : grid.dim ≤ axis.val) : grid.extent level axis = 1 := by
  unfold extent
  rw [dif_neg (by omega)]

theorem wrap_blocks (few : grid.blocks axis < 2 ^ 63) :
    Signed64.wrap (grid.blocks axis) = grid.blocks axis := by
  apply Signed64.wrap_eq_self
  constructor <;> omega

theorem extent_eq_mul (fine : grid.rootLevel ≤ level) (active : axis.val < grid.dim)
    (countable : grid.blocks axis * 2 ^ (level - grid.rootLevel) < 2 ^ 63) :
    grid.extent level axis = grid.blocks axis * 2 ^ (level - grid.rootLevel) := by
  have few : grid.blocks axis < 2 ^ 63 :=
    lt_of_le_of_lt (Nat.le_mul_of_pos_right _ (Nat.two_pow_pos _)) countable
  unfold extent
  rw [dif_pos active]
  simp only [if_pos fine, Fin.eta]
  rw [wrap_blocks few, Signed64.shiftLeft_eq_wrap, Int.shiftLeft_eq]
  apply Signed64.wrap_eq_self
  have bound : (grid.blocks axis : Int) * 2 ^ (level - grid.rootLevel) < 2 ^ 63 := by
    exact_mod_cast countable
  have nonneg : 0 ≤ (grid.blocks axis : Int) * 2 ^ (level - grid.rootLevel) := by positivity
  constructor <;> omega

theorem extent_active (fits : grid.LevelFits level) (fine : grid.rootLevel ≤ level)
    (active : axis.val < grid.dim) :
    grid.extent level axis = grid.blocks axis * 2 ^ (level - grid.rootLevel) :=
  extent_eq_mul fine active (fits axis)

private theorem extent_coarse (fits : grid.LevelFits level) (coarse : level < grid.rootLevel)
    (near : grid.rootLevel ≤ level + 62) (active : axis.val < grid.dim) :
    grid.extent level axis =
      (grid.blocks axis + 2 ^ (grid.rootLevel - level) - 1) / 2 ^ (grid.rootLevel - level) := by
  have short : grid.rootLevel - level ≤ 62 := by omega
  unfold extent
  rw [dif_pos active]
  simp only [if_neg (Nat.not_le.2 coarse)]
  rw [wrap_blocks (fits.blocks_lt axis), Signed64.shiftLeft_one short, Int.shiftRight_eq_div_pow]
  norm_cast

theorem lt_extent_iff (fits : grid.LevelFits level) (near : grid.rootLevel ≤ level + 62)
    (active : axis.val < grid.dim) (x : Int) :
    x < grid.extent level axis ↔ x * 2 ^ grid.rootLevel < grid.blocks axis * 2 ^ level := by
  rcases Nat.lt_or_ge level grid.rootLevel with coarse | fine
  · rw [extent_coarse fits coarse near active]
    have split : (2 : Int) ^ grid.rootLevel = 2 ^ (grid.rootLevel - level) * 2 ^ level := by
      rw [← pow_add]
      congr 1
      omega
    have places : (0 : Int) < 2 ^ (grid.rootLevel - level) := by positivity
    have cells : (0 : Int) < 2 ^ level := by positivity
    rw [split, ← mul_assoc, mul_lt_mul_iff_left₀ cells, ← Int.add_one_le_iff,
      Int.le_ediv_iff_mul_le places]
    constructor <;> intro bound <;> linarith
  · rw [extent_active fits fine active]
    have split : (2 : Int) ^ level = 2 ^ (level - grid.rootLevel) * 2 ^ grid.rootLevel := by
      rw [← pow_add]
      congr 1
      omega
    have cells : (0 : Int) < 2 ^ grid.rootLevel := by positivity
    rw [split, ← mul_assoc, mul_lt_mul_iff_left₀ cells]

theorem extent_pos (fits : grid.LevelFits level) (near : grid.rootLevel ≤ level + 62)
    (axis : Axis) : 0 < grid.extent level axis := by
  rcases Nat.lt_or_ge axis.val grid.dim with active | degenerate
  · rw [lt_extent_iff fits near active]
    have blocks : (0 : Int) < grid.blocks axis := by exact_mod_cast grid.blocks_pos axis
    have cells : (0 : Int) < 2 ^ level := by positivity
    simpa using mul_pos blocks cells
  · rw [extent_degenerate degenerate]
    decide

theorem extent_add (places : Nat) (fits : grid.LevelFits (level + places))
    (fine : grid.rootLevel ≤ level) (active : axis.val < grid.dim) :
    grid.extent (level + places) axis = grid.extent level axis * 2 ^ places := by
  rw [extent_active fits (by omega) active, extent_active (fits.mono (by omega)) fine active,
    mul_assoc, ← pow_add]
  congr 2
  omega

private theorem exists_active_overflow (wide : ¬grid.LevelFits level) : ∃ axis : Axis,
    axis.val < grid.dim ∧ 2 ^ 63 ≤ grid.blocks axis * 2 ^ (level - grid.rootLevel) := by
  simp only [LevelFits, not_forall, Nat.not_lt] at wide
  obtain ⟨axis, many⟩ := wide
  by_cases active : axis.val < grid.dim
  · exact ⟨axis, active, many⟩
  · rw [grid.blocks_degenerate axis (by omega), Nat.one_mul] at many
    refine ⟨Axis.x1, grid.one_le_dim, le_trans many ?_⟩
    exact Nat.le_mul_of_pos_left _ (grid.blocks_pos Axis.x1)

private theorem exists_first_overflow (words : grid.Words)
    (fine : grid.rootLevel ≤ level) (wide : ¬grid.LevelFits level) :
    ∃ first : Nat, ∃ axis : Axis, grid.rootLevel ≤ first ∧ first ≤ level ∧ axis.val < grid.dim ∧
      2 ^ 63 ≤ grid.blocks axis * 2 ^ (first - grid.rootLevel) ∧
      grid.blocks axis * 2 ^ (first - grid.rootLevel) < 2 ^ 64 := by
  induction level, fine using Nat.le_induction with
  | base =>
      obtain ⟨axis, active, many⟩ := exists_active_overflow wide
      refine ⟨grid.rootLevel, axis, le_rfl, le_rfl, active, many, ?_⟩
      rw [Nat.sub_self, pow_zero, mul_one]
      exact words axis
  | succ level fine ih =>
      by_cases fits : grid.LevelFits level
      · obtain ⟨axis, active, many⟩ := exists_active_overflow wide
        refine ⟨level + 1, axis, by omega, le_rfl, active, many, ?_⟩
        have before := fits axis
        rw [Nat.succ_sub fine, pow_succ, ← mul_assoc]
        omega
      · obtain ⟨first, axis, above, below, rest⟩ := ih fits
        exact ⟨first, axis, above, by omega, rest⟩

/-- Where the number of cells of a level is not a word, the domain has vanished at that level or at
one before. -/
theorem exists_vanished (words : grid.Words)
    (fine : grid.rootLevel ≤ level) (wide : ¬grid.LevelFits level) :
    ∃ first : Nat, ∃ axis : Axis, 0 < first ∧ first ≤ level ∧ grid.extent first axis ≤ 0 := by
  obtain ⟨first, axis, above, below, active, many, few⟩ := exists_first_overflow words fine wide
  refine ⟨first, axis, ?_, below, ?_⟩
  · by_contra top
    have bound := grid.blocks_le_two_pow axis
    rw [show grid.rootLevel = 0 by omega, pow_zero] at bound
    rw [show first - grid.rootLevel = 0 by omega, pow_zero] at many
    omega
  · unfold extent
    rw [dif_pos active]
    simp only [if_pos above, Fin.eta]
    -- The lowest 64 bits of a count from `2 ^ 63` up to `2 ^ 64` are a negative word.
    have lower : (2 : Int) ^ 63 ≤ grid.blocks axis * 2 ^ (first - grid.rootLevel) := by
      exact_mod_cast many
    have upper : (grid.blocks axis : Int) * 2 ^ (first - grid.rootLevel) < 2 ^ 64 := by
      exact_mod_cast few
    have wrapped : ((grid.blocks axis : Int) * 2 ^ (first - grid.rootLevel)).bmod Signed64.modulus =
        grid.blocks axis * 2 ^ (first - grid.rootLevel) - Signed64.modulus := by
      rw [Int.bmod_eq_iff (by decide)]
      refine ⟨?_, ?_, -1, by ring⟩ <;> simp only [Signed64.modulus] <;> omega
    rw [Signed64.shiftLeft_eq_wrap, Int.shiftLeft_eq, Signed64.wrap, Signed64.wrap,
      Int.bmod_mul_bmod, wrapped]
    simp only [Signed64.modulus]
    omega

theorem contains_iff {loc : Location} :
    grid.contains loc = true ↔ ∀ axis, 0 ≤ loc.lx axis ∧ loc.lx axis < grid.extent loc.level axis := by
  simp only [contains, List.all_eq_true, Bool.and_eq_true, decide_eq_true_eq]
  exact ⟨fun inside axis => inside axis axis.mem_all, fun inside axis _ => inside axis⟩

end RootGrid

end AdaptiveMesh
