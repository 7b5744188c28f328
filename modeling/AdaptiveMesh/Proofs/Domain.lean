import AdaptiveMesh.BlockTree.Neighbor
import AdaptiveMesh.Proofs.Path
import Mathlib.Tactic.IntervalCases

/-!
# Domains and turns

Periodic axes make the domain a ring, and the place of a block is one of its images: whole turns
around the domain shift it by whole extents. From the root level on turns commute with containment,
since the extent doubles from level to level. Wrapping a place finds the one image of it in the
domain, unless a step left the domain across an open end (`wrap_image`, `wrap_cases`).
-/

namespace AdaptiveMesh

set_option autoImplicit false

theorem Octant.isValidFor_iff {o : Octant} {dim : Nat} (positive : 1 ≤ dim) (bounded : dim ≤ 3) :
    o.isValidFor dim = true ↔ ∀ axis : Axis, dim ≤ axis.val → o.isSet axis = false := by
  obtain ⟨⟨a, b, c⟩⟩ := o
  interval_cases dim <;> cases a <;> cases b <;> cases c <;> decide

theorem Octant.mem_forDim {o : Octant} {dim : Nat} (bounded : dim ≤ 3) :
    o ∈ Octant.forDim dim ↔ o.isValidFor dim = true := by
  obtain ⟨⟨a, b, c⟩⟩ := o
  interval_cases dim <;> cases a <;> cases b <;> cases c <;> decide

theorem Octant.forDim_ordered {dim : Nat} (bounded : dim ≤ 3) :
    (Octant.forDim dim).Pairwise fun a b => a.linear < b.linear := by
  have table : ∀ n : Fin 4, (Octant.forDim n).Pairwise fun a b => a.linear < b.linear := by decide
  exact table ⟨dim, by omega⟩

namespace RootGrid

variable {grid : RootGrid} {a b t loc : Location}

theorem lx_eq_zero (inside : grid.contains loc = true) {axis : Axis}
    (degenerate : grid.dim ≤ axis.val) : loc.lx axis = 0 := by
  have bounds := contains_iff.1 inside axis
  rw [extent_degenerate degenerate] at bounds
  omega

theorem contains_of_contains (fits : grid.LevelFits b.level)
    (near : grid.rootLevel ≤ a.level + 62) (outer : a.contains b = true)
    (inside : grid.contains b = true) : grid.contains a = true := by
  obtain ⟨coarser, axes⟩ := Location.contains_iff.1 outer
  rw [contains_iff] at inside ⊢
  intro axis
  obtain ⟨lower, upper⟩ := inside axis
  have places : (0 : Int) < 2 ^ (b.level - a.level) := by positivity
  refine ⟨by rw [← axes axis]; exact Int.ediv_nonneg lower places.le, ?_⟩
  rcases Nat.lt_or_ge axis.val grid.dim with active | degenerate
  · rw [lt_extent_iff fits (by omega) active] at upper
    rw [lt_extent_iff (fits.mono coarser) near active]
    have floor : a.lx axis * 2 ^ (b.level - a.level) ≤ b.lx axis := by
      rw [← axes axis]
      exact Int.ediv_mul_le _ places.ne'
    have split : (2 : Int) ^ b.level = 2 ^ a.level * 2 ^ (b.level - a.level) := by
      rw [← pow_add]
      congr 1
      omega
    rw [split] at upper
    have cells : (0 : Int) < 2 ^ grid.rootLevel := by positivity
    apply lt_of_mul_lt_mul_right _ places.le
    calc a.lx axis * 2 ^ grid.rootLevel * 2 ^ (b.level - a.level)
        = a.lx axis * 2 ^ (b.level - a.level) * 2 ^ grid.rootLevel := by ring
      _ ≤ b.lx axis * 2 ^ grid.rootLevel := by gcongr
      _ < grid.blocks axis * (2 ^ a.level * 2 ^ (b.level - a.level)) := upper
      _ = grid.blocks axis * 2 ^ a.level * 2 ^ (b.level - a.level) := by ring
  · rw [extent_degenerate degenerate] at upper ⊢
    have zero : b.lx axis = 0 := by omega
    rw [← axes axis, zero]
    simp

theorem contains_of_inside (fits : grid.LevelFits b.level) (fine : grid.rootLevel ≤ a.level)
    (outer : a.contains b = true) (inside : grid.contains a = true)
    (flat : ∀ axis : Axis, grid.dim ≤ axis.val → b.lx axis = 0) : grid.contains b = true := by
  obtain ⟨coarser, axes⟩ := Location.contains_iff.1 outer
  rw [contains_iff]
  intro axis
  rcases Nat.lt_or_ge axis.val grid.dim with active | degenerate
  · obtain ⟨lower, upper⟩ := contains_iff.1 inside axis
    have deeper : b.level = a.level + (b.level - a.level) := by omega
    have places : (0 : Int) < 2 ^ (b.level - a.level) := by positivity
    have doubled := extent_add (b.level - a.level) (deeper ▸ fits) fine active
    rw [← deeper] at doubled
    have quotient := axes axis
    constructor
    · by_contra negative
      have below : b.lx axis / 2 ^ (b.level - a.level) < 0 :=
        Int.ediv_neg_of_neg_of_pos (by omega) places
      omega
    · rw [doubled]
      apply Int.lt_mul_of_ediv_lt places
      omega
  · rw [flat axis degenerate, extent_degenerate degenerate]
    decide

theorem contains_child {o : Octant} (fits : grid.LevelFits (loc.level + 1))
    (fine : grid.rootLevel ≤ loc.level) (inside : grid.contains loc = true)
    (valid : o.isValidFor grid.dim = true) : grid.contains (loc.child o) = true := by
  refine contains_of_inside fits fine (Location.contains_child _ o) inside
    fun axis degenerate => ?_
  rw [Location.lx_child, lx_eq_zero inside degenerate,
    (Octant.isValidFor_iff grid.one_le_dim grid.dim_le_three).1 valid axis degenerate]
  rfl

theorem root_contains (fits : grid.LevelFits loc.level) (near : grid.rootLevel ≤ loc.level + 62)
    (inside : grid.contains loc = true) : Location.root.contains loc = true := by
  rw [Location.contains_iff]
  refine ⟨Nat.zero_le _, fun axis => ?_⟩
  obtain ⟨lower, upper⟩ := contains_iff.1 inside axis
  show loc.lx axis / 2 ^ (loc.level - 0) = (Triple.fill 0) axis
  rw [Triple.get_fill, Nat.sub_zero]
  apply Int.ediv_eq_zero_of_lt lower
  rcases Nat.lt_or_ge axis.val grid.dim with active | degenerate
  · rw [lt_extent_iff fits near active] at upper
    have blocks : (grid.blocks axis : Int) ≤ 2 ^ grid.rootLevel := by
      exact_mod_cast grid.blocks_le_two_pow axis
    have cells : (0 : Int) < 2 ^ grid.rootLevel := by positivity
    apply lt_of_mul_lt_mul_right _ cells.le
    calc loc.lx axis * 2 ^ grid.rootLevel < grid.blocks axis * 2 ^ loc.level := upper
      _ ≤ 2 ^ grid.rootLevel * 2 ^ loc.level := by gcongr
      _ = 2 ^ loc.level * 2 ^ grid.rootLevel := by ring
  · rw [lx_eq_zero inside degenerate]
    positivity

theorem isValidFor_of_contains_child {o : Octant} (inside : grid.contains (loc.child o) = true) :
    o.isValidFor grid.dim = true := by
  rw [Octant.isValidFor_iff grid.one_le_dim grid.dim_le_three]
  intro axis degenerate
  have zero := lx_eq_zero inside degenerate
  rw [Location.lx_child] at zero
  cases bit : o.isSet axis with
  | false => rfl
  | true =>
      rw [bit] at zero
      simp [Bool.toInt] at zero
      omega

/-- The image of a place after a number of whole turns around the domain along each axis. -/
def image (grid : RootGrid) (loc : Location) (turns : Triple Int) : Location :=
  ⟨loc.level, .ofFn fun axis => loc.lx axis + turns axis * grid.extent loc.level axis⟩

/-- Whether turns go along periodic axes only. -/
def Winds (grid : RootGrid) (turns : Triple Int) : Prop :=
  ∀ axis, grid.periodic axis = false → turns axis = 0

instance (grid : RootGrid) (turns : Triple Int) : Decidable (grid.Winds turns) :=
  inferInstanceAs (Decidable (∀ _, _))

@[simp] theorem level_image (grid : RootGrid) (loc : Location) (turns : Triple Int) :
    (grid.image loc turns).level = loc.level := rfl

@[simp] theorem lx_image (grid : RootGrid) (loc : Location) (turns : Triple Int) (axis : Axis) :
    (grid.image loc turns).lx axis =
      loc.lx axis + turns axis * grid.extent loc.level axis := by
  simp [image]

theorem Winds.degenerate {turns : Triple Int} (winds : grid.Winds turns) {axis : Axis}
    (degenerate : grid.dim ≤ axis.val) : turns axis = 0 := by
  apply winds
  by_contra periodic
  have active := grid.active_of_periodic axis (by simpa using periodic)
  omega

def back (turns : Triple Int) : Triple Int := turns.map Neg.neg

theorem Winds.back {turns : Triple Int} (winds : grid.Winds turns) : grid.Winds (back turns) := by
  intro axis still
  simp [RootGrid.back, winds axis still]

@[simp] theorem image_back (grid : RootGrid) (loc : Location) (turns : Triple Int) :
    grid.image (grid.image loc turns) (back turns) = loc := by
  refine Location.eq_of_axes rfl fun axis => ?_
  simp [back]

@[simp] theorem image_of_back (grid : RootGrid) (loc : Location) (turns : Triple Int) :
    grid.image (grid.image loc (back turns)) turns = loc := by
  refine Location.eq_of_axes rfl fun axis => ?_
  simp [back]

theorem image_still (grid : RootGrid) (loc : Location) : grid.image loc (.fill 0) = loc := by
  refine Location.eq_of_axes rfl fun axis => ?_
  simp

theorem Winds.turn_extent {turns : Triple Int} (winds : grid.Winds turns) {level : Nat}
    (places : Nat) (fits : grid.LevelFits (level + places)) (fine : grid.rootLevel ≤ level) (axis : Axis) :
    turns axis * grid.extent (level + places) axis =
      turns axis * grid.extent level axis * 2 ^ places := by
  cases periodic : grid.periodic axis with
  | false => simp [winds axis periodic]
  | true =>
      rw [extent_add places fits fine (grid.active_of_periodic axis periodic)]
      ring

theorem contains_image_iff {turns : Triple Int} (winds : grid.Winds turns)
    (fits : grid.LevelFits b.level) (fine : grid.rootLevel ≤ a.level) :
    (grid.image a turns).contains (grid.image b turns) = true ↔ a.contains b = true := by
  rw [Location.contains_iff, Location.contains_iff]
  simp only [level_image, lx_image]
  apply and_congr_right
  intro coarser
  have deeper : b.level = a.level + (b.level - a.level) := by omega
  apply forall_congr'
  intro axis
  have turned := winds.turn_extent (b.level - a.level) (deeper ▸ fits) fine axis
  rw [← deeper] at turned
  rw [turned, Int.add_mul_ediv_right _ _ (by positivity)]
  omega

theorem contains_image_back_iff {turns : Triple Int} (winds : grid.Winds turns)
    (fits : grid.LevelFits b.level) (fine : grid.rootLevel ≤ a.level) :
    (grid.image a turns).contains b = true ↔ a.contains (grid.image b (back turns)) = true := by
  rw [← contains_image_iff winds (a := a) (by exact fits) fine, image_of_back]

theorem image_child {turns : Triple Int} (winds : grid.Winds turns)
    (fits : grid.LevelFits (loc.level + 1)) (fine : grid.rootLevel ≤ loc.level) (o : Octant) :
    grid.image (loc.child o) turns = (grid.image loc turns).child o := by
  refine Location.eq_of_axes rfl fun axis => ?_
  simp only [lx_image, Location.lx_child, Location.level_child]
  rw [winds.turn_extent 1 fits fine axis]
  ring

/-- A place has at most one image in the domain. -/
theorem eq_of_image_eq {turns others : Triple Int} (insideA : grid.contains a = true)
    (insideB : grid.contains b = true) (same : grid.image a turns = grid.image b others) :
    a = b := by
  have level : a.level = b.level := by simpa using congrArg Location.level same
  apply Location.eq_of_axes level
  intro axis
  have coordinates := congrArg (fun place : Location => place.lx axis) same
  simp only [lx_image, level] at coordinates
  obtain ⟨lowerA, upperA⟩ := contains_iff.1 insideA axis
  obtain ⟨lowerB, upperB⟩ := contains_iff.1 insideB axis
  rw [level] at upperA
  have remainder := congrArg (· % grid.extent b.level axis) coordinates
  simp only [Int.add_mul_emod_self_right] at remainder
  rwa [Int.emod_eq_of_lt lowerA upperA, Int.emod_eq_of_lt lowerB upperB] at remainder

private theorem wrap_go_some {loc : Location} (target : Axis → Int) {axes : List Axis}
    (distinct : axes.Nodup) (wrapped : ∀ axis ∈ axes, axis.val < grid.dim →
      grid.wrapCoordinate loc.level axis (loc.lx axis) = .ok (some (target axis)))
    (kept : ∀ axis : Axis, (axis ∈ axes → grid.dim ≤ axis.val) → loc.lx axis = target axis) :
    wrap.go grid loc axes = .ok (some ⟨loc.level, .ofFn target⟩) := by
  induction axes generalizing loc with
  | nil =>
      have same : loc.lx = .ofFn target := by
        apply Triple.ext_get
        intro axis
        rw [Triple.get_ofFn]
        exact kept axis fun member => absurd member List.not_mem_nil
      rw [wrap.go, ← same]
  | cons axis rest ih =>
      obtain ⟨fresh, distinctRest⟩ := List.nodup_cons.1 distinct
      have later (other : Axis) (member : other ∈ rest) : other ≠ axis :=
        fun met => fresh (by rw [← met]; exact member)
      simp only [wrap.go]
      by_cases active : axis.val < grid.dim
      · rw [if_pos active, wrapped axis List.mem_cons_self active]
        apply ih distinctRest
        · intro other member activeOther
          simp only [Triple.get_set, if_neg (later other member)]
          exact wrapped other (List.mem_cons_of_mem axis member) activeOther
        · intro other idle
          rw [Triple.get_set]
          split
          · rename_i met
            rw [met]
          · rename_i apart
            apply kept
            intro member
            exact idle ((List.mem_cons.1 member).resolve_left apart)
      · rw [if_neg active]
        apply ih distinctRest
        · intro other member
          exact wrapped other (List.mem_cons_of_mem axis member)
        · intro other idle
          apply kept
          intro member
          cases List.mem_cons.1 member with
          | inl met =>
              rw [met]
              exact Nat.le_of_not_lt active
          | inr among => exact idle among

private theorem wrap_go_none {loc : Location} {axes : List Axis} (distinct : axes.Nodup)
    (known : ∀ axis ∈ axes, ∃ found, grid.wrapCoordinate loc.level axis (loc.lx axis) = .ok found)
    {open_ : Axis} (crossed : open_ ∈ axes) (active : open_.val < grid.dim)
    (left : grid.wrapCoordinate loc.level open_ (loc.lx open_) = .ok none) :
    wrap.go grid loc axes = .ok none := by
  induction axes generalizing loc with
  | nil => cases crossed
  | cons axis rest ih =>
      obtain ⟨fresh, distinctRest⟩ := List.nodup_cons.1 distinct
      have later (other : Axis) (member : other ∈ rest) : other ≠ axis :=
        fun met => fresh (by rw [← met]; exact member)
      simp only [wrap.go]
      by_cases met : open_ = axis
      · subst met
        rw [if_pos active, left]
      · have crossedRest : open_ ∈ rest := (List.mem_cons.1 crossed).resolve_left met
        by_cases activeAxis : axis.val < grid.dim
        · rw [if_pos activeAxis]
          obtain ⟨found, step⟩ := known axis (by simp)
          rw [step]
          cases found with
          | none => rfl
          | some x =>
              apply ih distinctRest _ crossedRest
              · simp only [Triple.get_set, if_neg met]
                exact left
              · intro other member
                simp only [Triple.get_set, if_neg (later other member)]
                exact known other (by simp [member])
        · rw [if_neg activeAxis]
          exact ih distinctRest (fun other member => known other (by simp [member])) crossedRest left

private theorem wrapCoordinate_eq {level : Nat} {axis : Axis}
    (positive : 0 < grid.extent level axis) (x : Int) :
    grid.wrapCoordinate level axis x = .ok
      (if (0 ≤ x ∧ x < grid.extent level axis) ∨ grid.periodic axis = true
        then some (x % grid.extent level axis) else none) := by
  unfold wrapCoordinate
  by_cases inside : 0 ≤ x ∧ x < grid.extent level axis
  · simp [inside, Int.emod_eq_of_lt inside.1 inside.2]
  · cases periodic : grid.periodic axis
    · simp [inside]
    · simp [inside, positive.ne']

theorem wrap_image {turns : Triple Int} (fits : grid.LevelFits loc.level)
    (near : grid.rootLevel ≤ loc.level + 62) (winds : grid.Winds turns)
    (inside : grid.contains loc = true) : grid.wrap (grid.image loc turns) = .ok (some loc) := by
  have coordinates : ∀ axis ∈ Axis.all, axis.val < grid.dim →
      grid.wrapCoordinate (grid.image loc turns).level axis ((grid.image loc turns).lx axis) =
        .ok (some (loc.lx axis)) := by
    intro axis _ _
    obtain ⟨lower, upper⟩ := contains_iff.1 inside axis
    rw [level_image, wrapCoordinate_eq (extent_pos fits near axis), lx_image,
      Int.add_mul_emod_self_right, Int.emod_eq_of_lt lower upper]
    cases periodic : grid.periodic axis with
    | false => simp [winds axis periodic, lower, upper]
    | true => simp
  rw [wrap, wrap_go_some (fun axis => loc.lx axis) (by decide) coordinates]
  · rfl
  · intro axis idle
    have degenerate := idle axis.mem_all
    have still : grid.periodic axis = false := by
      by_contra periodic
      have active := grid.active_of_periodic axis (by simpa using periodic)
      omega
    rw [lx_image, winds axis still, zero_mul, add_zero]

/-- A place either has an image in the domain, or lies beyond an open end of it. -/
theorem wrap_cases (fits : grid.LevelFits loc.level) (near : grid.rootLevel ≤ loc.level + 62)
    (flat : ∀ axis : Axis, grid.dim ≤ axis.val → loc.lx axis = 0) :
    (∃ target turns, grid.contains target = true ∧ grid.Winds turns ∧
      loc = grid.image target turns) ∨
    ((∃ axis : Axis, axis.val < grid.dim ∧ grid.periodic axis = false ∧
      ¬(0 ≤ loc.lx axis ∧ loc.lx axis < grid.extent loc.level axis)) ∧ grid.wrap loc = .ok none) := by
  have positive (axis : Axis) := extent_pos fits near axis
  by_cases open_ : ∃ axis : Axis, axis.val < grid.dim ∧
      ¬((0 ≤ loc.lx axis ∧ loc.lx axis < grid.extent loc.level axis) ∨ grid.periodic axis = true)
  · right
    obtain ⟨axis, active, left⟩ := open_
    constructor
    · obtain ⟨outside, still⟩ := not_or.1 left
      exact ⟨axis, active, eq_false_of_ne_true still, outside⟩
    · apply wrap_go_none (by decide) (fun axis _ => ⟨_, wrapCoordinate_eq (positive axis) _⟩)
        axis.mem_all active
      rw [wrapCoordinate_eq (positive axis), if_neg left]
  · left
    have closed (axis : Axis) (active : axis.val < grid.dim) :
        (0 ≤ loc.lx axis ∧ loc.lx axis < grid.extent loc.level axis) ∨
          grid.periodic axis = true := by
      by_contra left
      exact open_ ⟨axis, active, left⟩
    -- remainder and quotient by the extent are the place and the turns
    refine ⟨⟨loc.level, .ofFn fun axis => loc.lx axis % grid.extent loc.level axis⟩,
      .ofFn fun axis => if grid.periodic axis then loc.lx axis / grid.extent loc.level axis else 0,
      ?_, ?_, ?_⟩
    · rw [contains_iff]
      intro axis
      simp only [Triple.get_ofFn]
      exact ⟨Int.emod_nonneg _ (positive axis).ne', Int.emod_lt_of_pos _ (positive axis)⟩
    · intro axis still
      simp [still]
    · refine Location.eq_of_axes rfl fun axis => ?_
      simp only [lx_image, Triple.get_ofFn]
      cases periodic : grid.periodic axis with
      | true => simpa [Int.mul_comm] using (Int.emod_add_mul_ediv _ _).symm
      | false =>
          have inside : 0 ≤ loc.lx axis ∧ loc.lx axis < grid.extent loc.level axis := by
            rcases Nat.lt_or_ge axis.val grid.dim with active | degenerate
            · exact (closed axis active).resolve_right (by simp [periodic])
            · rw [flat axis degenerate, extent_degenerate degenerate]
              decide
          simp [Int.emod_eq_of_lt inside.1 inside.2]

end RootGrid

end AdaptiveMesh
