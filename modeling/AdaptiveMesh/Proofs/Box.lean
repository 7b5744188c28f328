import AdaptiveMesh.Proofs.Domain

/-!
# Boxes

A place is a box: along every axis it spans one cell of its level. Boxes of different levels are
compared in cells of a level at least as fine as both. Two boxes touch if they have a point in common,
be it a corner, and each lies in one direction as seen from the other. The coarser of two places
touches the finer one exactly if a step of the finer one, in that direction, ends inside the coarser
one (`touches_iff_contains_shifted`): this is why looking one step around a block finds all coarser
blocks that touch it.
-/

namespace AdaptiveMesh

set_option autoImplicit false

namespace Location

def lowerAt (loc : Location) (level : Nat) (axis : Axis) : Int :=
  loc.lx axis * 2 ^ (level - loc.level)

def upperAt (loc : Location) (level : Nat) (axis : Axis) : Int :=
  (loc.lx axis + 1) * 2 ^ (level - loc.level)

/-- Whether two closed boxes have a point in common. -/
def Touches (a b : Location) : Prop :=
  ∀ axis, a.lowerAt (max a.level b.level) axis ≤ b.upperAt (max a.level b.level) axis ∧
    b.lowerAt (max a.level b.level) axis ≤ a.upperAt (max a.level b.level) axis

instance (a b : Location) : Decidable (a.Touches b) := inferInstanceAs (Decidable (∀ _, _))

/-- Where a box lies along an axis as seen from another one: wholly below it, wholly above it, or
with interiors that overlap. -/
def sideOf (a b : Location) (axis : Axis) : Side :=
  if b.upperAt (max a.level b.level) axis ≤ a.lowerAt (max a.level b.level) axis then .left
  else if a.upperAt (max a.level b.level) axis ≤ b.lowerAt (max a.level b.level) axis then .right
  else .middle

def directionOf (a b : Location) : Region := ⟨.ofFn (a.sideOf b)⟩

variable {a b outer loc : Location} {level : Nat}

@[simp] theorem side_directionOf (a b : Location) (axis : Axis) :
    (a.directionOf b).side axis = a.sideOf b axis := by
  simp [directionOf, Region.side]

theorem lowerAt_of_le {fine : Nat} (above : loc.level ≤ level) (finer : level ≤ fine)
    (axis : Axis) : loc.lowerAt fine axis = loc.lowerAt level axis * 2 ^ (fine - level) := by
  rw [lowerAt, lowerAt, mul_assoc, ← pow_add]
  congr 2
  omega

theorem upperAt_of_le {fine : Nat} (above : loc.level ≤ level) (finer : level ≤ fine)
    (axis : Axis) : loc.upperAt fine axis = loc.upperAt level axis * 2 ^ (fine - level) := by
  rw [upperAt, upperAt, mul_assoc, ← pow_add]
  congr 2
  omega

theorem lowerAt_lt_upperAt (loc : Location) (level : Nat) (axis : Axis) :
    loc.lowerAt level axis < loc.upperAt level axis := by
  have places : (0 : Int) < 2 ^ (level - loc.level) := by positivity
  rw [lowerAt, upperAt]
  linarith

theorem touches_iff_at (aboveA : a.level ≤ level) (aboveB : b.level ≤ level) : a.Touches b ↔
    ∀ axis, a.lowerAt level axis ≤ b.upperAt level axis ∧
      b.lowerAt level axis ≤ a.upperAt level axis := by
  have finer : max a.level b.level ≤ level := max_le aboveA aboveB
  apply forall_congr'
  intro axis
  have places : (0 : Int) < 2 ^ (level - max a.level b.level) := by positivity
  rw [lowerAt_of_le (le_max_left _ _) finer, upperAt_of_le (le_max_left _ _) finer,
    lowerAt_of_le (le_max_right _ _) finer, upperAt_of_le (le_max_right _ _) finer,
    mul_le_mul_iff_left₀ places, mul_le_mul_iff_left₀ places]

theorem touches_comm : a.Touches b ↔ b.Touches a := by
  rw [touches_iff_at (le_max_left a.level b.level) (le_max_right a.level b.level),
    touches_iff_at (le_max_right a.level b.level) (le_max_left a.level b.level)]
  exact forall_congr' fun axis => and_comm

theorem contains_iff_at (aboveA : a.level ≤ b.level) (aboveB : b.level ≤ level) :
    a.contains b = true ↔ ∀ axis, a.lowerAt level axis ≤ b.lowerAt level axis ∧
      b.upperAt level axis ≤ a.upperAt level axis := by
  rw [contains_iff, and_iff_right aboveA]
  apply forall_congr'
  intro axis
  have places : (0 : Int) < 2 ^ (level - b.level) := by positivity
  rw [lowerAt_of_le aboveA aboveB, upperAt_of_le aboveA aboveB, lowerAt_of_le le_rfl aboveB,
    upperAt_of_le le_rfl aboveB, mul_le_mul_iff_left₀ places, mul_le_mul_iff_left₀ places,
    Int.ediv_eq_iff_of_pos (by positivity)]
  simp only [lowerAt, upperAt, Nat.sub_self, pow_zero, mul_one, add_one_mul]
  omega

theorem touches_of_contains (outside : outer.contains a = true) (touch : a.Touches b) :
    outer.Touches b := by
  have above := level_le_of_contains outside
  have finer : a.level ≤ max a.level b.level := le_max_left _ _
  rw [touches_iff_at (above.trans finer) (le_max_right _ _)]
  intro axis
  obtain ⟨lower, upper⟩ := (contains_iff_at above finer).1 outside axis
  obtain ⟨left, right⟩ := touch axis
  exact ⟨lower.trans left, right.trans upper⟩

def middleAt (loc : Location) (level : Nat) (axis : Axis) : Int :=
  (2 * loc.lx axis + 1) * 2 ^ (level - (loc.level + 1))

private theorem two_pow_sub (deep : loc.level + 1 ≤ level) :
    (2 : Int) ^ (level - loc.level) = 2 * 2 ^ (level - (loc.level + 1)) := by
  rw [← pow_succ']
  congr 1
  omega

theorem lowerAt_child (deep : loc.level + 1 ≤ level) (o : Octant) (axis : Axis) :
    (loc.child o).lowerAt level axis =
      if o.isSet axis then loc.middleAt level axis else loc.lowerAt level axis := by
  rw [lowerAt, lowerAt, middleAt, lx_child, level_child, two_pow_sub deep]
  cases o.isSet axis <;> simp [Bool.toInt]
  ring

theorem upperAt_child (deep : loc.level + 1 ≤ level) (o : Octant) (axis : Axis) :
    (loc.child o).upperAt level axis =
      if o.isSet axis then loc.upperAt level axis else loc.middleAt level axis := by
  rw [upperAt, upperAt, middleAt, lx_child, level_child, two_pow_sub deep]
  cases o.isSet axis <;> simp [Bool.toInt]
  ring

theorem exists_child_touches {dim : Nat} (positive : 1 ≤ dim) (bounded : dim ≤ 3)
    (flat : ∀ axis : Axis, dim ≤ axis.val → loc.lx axis = 0 ∧ b.lx axis = 0)
    (touch : loc.Touches b) :
    ∃ o, o ∈ Octant.forDim dim ∧ (loc.child o).Touches b := by
  generalize fine_eq : max (loc.level + 1) b.level = fine
  have above : loc.level + 1 ≤ fine := by omega
  have aboveB : b.level ≤ fine := by omega
  -- the upper half is taken where the other box starts beyond the middle
  let o : Octant := ⟨.ofFn fun axis => loc.middleAt fine axis < b.lowerAt fine axis⟩
  have bit (axis : Axis) : o.isSet axis = true ↔ loc.middleAt fine axis < b.lowerAt fine axis := by
    simp [o, Octant.isSet]
  refine ⟨o, ?_, ?_⟩
  · rw [Octant.mem_forDim bounded, Octant.isValidFor_iff positive bounded]
    intro axis degenerate
    obtain ⟨zero, zeroB⟩ := flat axis degenerate
    have half : b.lowerAt fine axis ≤ loc.middleAt fine axis := by
      simp only [lowerAt, middleAt, zero, zeroB, zero_mul, mul_zero, zero_add, one_mul]
      positivity
    rw [← Bool.not_eq_true, bit]
    exact not_lt.2 half
  · rw [touches_iff_at above aboveB]
    intro axis
    obtain ⟨left, right⟩ := (touches_iff_at (by omega) aboveB).1 touch axis
    have width := lowerAt_lt_upperAt b fine axis
    rw [lowerAt_child above, upperAt_child above]
    by_cases beyond : loc.middleAt fine axis < b.lowerAt fine axis
    · rw [if_pos ((bit axis).2 beyond), if_pos ((bit axis).2 beyond)]
      omega
    · rw [if_neg (mt (bit axis).1 beyond), if_neg (mt (bit axis).1 beyond)]
      omega

private theorem touches_axis_iff (finer : b.level ≤ a.level) (axis : Axis) :
    (a.lowerAt (max a.level b.level) axis ≤ b.upperAt (max a.level b.level) axis ∧
        b.lowerAt (max a.level b.level) axis ≤ a.upperAt (max a.level b.level) axis) ↔
      (a.lx axis + (a.sideOf b axis).offset) / 2 ^ (a.level - b.level) = b.lx axis := by
  have positive : (0 : Int) < 2 ^ (a.level - b.level) := by positivity
  rw [Int.ediv_eq_iff_of_pos positive]
  simp only [sideOf, lowerAt, upperAt, max_eq_left finer, Nat.sub_self, pow_zero, mul_one,
    add_one_mul]
  generalize b.lx axis * 2 ^ (a.level - b.level) = start at *
  generalize (2 : Int) ^ (a.level - b.level) = size at *
  split
  · simp only [Side.offset]
    omega
  · split <;> simp only [Side.offset] <;> omega

/-- A coarser place touches a finer one if a step of the finer one towards it ends inside it. -/
theorem touches_iff_contains_shifted (finer : b.level ≤ a.level) :
    a.Touches b ↔ b.contains (a.shifted (a.directionOf b)) = true := by
  rw [contains_iff, Touches]
  simp only [lx_shifted, side_directionOf]
  constructor
  · intro touch
    exact ⟨finer, fun axis => (touches_axis_iff finer axis).1 (touch axis)⟩
  · rintro ⟨_, axes⟩ axis
    exact (touches_axis_iff finer axis).2 (axes axis)

theorem touches_of_contains_shifted {r : Region} (inside : b.contains (a.shifted r) = true) :
    a.Touches b := by
  obtain ⟨finer, axes⟩ := contains_iff.1 inside
  have finer : b.level ≤ a.level := finer
  intro axis
  have quotient := axes axis
  have positive : (0 : Int) < 2 ^ (a.level - b.level) := by positivity
  rw [lx_shifted] at quotient
  obtain ⟨lower, upper⟩ := (Int.ediv_eq_iff_of_pos positive).1 quotient
  simp only [lowerAt, upperAt, max_eq_left finer, Nat.sub_self, pow_zero, mul_one, add_one_mul]
  have step : -1 ≤ (r.side axis).offset ∧ (r.side axis).offset ≤ 1 := by
    cases r.side axis <;> decide
  omega

/-- Whether a box touches another one that lies in a given direction. -/
def Faces (a : Location) (r : Region) (b : Location) : Prop := a.Touches b ∧ a.directionOf b = r

instance (a b : Location) (r : Region) : Decidable (a.Faces r b) :=
  inferInstanceAs (Decidable (_ ∧ _))

variable {r : Region}

theorem directionOf_comm (a b : Location) : b.directionOf a = (a.directionOf b).reverse := by
  have sides (axis : Axis) : b.sideOf a axis = (a.sideOf b axis).reverse := by
    have widthA := lowerAt_lt_upperAt a (max a.level b.level) axis
    have widthB := lowerAt_lt_upperAt b (max a.level b.level) axis
    simp only [sideOf, max_comm b.level]
    split_ifs <;> first | rfl | omega
  simp only [directionOf, Region.reverse, Region.mk.injEq]
  apply Triple.ext_get
  intro axis
  simp [sides]

theorem faces_comm : a.Faces r b ↔ b.Faces r.reverse a := by
  rw [Faces, Faces, touches_comm, directionOf_comm a b]
  refine and_congr_right fun _ => ⟨congrArg Region.reverse, fun same => ?_⟩
  rw [← Region.reverse_reverse (a.directionOf b), same, Region.reverse_reverse]

theorem faces_iff_axes : a.Faces r b ↔ ∀ axis,
    (a.lowerAt (max a.level b.level) axis ≤ b.upperAt (max a.level b.level) axis ∧
      b.lowerAt (max a.level b.level) axis ≤ a.upperAt (max a.level b.level) axis) ∧
      a.sideOf b axis = r.side axis := by
  have direction : a.directionOf b = r ↔ ∀ axis, a.sideOf b axis = r.side axis := by
    constructor
    · rintro rfl axis
      simp
    · intro same
      obtain ⟨sides⟩ := r
      simp only [directionOf, Region.mk.injEq]
      apply Triple.ext_get
      simpa [Region.side] using same
  rw [Faces, direction, Touches, ← forall_and]

theorem touches_octant_iff {o : Octant} : r.touches 3 o = true ↔ ∀ axis,
    (r.side axis = .left → o.isSet axis = false) ∧ (r.side axis = .right → o.isSet axis = true) := by
  simp only [Region.touches, List.all_eq_true, Axis.mem_all, true_implies, Bool.or_eq_true,
    decide_eq_true_eq]
  apply forall_congr'
  intro axis
  have active : ¬3 ≤ axis.val := by omega
  cases r.side axis <;> simp [active]

private theorem isSet_octant (loc : Location) (axis : Axis) :
    loc.octant.isSet axis = decide (loc.lx axis % 2 = 1) := by
  simp only [octant, Octant.pack, Octant.isSet, Triple.get_map]
  rfl

theorem faces_iff_of_level_eq (level : b.level = a.level) : a.Faces r b ↔ b = a.shifted r := by
  rw [faces_iff_axes]
  have same : b = a.shifted r ↔ ∀ axis, b.lx axis = a.lx axis + (r.side axis).offset := by
    constructor
    · rintro rfl axis
      simp
    · exact fun axes => eq_of_axes level fun axis => by rw [axes axis, lx_shifted]
  rw [same]
  apply forall_congr'
  intro axis
  simp only [sideOf, lowerAt, upperAt, level, max_self, Nat.sub_self, pow_zero, mul_one]
  cases r.side axis <;> simp only [Side.offset] <;> split_ifs <;> simp <;> omega

/-- A block touches the coarser one in which a step ends, and sees it in the step's direction if it
lies on the boundary of its own parent there. -/
theorem faces_iff_of_coarser (coarser : b.level + 1 = a.level) :
    a.Faces r b ↔ b.contains (a.shifted r) = true ∧ r.touches 3 a.octant = true := by
  rw [faces_iff_axes, contains_iff, touches_octant_iff, and_assoc]
  have levels : max a.level b.level = a.level := by omega
  have one : a.level - b.level = 1 := by omega
  have above : b.level ≤ (a.shifted r).level := by show b.level ≤ a.level; omega
  rw [and_iff_right above, ← forall_and]
  apply forall_congr'
  intro axis
  have deeper : (a.shifted r).level - b.level = 1 := one
  simp only [sideOf, lowerAt, upperAt, levels, one, deeper, Nat.sub_self, pow_zero, pow_one, mul_one,
    lx_shifted, isSet_octant]
  cases r.side axis <;> simp only [Side.offset] <;> split_ifs <;> simp <;> omega

/-- A finer box lies in a direction if it touches and a step in that direction leads around it. -/
theorem faces_iff_of_le (finer : a.level ≤ b.level) :
    a.Faces r b ↔ (a.shifted r).contains b = true ∧ a.Touches b := by
  have above : (a.shifted r).level ≤ b.level := finer
  rw [faces_iff_axes, contains_iff, and_iff_right above, Touches, ← forall_and]
  apply forall_congr'
  intro axis
  rw [and_comm, and_congr_left_iff]
  intro touch
  have positive : (0 : Int) < 2 ^ (b.level - a.level) := by positivity
  rw [lx_shifted, show (a.shifted r).level = a.level from rfl, Int.ediv_eq_iff_of_pos positive]
  simp only [sideOf, lowerAt, upperAt, max_eq_right finer, Nat.sub_self, pow_zero, mul_one,
    add_mul] at touch ⊢
  generalize a.lx axis * 2 ^ (b.level - a.level) = start at *
  generalize (2 : Int) ^ (b.level - a.level) = size at *
  cases r.side axis <;> simp only [Side.offset, neg_mul, one_mul, zero_mul] <;> split_ifs <;>
    simp <;> omega

/-- A block touches the finer ones inside the place that a step leads to, if they lie on the near
boundary of that place. -/
theorem faces_iff_of_finer (finer : a.level + 1 = b.level) :
    a.Faces r b ↔ (a.shifted r).contains b = true ∧ r.reverse.touches 3 b.octant = true := by
  rw [faces_iff_axes, contains_iff, touches_octant_iff, and_assoc]
  have levels : max a.level b.level = b.level := by omega
  have one : b.level - a.level = 1 := by omega
  have above : (a.shifted r).level ≤ b.level := by show a.level ≤ b.level; omega
  rw [and_iff_right above, ← forall_and]
  apply forall_congr'
  intro axis
  have deeper : b.level - (a.shifted r).level = 1 := one
  have mirrored : r.reverse.side axis = (r.side axis).reverse := by simp [Region.reverse, Region.side]
  simp only [sideOf, lowerAt, upperAt, levels, one, deeper, Nat.sub_self, pow_zero, pow_one, mul_one,
    lx_shifted, isSet_octant, mirrored]
  cases r.side axis <;> simp only [Side.offset, Side.reverse] <;> split_ifs <;> simp <;> omega

end Location

namespace RootGrid

variable {grid : RootGrid} {a b loc : Location} {turns : Triple Int} {r : Region}

theorem lowerAt_image {level : Nat} (winds : grid.Winds turns) (fits : grid.LevelFits level)
    (fine : grid.rootLevel ≤ loc.level) (above : loc.level ≤ level) (axis : Axis) :
    (grid.image loc turns).lowerAt level axis =
      loc.lowerAt level axis + turns axis * grid.extent level axis := by
  have deeper : level = loc.level + (level - loc.level) := by omega
  have turned := winds.turn_extent (level - loc.level) (deeper ▸ fits) fine axis
  rw [← deeper] at turned
  rw [turned, Location.lowerAt, Location.lowerAt, lx_image, level_image]
  ring

theorem upperAt_image {level : Nat} (winds : grid.Winds turns) (fits : grid.LevelFits level)
    (fine : grid.rootLevel ≤ loc.level) (above : loc.level ≤ level) (axis : Axis) :
    (grid.image loc turns).upperAt level axis =
      loc.upperAt level axis + turns axis * grid.extent level axis := by
  have deeper : level = loc.level + (level - loc.level) := by omega
  have turned := winds.turn_extent (level - loc.level) (deeper ▸ fits) fine axis
  rw [← deeper] at turned
  rw [turned, Location.upperAt, Location.upperAt, lx_image, level_image]
  ring

theorem faces_image_iff (winds : grid.Winds turns) (fitsA : grid.LevelFits a.level)
    (fitsB : grid.LevelFits b.level) (fineA : grid.rootLevel ≤ a.level)
    (fineB : grid.rootLevel ≤ b.level) :
    (grid.image a turns).Faces r (grid.image b turns) ↔ a.Faces r b := by
  have fits : grid.LevelFits (max a.level b.level) := by
    rcases le_total a.level b.level with finer | finer
    · rwa [max_eq_right finer]
    · rwa [max_eq_left finer]
  rw [Location.faces_iff_axes, Location.faces_iff_axes]
  apply forall_congr'
  intro axis
  simp only [Location.sideOf, level_image,
    lowerAt_image winds fits fineA (le_max_left _ _), upperAt_image winds fits fineA (le_max_left _ _),
    lowerAt_image winds fits fineB (le_max_right _ _),
    upperAt_image winds fits fineB (le_max_right _ _), add_le_add_iff_right]

theorem faces_image_comm (winds : grid.Winds turns) (fitsA : grid.LevelFits a.level)
    (fitsB : grid.LevelFits b.level) (fineA : grid.rootLevel ≤ a.level)
    (fineB : grid.rootLevel ≤ b.level) :
    a.Faces r (grid.image b turns) ↔ b.Faces r.reverse (grid.image a (back turns)) := by
  rw [Location.faces_comm,
    ← faces_image_iff winds.back (a := grid.image b turns) fitsB fitsA fineB fineA, image_back]

/-- Whether two places touch, where a place stands for all its images. -/
def Adjacent (grid : RootGrid) (a b : Location) : Prop :=
  ∃ turns, grid.Winds turns ∧ a.Touches (grid.image b turns)

theorem adjacent_comm (fitsA : grid.LevelFits a.level) (fitsB : grid.LevelFits b.level)
    (fineA : grid.rootLevel ≤ a.level) (fineB : grid.rootLevel ≤ b.level) :
    grid.Adjacent a b ↔ grid.Adjacent b a := by
  have swap {a b : Location} (fitsA : grid.LevelFits a.level) (fitsB : grid.LevelFits b.level)
      (fineA : grid.rootLevel ≤ a.level) (fineB : grid.rootLevel ≤ b.level) :
      grid.Adjacent a b → grid.Adjacent b a := by
    rintro ⟨turns, winds, touch⟩
    exact ⟨back turns, winds.back, ((faces_image_comm winds fitsA fitsB fineA fineB).1 ⟨touch, rfl⟩).1⟩
  exact ⟨swap fitsA fitsB fineA fineB, swap fitsB fitsA fineB fineA⟩

end RootGrid

end AdaptiveMesh
