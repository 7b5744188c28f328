import AdaptiveMesh.Proofs.Extent

/-!
# Paths and containment

Containment between places is a division of coordinates, and the path of a place lists the bits that
the divisions drop. Both describe the same descent: a place contains another one if its path leads
the way to it (`contains_ofPath_iff`). Places whose coordinates a path can show are those inside the
root, and every place of the domain is one of them.
-/

namespace AdaptiveMesh

set_option autoImplicit false

namespace Location

variable {a b t loc : Location}

theorem eq_of_axes (level : a.level = b.level) (axes : ∀ axis, a.lx axis = b.lx axis) : a = b := by
  cases a
  cases b
  cases level
  cases Triple.ext_get axes
  rfl

theorem contains_iff : a.contains b = true ↔
    a.level ≤ b.level ∧ ∀ axis, b.lx axis / 2 ^ (b.level - a.level) = a.lx axis := by
  simp only [contains, Bool.and_eq_true, decide_eq_true_eq, List.all_eq_true,
    Int.shiftRight_eq_div_pow, Nat.cast_pow, Nat.cast_ofNat]
  exact and_congr_right fun _ =>
    ⟨fun inside axis => inside axis axis.mem_all, fun inside axis _ => inside axis⟩

theorem level_le_of_contains (inside : a.contains b = true) : a.level ≤ b.level :=
  (contains_iff.1 inside).1

@[simp] theorem contains_refl (loc : Location) : loc.contains loc = true := by
  simp [contains_iff]

theorem contains_trans (outer : a.contains b = true) (inner : b.contains t = true) :
    a.contains t = true := by
  obtain ⟨levelAB, axesAB⟩ := contains_iff.1 outer
  obtain ⟨levelBT, axesBT⟩ := contains_iff.1 inner
  rw [contains_iff]
  refine ⟨le_trans levelAB levelBT, fun axis => ?_⟩
  rw [← axesAB axis, ← axesBT axis, Int.ediv_ediv_of_nonneg (by positivity), ← pow_add]
  congr 2
  omega

/-- Of two places with a common part, the coarser one contains the other. -/
theorem contains_of_common (outerA : a.contains t = true) (outerB : b.contains t = true)
    (coarser : a.level ≤ b.level) : a.contains b = true := by
  obtain ⟨levelA, axesA⟩ := contains_iff.1 outerA
  obtain ⟨levelB, axesB⟩ := contains_iff.1 outerB
  rw [contains_iff]
  refine ⟨coarser, fun axis => ?_⟩
  rw [← axesA axis, ← axesB axis, Int.ediv_ediv_of_nonneg (by positivity), ← pow_add]
  congr 2
  omega

theorem eq_of_contains (inside : a.contains b = true) (finer : b.level ≤ a.level) : a = b := by
  obtain ⟨level, axes⟩ := contains_iff.1 inside
  apply eq_of_axes (by omega)
  intro axis
  have places : b.level - a.level = 0 := by omega
  rw [← axes axis, places, pow_zero, Int.ediv_one]

theorem contains_child_iff {o : Octant} : (loc.child o).contains t = true ↔
    loc.contains t = true ∧ loc.level < t.level ∧ t.octantAt loc.level = o := by
  have bits : t.octantAt loc.level = o ↔
      ∀ axis, (t.lx axis / 2 ^ (t.level - loc.level - 1) % 2 == 1) = o.isSet axis := by
    constructor
    · rintro rfl axis
      simp [octantAt, Octant.pack, Octant.isSet, Int.shiftRight_eq_div_pow]
    · intro same
      obtain ⟨bits⟩ := o
      simp only [octantAt, Octant.pack, Octant.mk.injEq]
      apply Triple.ext_get
      intro axis
      simpa [Octant.isSet, Int.shiftRight_eq_div_pow] using same axis
  have halved (axis : Axis) (deep : loc.level < t.level) :
      t.lx axis / 2 ^ (t.level - loc.level) = t.lx axis / 2 ^ (t.level - loc.level - 1) / 2 := by
    rw [Int.ediv_ediv_of_nonneg (by positivity), ← pow_succ]
    congr 2
    omega
  rw [contains_iff, contains_iff, bits, level_child]
  simp only [lx_child]
  constructor
  · rintro ⟨deep, axes⟩
    have deeper : t.level - (loc.level + 1) = t.level - loc.level - 1 := by omega
    rw [deeper] at axes
    refine ⟨⟨by omega, fun axis => ?_⟩, by omega, fun axis => ?_⟩
    · rw [halved axis (by omega), axes axis]
      cases o.isSet axis <;> simp [Bool.toInt]
      omega
    · rw [axes axis]
      cases o.isSet axis <;> simp [Bool.toInt]
  · rintro ⟨⟨_, axes⟩, deep, lowest⟩
    have deeper : t.level - (loc.level + 1) = t.level - loc.level - 1 := by omega
    refine ⟨by omega, fun axis => ?_⟩
    have high := axes axis
    have low := lowest axis
    rw [halved axis deep] at high
    rw [deeper]
    cases bit : o.isSet axis <;> rw [bit] at low <;> simp [Bool.toInt] at low ⊢ <;> omega

theorem contains_child (loc : Location) (o : Octant) : loc.contains (loc.child o) = true :=
  (contains_child_iff.1 (contains_refl (loc.child o))).1

theorem contains_child_of_contains (inside : loc.contains t = true) (finer : loc.level < t.level) :
    (loc.child (t.octantAt loc.level)).contains t = true :=
  contains_child_iff.2 ⟨inside, finer, rfl⟩

theorem child_injective {o other : Octant} (same : loc.child o = loc.child other) : o = other := by
  have inside : (loc.child o).contains (loc.child other) = true := by simp [same]
  have self := (contains_child_iff.1 (contains_refl (loc.child other))).2.2
  rw [← (contains_child_iff.1 inside).2.2, self]

theorem contains_foldl_child (path : List Octant) (loc : Location) :
    loc.contains (path.foldl child loc) = true := by
  induction path generalizing loc with
  | nil => exact contains_refl loc
  | cons o rest ih => exact contains_trans (contains_child loc o) (ih (loc.child o))

theorem path_child (loc : Location) (o : Octant) : (loc.child o).path = loc.path ++ [o] := by
  have last : (loc.child o).octantAt loc.level = o :=
    (contains_child_iff.1 (contains_refl (loc.child o))).2.2
  have before : (List.range loc.level).map (loc.child o).octantAt =
      (List.range loc.level).map loc.octantAt := by
    apply List.map_congr_left
    intro depth inside
    have shallow : depth < loc.level := List.mem_range.1 inside
    have places : loc.level + 1 - depth - 1 = loc.level - depth - 1 + 1 := by omega
    simp only [octantAt, Octant.pack, Octant.mk.injEq]
    apply Triple.ext_get
    intro axis
    simp only [Triple.get_map, lx_child, level_child, places, Int.shiftRight_eq_div_pow,
      Nat.cast_mul, Nat.cast_pow, Nat.cast_ofNat, pow_succ']
    have halved : (2 * loc.lx axis + (o.isSet axis).toInt) / 2 = loc.lx axis := by
      cases o.isSet axis <;> simp [Bool.toInt]
      omega
    rw [← Int.ediv_ediv_of_nonneg (by decide), halved]
  rw [path, level_child, List.range_succ, List.map_append, before, List.map_singleton, last, path]

theorem path_foldl_child (path : List Octant) (loc : Location) :
    (path.foldl child loc).path = loc.path ++ path := by
  induction path generalizing loc with
  | nil => simp
  | cons o rest ih => rw [List.foldl_cons, ih, path_child, List.append_assoc, List.singleton_append]

@[simp] theorem path_ofPath (path : List Octant) : (ofPath path).path = path := by
  rw [ofPath, path_foldl_child]
  rfl

@[simp] theorem level_ofPath (path : List Octant) : (ofPath path).level = path.length := by
  rw [← length_path, path_ofPath]

theorem ofPath_append_singleton (path : List Octant) (o : Octant) :
    ofPath (path ++ [o]) = (ofPath path).child o := by
  simp [ofPath]

theorem foldl_child_of_contains (inside : loc.contains t = true) :
    ((List.range' loc.level (t.level - loc.level)).map t.octantAt).foldl child loc = t := by
  generalize count : t.level - loc.level = steps
  induction steps generalizing loc with
  | zero =>
      have level := level_le_of_contains inside
      have same := eq_of_contains inside (by omega)
      simpa using same
  | succ steps ih =>
      have deeper := contains_child_of_contains inside (by omega)
      rw [List.range'_succ, List.map_cons, List.foldl_cons]
      exact ih deeper (by rw [level_child]; omega)

theorem ofPath_path (proper : root.contains t = true) : ofPath t.path = t := by
  have whole := foldl_child_of_contains proper
  rwa [show t.level - root.level = t.level from rfl, show root.level = 0 from rfl,
    ← List.range_eq_range'] at whole

theorem root_contains_ofPath (path : List Octant) : root.contains (ofPath path) = true :=
  contains_foldl_child path root

theorem path_injective (properA : root.contains a = true) (properB : root.contains b = true)
    (same : a.path = b.path) : a = b := by
  rw [← ofPath_path properA, same, ofPath_path properB]

theorem contains_ofPath_iff (proper : root.contains t = true) (path : List Octant) :
    (ofPath path).contains t = true ↔ path <+: t.path := by
  constructor
  · intro inside
    have rest := foldl_child_of_contains inside
    rw [ofPath, ← List.foldl_append] at rest
    rw [← rest]
    exact ⟨_, (path_ofPath _).symm⟩
  · rintro ⟨rest, whole⟩
    rw [← ofPath_path proper, ← whole, ofPath, ofPath, List.foldl_append]
    exact contains_foldl_child rest _

theorem contains_iff_prefix (properA : root.contains a = true) (properB : root.contains b = true) :
    a.contains b = true ↔ a.path <+: b.path := by
  rw [← contains_ofPath_iff properB, ofPath_path properA]

end Location

end AdaptiveMesh
