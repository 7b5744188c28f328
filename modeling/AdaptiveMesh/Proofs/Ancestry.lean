import AdaptiveMesh.Proofs.Path

/-!
# Ancestors

Three computations follow one descent: halving the coordinates again and again on the way up, reading the
octants off the bits on the way down, and dividing by the cells between two levels. Going up a number of
levels is one division (`ancestor?_eq_some_iff`), so what contains a place is what lies above it, and each
octant of a path is the octant of an ancestor. A path shows the lowest bits of the coordinates and not where
they lie: the way down passes the ancestors modulo the cells of their levels (`ofPath_take`) and ends at the
place itself exactly if that lies inside the root.
-/

namespace AdaptiveMesh

set_option autoImplicit false

theorem emod_two_pow_bit (x : Int) {bits shift : Nat} (lower : shift < bits) :
    x % 2 ^ bits / 2 ^ shift % 2 = x / 2 ^ shift % 2 := by
  have split : (2 : Int) ^ bits = 2 ^ shift * (2 * 2 ^ (bits - shift - 1)) := by
    rw [← pow_succ', ← pow_add]
    congr 1
    omega
  have positive : (0 : Int) < 2 ^ shift := by positivity
  have whole := Int.emod_add_mul_ediv x (2 ^ bits)
  rw [split] at whole ⊢
  conv_rhs => rw [← whole, mul_assoc, Int.add_mul_ediv_left _ _ positive.ne', mul_assoc,
    Int.add_mul_emod_self_left]

namespace Location

variable {a b loc up : Location} {n : Nat}

/-- The place inside the root with the same path. -/
def wrapped (loc : Location) : Location := ⟨loc.level, loc.lx.map fun (x : Int) => x % 2 ^ loc.level⟩

@[simp] theorem level_wrapped (loc : Location) : loc.wrapped.level = loc.level := rfl

@[simp] theorem lx_wrapped (loc : Location) (axis : Axis) :
    loc.wrapped.lx axis = loc.lx axis % 2 ^ loc.level := by
  simp [wrapped]

theorem root_contains_iff : root.contains loc = true ↔
    ∀ axis, 0 ≤ loc.lx axis ∧ loc.lx axis < 2 ^ loc.level := by
  rw [contains_iff, show root.level = 0 from rfl, Nat.sub_zero, and_iff_right (Nat.zero_le _)]
  apply forall_congr'
  intro axis
  have positive : (0 : Int) < 2 ^ loc.level := by positivity
  show loc.lx axis / 2 ^ loc.level = (Triple.fill 0) axis ↔ _
  rw [Triple.get_fill, Int.ediv_eq_iff_of_pos positive, zero_mul, zero_add]

theorem root_contains_wrapped (loc : Location) : root.contains loc.wrapped = true := by
  rw [root_contains_iff]
  intro axis
  rw [lx_wrapped]
  exact ⟨Int.emod_nonneg _ (by positivity), Int.emod_lt_of_pos _ (by positivity)⟩

theorem wrapped_of_proper (proper : root.contains loc = true) : loc.wrapped = loc := by
  apply eq_of_axes loc.level_wrapped
  intro axis
  obtain ⟨lower, upper⟩ := root_contains_iff.1 proper axis
  rw [lx_wrapped, Int.emod_eq_of_lt lower upper]

theorem wrapped_eq_self_iff : loc.wrapped = loc ↔ root.contains loc = true := by
  constructor
  · intro same
    rw [← same]
    exact loc.root_contains_wrapped
  · exact wrapped_of_proper

theorem path_wrapped (loc : Location) : loc.wrapped.path = loc.path := by
  rw [path, path, level_wrapped]
  apply List.map_congr_left
  intro depth inside
  have shallow : depth < loc.level := List.mem_range.1 inside
  simp only [octantAt, Octant.pack, Octant.mk.injEq]
  apply Triple.ext_get
  intro axis
  simp only [Triple.get_map, lx_wrapped, level_wrapped, Int.shiftRight_eq_div_pow, Nat.cast_pow,
    Nat.cast_ofNat]
  rw [emod_two_pow_bit _ (by omega)]

theorem ofPath_path_eq_wrapped (loc : Location) : ofPath loc.path = loc.wrapped := by
  rw [← path_wrapped]
  exact ofPath_path loc.root_contains_wrapped

theorem parent?_eq_some_iff : loc.parent? = some up ↔
    up.level + 1 = loc.level ∧ ∀ axis, up.lx axis = loc.lx axis / 2 := by
  obtain ⟨level, lx⟩ := loc
  cases level with
  | zero =>
      constructor
      · intro above
        cases above
      · intro above
        cases above.1
  | succ level =>
      change some _ = some up ↔ _
      rw [Option.some.injEq]
      constructor
      · rintro rfl
        exact ⟨rfl, fun axis => Triple.get_map _ _ axis⟩
      · intro above
        obtain ⟨below, halves⟩ := above
        apply eq_of_axes (Nat.succ.inj below).symm
        intro axis
        rw [halves axis, Triple.get_map]

theorem ancestor?_eq_some_iff : loc.ancestor? n = some up ↔
    up.level + n = loc.level ∧ ∀ axis, up.lx axis = loc.lx axis / 2 ^ n := by
  induction n generalizing loc with
  | zero =>
      rw [ancestor?, Option.some.injEq]
      constructor
      · rintro rfl
        exact ⟨rfl, fun axis => by rw [pow_zero, Int.ediv_one]⟩
      · intro above
        obtain ⟨level, axes⟩ := above
        apply eq_of_axes level.symm
        intro axis
        rw [axes axis, pow_zero, Int.ediv_one]
  | succ n ih =>
      have halved (axis : Axis) : loc.lx axis / 2 / 2 ^ n = loc.lx axis / 2 ^ (n + 1) := by
        rw [Int.ediv_ediv_of_nonneg (by decide), ← pow_succ']
      rw [ancestor?, Option.bind_eq_some_iff]
      constructor
      · rintro ⟨next, first, rest⟩
        obtain ⟨levelNext, halves⟩ := parent?_eq_some_iff.1 first
        obtain ⟨levelUp, axes⟩ := ih.1 rest
        refine ⟨by omega, fun axis => ?_⟩
        rw [axes axis, halves axis, halved axis]
      · intro above
        obtain ⟨level, axes⟩ := above
        refine ⟨⟨loc.level - 1, loc.lx.map (· / 2)⟩, parent?_eq_some_iff.2 ⟨?_, ?_⟩, ih.2 ⟨?_, ?_⟩⟩
        · show loc.level - 1 + 1 = loc.level
          omega
        · exact fun axis => Triple.get_map _ _ axis
        · show up.level + n = loc.level - 1
          omega
        · intro axis
          rw [axes axis, Triple.get_map, halved axis]

theorem exists_ancestor (shallow : n ≤ loc.level) : ∃ up, loc.ancestor? n = some up := by
  refine ⟨⟨loc.level - n, loc.lx.map (· / 2 ^ n)⟩, ancestor?_eq_some_iff.2 ⟨?_, ?_⟩⟩
  · exact Nat.sub_add_cancel shallow
  · exact fun axis => Triple.get_map _ _ axis

theorem ancestor?_trans {m : Nat} {top : Location} (lower : loc.ancestor? m = some up)
    (upper : up.ancestor? n = some top) : loc.ancestor? (m + n) = some top := by
  obtain ⟨levelUp, axesUp⟩ := ancestor?_eq_some_iff.1 lower
  obtain ⟨levelTop, axesTop⟩ := ancestor?_eq_some_iff.1 upper
  refine ancestor?_eq_some_iff.2 ⟨by omega, fun axis => ?_⟩
  rw [axesTop axis, axesUp axis, Int.ediv_ediv_of_nonneg (by positivity), ← pow_add]

theorem contains_iff_ancestor? : a.contains b = true ↔
    a.level ≤ b.level ∧ b.ancestor? (b.level - a.level) = some a := by
  rw [contains_iff, ancestor?_eq_some_iff]
  apply and_congr_right
  intro coarser
  rw [and_iff_right (Nat.add_sub_of_le coarser)]
  exact forall_congr' fun axis => eq_comm

theorem contains_of_parent? (above : loc.parent? = some up) : up.contains loc = true := by
  obtain ⟨level, halves⟩ := parent?_eq_some_iff.1 above
  rw [contains_iff]
  refine ⟨by omega, fun axis => ?_⟩
  rw [← level, Nat.add_sub_cancel_left, pow_one, halves axis]

theorem octant_ancestor {depth : Nat} (above : loc.ancestor? (loc.level - depth - 1) = some up) :
    up.octant = loc.octantAt depth := by
  obtain ⟨_, axes⟩ := ancestor?_eq_some_iff.1 above
  simp only [octant, octantAt, Octant.pack, Octant.mk.injEq]
  apply Triple.ext_get
  intro axis
  simp only [Triple.get_map, Int.shiftRight_eq_div_pow, Nat.cast_pow, Nat.cast_ofNat, axes axis]

/-- The path of a place begins with the path of each ancestor: both take the octants of the places above. -/
theorem path_ancestor (above : loc.ancestor? n = some up) : up.path = loc.path.take up.level := by
  obtain ⟨level, _⟩ := ancestor?_eq_some_iff.1 above
  rw [path, path, ← List.map_take, List.take_range, Nat.min_eq_left (by omega)]
  apply List.map_congr_left
  intro depth inside
  have shallow : depth < up.level := List.mem_range.1 inside
  -- what lies above the ancestor at a depth lies above the place at the same depth
  obtain ⟨top, aboveUp⟩ := up.exists_ancestor (n := up.level - depth - 1) (by omega)
  have aboveLoc : loc.ancestor? (loc.level - depth - 1) = some top := by
    have whole := ancestor?_trans above aboveUp
    rwa [show n + (up.level - depth - 1) = loc.level - depth - 1 by omega] at whole
  rw [← octant_ancestor aboveUp, octant_ancestor aboveLoc]

theorem ofPath_take (above : loc.ancestor? n = some up) :
    ofPath (loc.path.take up.level) = up.wrapped := by
  rw [← path_ancestor above]
  exact up.ofPath_path_eq_wrapped

theorem fits_ofPath {path : List Octant} (short : path.length ≤ 63) (axis : Axis) :
    Signed64.Fits ((ofPath path).lx axis) := by
  obtain ⟨lower, upper⟩ := root_contains_iff.1 (root_contains_ofPath path) axis
  rw [level_ofPath] at upper
  have cells : (2 : Int) ^ path.length ≤ 2 ^ 63 := pow_le_pow_right₀ (by decide) short
  constructor <;> omega

/-- The way down along a path, the way up and containment describe one descent. The way down passes the
ancestors modulo the cells of their levels, in words, and ends at the place itself exactly if its coordinates
lie inside the root. -/
theorem descent_matches_ascent (loc : Location) :
    ((ofPath loc.path).level = loc.level ∧
      ∀ axis, (ofPath loc.path).lx axis = loc.lx axis % 2 ^ loc.level) ∧
    (ofPath loc.path = loc ↔ ∀ axis, 0 ≤ loc.lx axis ∧ loc.lx axis < 2 ^ loc.level) ∧
    (∀ depth < loc.level, ∃ up, loc.ancestor? (loc.level - depth - 1) = some up ∧
      loc.octantAt depth = up.octant) ∧
    (∀ depth ≤ loc.level, ∃ up, loc.ancestor? (loc.level - depth) = some up ∧
      ofPath (loc.path.take depth) = up.wrapped ∧
      (loc.level ≤ 62 → ∀ axis, Signed64.Fits ((ofPath (loc.path.take depth)).lx axis))) ∧
    ∀ other : Location, loc.contains other = true ↔
      loc.level ≤ other.level ∧ other.ancestor? (other.level - loc.level) = some loc := by
  refine ⟨?_, ?_, ?_, ?_, fun other => contains_iff_ancestor?⟩
  · rw [ofPath_path_eq_wrapped]
    exact ⟨loc.level_wrapped, loc.lx_wrapped⟩
  · rw [ofPath_path_eq_wrapped, wrapped_eq_self_iff, root_contains_iff]
  · intro depth shallow
    obtain ⟨up, above⟩ := loc.exists_ancestor (n := loc.level - depth - 1) (by omega)
    exact ⟨up, above, (octant_ancestor above).symm⟩
  · intro depth shallow
    obtain ⟨up, above⟩ := loc.exists_ancestor (n := loc.level - depth) (by omega)
    have level : up.level = depth := by
      have passed := (ancestor?_eq_some_iff.1 above).1
      omega
    refine ⟨up, above, ?_, fun small axis => ?_⟩
    · rw [← level, ofPath_take above]
    · apply fits_ofPath
      rw [List.length_take, length_path]
      omega

def outsidePlace : Location := ⟨3, ⟨-3, 13, 5⟩⟩

/-- The way down to a place outside of the root ends inside, at another place. The octants on the way are
still those of the place's own ancestors, which lie outside too. -/
theorem descent_matches_ascent_outside :
    ofPath outsidePlace.path = ⟨3, ⟨5, 5, 5⟩⟩ ∧ ofPath outsidePlace.path ≠ outsidePlace ∧
    outsidePlace.ancestor? 2 = some ⟨1, ⟨-1, 3, 1⟩⟩ ∧
    outsidePlace.octantAt 0 = octant ⟨1, ⟨-1, 3, 1⟩⟩ ∧
    ofPath (outsidePlace.path.take 1) = ⟨1, ⟨1, 1, 1⟩⟩ ∧
    (∀ axis, Signed64.Fits ((ofPath (outsidePlace.path.take 1)).lx axis)) ∧
    contains ⟨1, ⟨-1, 3, 1⟩⟩ outsidePlace = true := by
  obtain ⟨⟨level, axes⟩, exactly, octants, passes, _⟩ := descent_matches_ascent outsidePlace
  obtain ⟨_, _, _, _, above⟩ := descent_matches_ascent ⟨1, ⟨-1, 3, 1⟩⟩
  have second : outsidePlace.ancestor? 2 = some ⟨1, ⟨-1, 3, 1⟩⟩ := by decide
  obtain ⟨up, aboveUp, octantUp⟩ := octants 0 (by decide)
  obtain ⟨same, aboveSame, wrappedSame, words⟩ := passes 1 (by decide)
  cases Option.some.inj (second.symm.trans aboveUp)
  cases Option.some.inj (second.symm.trans aboveSame)
  refine ⟨?_, ?_, second, octantUp, ?_, words (by decide), ?_⟩
  · refine eq_of_axes level fun axis => ?_
    rw [axes axis]
    revert axis
    decide
  · rw [Ne, exactly]
    decide
  · rw [wrappedSame]
    decide
  · exact (above outsidePlace).2 ⟨by decide, second⟩

end Location

end AdaptiveMesh
