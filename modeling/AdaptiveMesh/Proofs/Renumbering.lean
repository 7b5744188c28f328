import AdaptiveMesh.Proofs.Acceptance
import AdaptiveMesh.Proofs.Refinement
import Mathlib.Algebra.Order.BigOperators.Group.List
import Mathlib.Data.List.Flatten

/-!
# Renumbering

Leaves that are given in Z order become blocks in the order given. The children of a block follow one
another where the block was, so what the old blocks become, laid end to end, is in Z order again, and the
new gid of a block is the position at which its part starts. Every position lies in exactly one part.
-/

namespace AdaptiveMesh

set_option autoImplicit false

theorem Location.Precedes.of_contains {a b c d : Location} (before : a.Precedes b)
    (insideA : a.contains c = true) (insideB : b.contains d = true) : c.Precedes d := by
  obtain ⟨above, o, other, ordered, aroundA, aroundB⟩ := before
  exact ⟨above, o, other, ordered, Location.contains_trans aroundA insideA,
    Location.contains_trans aroundB insideB⟩

namespace RootGrid

variable (grid : RootGrid)

theorem children_ordered (loc : Location) : (grid.children loc).Pairwise Location.Precedes := by
  rw [children, List.pairwise_map]
  apply (Octant.forDim_ordered grid.dim_le_three).imp
  intro o other ordered
  exact ⟨loc, o, other, ordered, Location.contains_refl _, Location.contains_refl _⟩

theorem getElem?_children (loc : Location) {k : Nat} (bound : k < grid.numChildren) :
    (grid.children loc)[k]? = some (loc.child (.ofLinear k)) := by
  have counted : (List.range grid.numChildren)[k]? = some k := List.getElem?_range bound
  rw [children, Octant.forDim, List.getElem?_map, List.getElem?_map, ← numChildren, counted]
  rfl

end RootGrid

namespace BlockTree

variable {tree next : BlockTree} {grid : RootGrid} {gid : Nat} {loc : Location} {flags : Array Bool}
  {starts : List Nat}

theorem toList_locations_of_ordered {leaves : List Location}
    (fits : ∀ loc ∈ leaves, grid.LevelFits loc.level) (built : ofLeaves grid leaves = .ok tree)
    (ordered : leaves.Pairwise Location.Precedes) : tree.locations.toList = leaves := by
  obtain ⟨_, listed, _⟩ := perm_of_ofLeaves fits built
  apply listed.eq_of_pairwise _ tree.locations_ordered ordered
  intro a b _ _ before after
  exact absurd after before.asymm

theorem refined_ordered (grid : RootGrid) (piece : Location × Bool) :
    (refined grid piece).Pairwise Location.Precedes := by
  unfold refined
  split
  · exact grid.children_ordered piece.1
  · exact List.pairwise_singleton _ _

/-- Putting children in the place of their parents keeps the Z order. -/
theorem flatMap_refined_ordered {pieces : List (Location × Bool)}
    (ordered : (pieces.map Prod.fst).Pairwise Location.Precedes) :
    (pieces.flatMap (refined grid)).Pairwise Location.Precedes := by
  rw [List.pairwise_map] at ordered
  rw [List.pairwise_flatMap]
  constructor
  · intro piece _
    exact refined_ordered grid piece
  · apply ordered.imp
    intro piece other before a memberA b memberB
    exact before.of_contains (contains_of_mem_refined memberA) (contains_of_mem_refined memberB)

theorem levelFits_of_mem_refined (fits : tree.Fits)
    (deeper : ∀ gid loc, tree.location? gid = some loc → flags[gid]? = some true →
      tree.grid.LevelFits (loc.level + 1)) :
    ∀ leaf ∈ (tree.withFlags flags).flatMap (refined tree.grid),
      tree.grid.LevelFits leaf.level := by
  intro leaf member
  obtain ⟨piece, listed, below⟩ := List.mem_flatMap.1 member
  obtain ⟨gid, loc, block, _, level⟩ := exists_source listed below
  cases level with
  | inl split =>
      rw [split.2]
      exact deeper gid loc block split.1
  | inr kept =>
      rw [kept.2]
      exact fits.level block

theorem toList_locations_of_refine (fits : tree.Fits)
    (deeper : ∀ gid loc, tree.location? gid = some loc → flags[gid]? = some true →
      tree.grid.LevelFits (loc.level + 1))
    (refining : tree.refine flags = .ok (next, starts)) :
    next.locations.toList = (tree.withFlags flags).flatMap (refined tree.grid) := by
  obtain ⟨size, built, _⟩ := refine_ok_iff.1 refining
  apply toList_locations_of_ordered (levelFits_of_mem_refined fits deeper) built
  apply flatMap_refined_ordered
  rw [map_fst_withFlags size]
  exact tree.locations_ordered

section

variable {start first width index : Nat} {lengths : List Nat}

theorem startsOf_iff : (startsOf start lengths)[index]? = some first ↔
    index < lengths.length ∧ start + (lengths.take index).sum = first := by
  induction lengths generalizing start index with
  | nil => simp [startsOf]
  | cons length rest ih =>
      cases index with
      | zero => simp [startsOf]
      | succ index =>
          rw [startsOf, List.getElem?_cons_succ, ih, List.length_cons, List.take_succ_cons,
            List.sum_cons, Nat.add_assoc]
          simp

theorem startsOf_le_of_lt {later other : Nat}
    (found : (startsOf start lengths)[index]? = some first) (wide : lengths[index]? = some width)
    (foundLater : (startsOf start lengths)[later]? = some other) (before : index < later) :
    first + width ≤ other := by
  obtain ⟨bound, same⟩ := startsOf_iff.1 found
  obtain ⟨_, sameLater⟩ := startsOf_iff.1 foundLater
  obtain ⟨_, value⟩ := List.getElem?_eq_some_iff.1 wide
  have through := List.sum_take_succ lengths index bound
  have onward : (lengths.take (index + 1)).sum ≤ (lengths.take later).sum :=
    List.monotone_sum_take lengths before
  omega

theorem exists_start {position : Nat} (lower : start ≤ position)
    (upper : position < start + lengths.sum) :
    ∃ index first width : Nat, (startsOf start lengths)[index]? = some first ∧
      lengths[index]? = some width ∧ first ≤ position ∧ position < first + width := by
  induction lengths generalizing start with
  | nil =>
      rw [List.sum_nil] at upper
      omega
  | cons length rest ih =>
      rw [List.sum_cons] at upper
      by_cases inside : position < start + length
      · exact ⟨0, start, length, rfl, rfl, lower, inside⟩
      · obtain ⟨index, first, width, found, wide, bounds⟩ :=
          ih (Nat.le_of_not_lt inside) (by omega)
        exact ⟨index + 1, first, width, found, wide, bounds⟩

theorem getElem?_flatten_of_start {α : Type} {pieces : List (List α)} {part : List α} {k : Nat}
    (found : (startsOf 0 (pieces.map List.length))[index]? = some first)
    (piece : pieces[index]? = some part) (bound : k < part.length) :
    pieces.flatten[first + k]? = part[k]? := by
  obtain ⟨_, same⟩ := startsOf_iff.1 found
  obtain ⟨here, value⟩ := List.getElem?_eq_some_iff.1 piece
  rw [Nat.zero_add] at same
  rw [← same, ← List.getElem?_drop, List.drop_sum_flatten, List.drop_eq_getElem_cons here, value,
    List.flatten_cons, List.getElem?_append_left bound]

theorem sum_widths (flags : List Bool) (count : Nat) (positive : 0 < count) :
    (flags.map fun flag => if flag then count else 1).sum =
      flags.length + (count - 1) * flags.count true := by
  induction flags with
  | nil => rfl
  | cons flag rest ih =>
      rw [List.map_cons, List.sum_cons, ih, List.length_cons, List.count_cons]
      cases flag with
      | false =>
          simp
          omega
      | true =>
          simp [Nat.mul_add]
          omega

end

def widthOf (grid : RootGrid) (flag : Bool) : Nat := if flag then 2 ^ grid.dim else 1

/-- How the blocks are numbered when flagged ones have been replaced by their children. -/
structure Renumbers (tree : BlockTree) (flags : Array Bool) (next : BlockTree)
    (starts : List Nat) : Prop where
  length : starts.length = tree.numLeaves
  count : next.numLeaves = tree.numLeaves + (2 ^ tree.grid.dim - 1) * flags.count true
  kept : ∀ gid loc first, tree.location? gid = some loc → flags[gid]? = some false →
    starts[gid]? = some first → next.location? first = some loc
  split : ∀ gid loc first, tree.location? gid = some loc → flags[gid]? = some true →
    starts[gid]? = some first → ∀ k < 2 ^ tree.grid.dim,
      next.location? (first + k) = some (loc.child (.ofLinear k))
  /-- Every new block comes from exactly one old one. -/
  origin : ∀ new < next.numLeaves, ∃! gid : Nat, ∃ (flag : Bool) (first : Nat),
    flags[gid]? = some flag ∧ starts[gid]? = some first ∧
      first ≤ new ∧ new < first + widthOf tree.grid flag
  ordered : starts.Pairwise (· < ·)

section

variable (fits : tree.Fits)
  (deeper : ∀ gid loc, tree.location? gid = some loc → flags[gid]? = some true →
    tree.grid.LevelFits (loc.level + 1))
  (refining : tree.refine flags = .ok (next, starts))

include refining

theorem starts_of_refine :
    starts = startsOf 0 (flags.toList.map (widthOf tree.grid)) := by
  obtain ⟨size, _, started⟩ := refine_ok_iff.1 refining
  rw [started, lengths_refined size]
  simp only [RootGrid.numChildren_eq]
  rfl

include fits deeper

theorem sum_widths_of_refine : (flags.toList.map (widthOf tree.grid)).sum = next.numLeaves := by
  obtain ⟨size, _, _⟩ := refine_ok_iff.1 refining
  have listed := congrArg List.length (toList_locations_of_refine fits deeper refining)
  rw [Array.length_toList, List.length_flatMap, lengths_refined size, RootGrid.numChildren_eq]
    at listed
  exact listed.symm

/-- The part of a block starts at its new gid. -/
theorem location?_of_refine {flag : Bool} {first k : Nat} (block : tree.location? gid = some loc)
    (flagged : flags[gid]? = some flag) (started : starts[gid]? = some first)
    (bound : k < (refined tree.grid (loc, flag)).length) :
    next.location? (first + k) = (refined tree.grid (loc, flag))[k]? := by
  obtain ⟨_, _, same⟩ := refine_ok_iff.1 refining
  have listed := toList_locations_of_refine fits deeper refining
  have piece : (tree.withFlags flags)[gid]? = some (loc, flag) := by
    rw [withFlags, List.getElem?_zip_eq_some, Array.getElem?_toList, Array.getElem?_toList]
    exact ⟨block, flagged⟩
  have part : ((tree.withFlags flags).map (refined tree.grid))[gid]? =
      some (refined tree.grid (loc, flag)) := by
    rw [List.getElem?_map, piece]
    rfl
  have lengths : (tree.withFlags flags).map (fun piece => (refined tree.grid piece).length) =
      ((tree.withFlags flags).map (refined tree.grid)).map List.length := by
    rw [List.map_map]
    rfl
  rw [same, lengths] at started
  rw [location?, ← Array.getElem?_toList, listed, List.flatMap_def]
  exact getElem?_flatten_of_start started part bound

omit fits deeper in
theorem starts_apart {other first later : Nat} {flag : Bool} (flagged : flags[gid]? = some flag)
    (found : starts[gid]? = some first) (foundLater : starts[other]? = some later)
    (before : gid < other) : first + widthOf tree.grid flag ≤ later := by
  have wide : (flags.toList.map (widthOf tree.grid))[gid]? = some (widthOf tree.grid flag) := by
    rw [List.getElem?_map, Array.getElem?_toList, flagged]
    rfl
  rw [starts_of_refine refining] at found foundLater
  exact startsOf_le_of_lt found wide foundLater before

theorem existsUnique_origin {new : Nat} (bound : new < next.numLeaves) :
    ∃! gid : Nat, ∃ (flag : Bool) (first : Nat), flags[gid]? = some flag ∧
      starts[gid]? = some first ∧ first ≤ new ∧ new < first + widthOf tree.grid flag := by
  rw [← sum_widths_of_refine fits deeper refining, ← Nat.zero_add (List.sum _)] at bound
  obtain ⟨gid, first, width, found, wide, lower, upper⟩ := exists_start (Nat.zero_le new) bound
  rw [← starts_of_refine refining] at found
  rw [List.getElem?_map, Array.getElem?_toList, Option.map_eq_some_iff] at wide
  obtain ⟨flag, flagged, rfl⟩ := wide
  refine ⟨gid, ⟨flag, first, flagged, found, lower, upper⟩, ?_⟩
  intro other among
  obtain ⟨mark, later, marked, foundLater, lowerLater, upperLater⟩ := among
  cases Nat.lt_trichotomy gid other with
  | inl before =>
      have ends := starts_apart refining flagged found foundLater before
      omega
  | inr rest =>
      cases rest with
      | inl same => exact same.symm
      | inr after =>
          have ends := starts_apart refining marked foundLater found after
          omega

theorem renumbers_of_refine : tree.Renumbers flags next starts := by
  obtain ⟨size, _, _⟩ := refine_ok_iff.1 refining
  have length : starts.length = tree.numLeaves := by
    rw [starts_of_refine refining, length_startsOf, List.length_map, Array.length_toList, size]
  constructor
  · exact length
  · have counted := sum_widths flags.toList (2 ^ tree.grid.dim) (Nat.two_pow_pos _)
    rw [← sum_widths_of_refine fits deeper refining, ← size, ← Array.length_toList,
      ← Array.count_toList]
    exact counted
  · intro gid loc first block flagged started
    exact location?_of_refine fits deeper refining block flagged started (k := 0) Nat.one_pos
  · intro gid loc first block flagged started k bound
    rw [← RootGrid.numChildren_eq] at bound
    have part : (refined tree.grid (loc, true)).length = tree.grid.numChildren :=
      length_refined tree.grid loc true
    rw [location?_of_refine fits deeper refining block flagged started (by rwa [part])]
    exact tree.grid.getElem?_children loc bound
  · intro new bound
    exact existsUnique_origin fits deeper refining bound
  · rw [List.pairwise_iff_getElem]
    intro gid other bound boundLater before
    have flagged : flags[gid]? = some flags[gid] := Array.getElem?_eq_getElem (by omega)
    have ends := starts_apart refining flagged (List.getElem?_eq_getElem bound)
      (List.getElem?_eq_getElem boundLater) before
    have positive : 0 < widthOf tree.grid flags[gid] := by
      unfold widthOf
      split
      · exact Nat.two_pow_pos _
      · exact Nat.one_pos
    omega

end

/-- Refining by any flags succeeds as long as the children can be represented. Unflagged blocks stay,
each flagged one is followed by its children in octant order, and the new gids are the positions at
which these parts start. -/
theorem refine_renumbers (words : tree.grid.Words) (size : flags.size = tree.numLeaves)
    (deeper : ∀ gid loc, tree.location? gid = some loc → flags[gid]? = some true →
      tree.grid.LevelFits (loc.level + 1)) :
    ∃ next starts, tree.refine flags = .ok (next, starts) ∧ next.grid = tree.grid ∧
      tree.Renumbers flags next starts := by
  have fits := fits_of_words words
  obtain ⟨next, starts, refining, grid, _⟩ := refine_ok fits size deeper
  exact ⟨next, starts, refining, grid, renumbers_of_refine fits deeper refining⟩

/-- In a tree with an empty part of the root, the third and the eighth of nine blocks are refined. -/
theorem refine_renumbers_oblong : ∃ tree next starts, ofLeaves oblongGrid oblongLeaves = .ok tree ∧
    tree.refine #[false, false, true, false, false, false, false, true, false] =
      .ok (next, starts) ∧
    next.numLeaves = 15 ∧ starts = [0, 1, 2, 6, 7, 8, 9, 10, 14] ∧
    tree.location? 7 = some ⟨2, ⟨2, 0, 0⟩⟩ ∧ next.location? 13 = some ⟨3, ⟨5, 1, 0⟩⟩ ∧
    tree.location? 8 = some ⟨2, ⟨2, 1, 0⟩⟩ ∧ next.location? 14 = some ⟨2, ⟨2, 1, 0⟩⟩ := by
  have computed : (ofLeaves oblongGrid oblongLeaves).toOption.any (fun tree =>
      tree.grid = oblongGrid && tree.location? 7 = some ⟨2, ⟨2, 0, 0⟩⟩ &&
        tree.location? 8 = some ⟨2, ⟨2, 1, 0⟩⟩ && tree.numLeaves = 9 &&
        tree.locations.all fun loc => loc.level ≤ 3) = true := by
    decide +kernel
  obtain ⟨tree, built, computed⟩ := Outcome.exists_ok_of_any computed
  simp only [Bool.and_eq_true, decide_eq_true_eq, Array.all_eq_true_iff_forall_mem] at computed
  obtain ⟨⟨⟨⟨grid, seventh⟩, eighth⟩, count⟩, shallow⟩ := computed
  have words : tree.grid.Words := by
    rw [grid]
    decide
  have deepest : tree.grid.LevelFits 4 := by
    rw [grid]
    decide
  have size : #[false, false, true, false, false, false, false, true, false].size =
      tree.numLeaves := by
    rw [count]
    rfl
  obtain ⟨next, starts, refining, _, renumbers⟩ := refine_renumbers words size
    fun gid loc block _ => deepest.mono
      (Nat.succ_le_succ (shallow loc (mem_locations_iff.2 ⟨gid, block⟩)))
  have begins : starts = [0, 1, 2, 6, 7, 8, 9, 10, 14] := by
    rw [starts_of_refine refining, grid]
    decide
  have total := renumbers.count
  rw [count, grid] at total
  refine ⟨tree, next, starts, built, refining, total, begins, seventh, ?_, eighth, ?_⟩
  · exact renumbers.split 7 _ 10 seventh rfl (by rw [begins]; rfl) 3 (by rw [grid]; decide)
  · exact renumbers.kept 8 _ 14 eighth rfl (by rw [begins]; rfl)

end BlockTree

end AdaptiveMesh
