import AdaptiveMesh.Proofs.Coarsening
import AdaptiveMesh.Proofs.Rows

/-!
# Closed flags

The check of refinement flags looks only at the coarser blocks that touch flagged ones, and tells whether
these are flagged too. In a balanced tree that decides the balance of the refined tree: a coarser block
left behind would touch a child of the flagged one, two levels finer, and where none is left behind any two
blocks that touch have moved apart by no more than they may.
-/

namespace AdaptiveMesh

set_option autoImplicit false

namespace BlockTree

variable {tree next : BlockTree} {gid : Nat} {loc : Location} {flags : Array Bool}

theorem lowered_of_not_raised (size : flags.size = tree.numLeaves)
    (block : tree.location? gid = some loc) (lowered : ¬flags[gid]? = some true) :
    flags[gid]? = some false := by
  have bound := location?_lt block
  have here : flags[gid]? = some flags[gid] := Array.getElem?_eq_getElem (by omega)
  rw [here] at lowered ⊢
  simpa using lowered

theorem coarserFlagged_ok (fits : tree.Fits) (block : tree.location? gid = some loc)
    (flags : Array Bool) :
    ∃ answer, (do return (← tree.coarseNeighbors loc).all fun gid => flags.getD gid false) =
        Except.ok (ε := TreeError) answer ∧
      (answer = true ↔ ∀ other home, tree.location? other = some home → home.level < loc.level →
        tree.grid.Adjacent loc home → flags[other]? = some true) := by
  obtain ⟨gids, run, members⟩ := coarseNeighbors_ok fits block
  refine ⟨gids.all fun gid => flags.getD gid false, by rw [run]; rfl, ?_⟩
  rw [List.all_eq_true]
  constructor
  · intro each other home found coarser adjacent
    exact getD_iff.1 (each other ((members other).2 ⟨home, found, coarser, adjacent⟩))
  · intro each other member
    obtain ⟨home, found, coarser, adjacent⟩ := (members other).1 member
    exact getD_iff.2 (each other home found coarser adjacent)

/-- The check answers, and accepts exactly the closed flags. -/
theorem checkRefineFlags_ok (fits : tree.Fits) (size : flags.size = tree.numLeaves) :
    ∃ answer, tree.checkRefineFlags flags = .ok answer ∧
      (answer = true ↔ tree.FlagsClosed flags) := by
  have listed (block : Location × Nat) : (block ∈ tree.locations.toList.zipIdx.filter fun block =>
      flags.getD block.2 false) ↔ tree.location? block.2 = some block.1 ∧
        flags[block.2]? = some true := by
    rw [List.mem_filter, mem_zipIdx_locations, getD_iff]
  obtain ⟨answer, run, accepts⟩ := Outcome.exists_allM_ok_iff fun block member =>
    coarserFlagged_ok fits ((listed block).1 member).1 flags
  refine ⟨answer, ?_, ?_⟩
  · rw [checkRefineFlags, checkFlagCount, if_pos size]
    exact run
  · rw [accepts]
    constructor
    · intro each gid loc block flagged
      exact each (loc, gid) ((listed _).2 ⟨block, flagged⟩)
    · intro closed block member
      obtain ⟨found, flagged⟩ := (listed block).1 member
      exact closed block.2 block.1 found flagged

/-- A coarser block left behind would touch a child of the flagged one, two levels finer. -/
theorem flagsClosed_of_balanced (fits : tree.Fits) (balanced : tree.Balanced)
    (size : flags.size = tree.numLeaves) (grid : next.grid = tree.grid)
    (members : ∀ loc, loc ∈ next.locations ↔
      ∃ piece ∈ tree.withFlags flags, loc ∈ refined tree.grid piece)
    (balancedNext : next.Balanced) : tree.FlagsClosed flags := by
  intro gid loc block flagged other home found coarser adjacent
  by_contra lowered
  have level := (balanced loc (mem_locations_iff.2 ⟨gid, block⟩) home
    (mem_locations_iff.2 ⟨other, found⟩) adjacent).1
  obtain ⟨child, below, touching⟩ := RootGrid.exists_child_adjacent (contains_block fits block)
    (contains_block fits found) adjacent
  have split : child ∈ next.locations :=
    (members child).2 ⟨(loc, true), mem_withFlags_iff.2 ⟨gid, block, flagged⟩, below⟩
  have whole : home ∈ next.locations := by
    have cleared := lowered_of_not_raised size found lowered
    exact (members home).2
      ⟨(home, false), mem_withFlags_iff.2 ⟨other, found, cleared⟩, List.mem_singleton_self home⟩
  rw [← grid] at touching
  have levels := (balancedNext child split home whole touching).1
  have deeper := RootGrid.level_of_mem_children below
  omega

/-- In a balanced tree the check tells whether the tree refined by the flags is balanced. -/
theorem checkRefineFlags_decides_balance (words : tree.grid.Words) (balanced : tree.Balanced)
    (size : flags.size = tree.numLeaves)
    (deeper : ∀ gid loc, tree.location? gid = some loc → flags[gid]? = some true →
      tree.grid.LevelFits (loc.level + 1)) :
    ∃ answer next starts, tree.checkRefineFlags flags = .ok answer ∧
      tree.refine flags = .ok (next, starts) ∧ next.grid = tree.grid ∧
      (answer = true ↔ next.Balanced) := by
  have fits := fits_of_words words
  obtain ⟨answer, checked, accepts⟩ := checkRefineFlags_ok fits size
  obtain ⟨next, starts, refining, grid, _, members⟩ := refine_ok fits size deeper
  refine ⟨answer, next, starts, checked, refining, grid, ?_⟩
  rw [accepts]
  constructor
  · intro closed
    exact balanced_refined balanced closed (fits_of_words (grid ▸ words)) grid members
  · intro balancedNext
    exact flagsClosed_of_balanced fits balanced size grid members balancedNext

/-- The corner of a square alone can not be split once more, since it touches the block at the other end
of the ring. Together they can. -/
theorem checkRefineFlags_decides_balance_square : ∃ tree, ofLeaves squareGrid squareLeaves = .ok tree ∧
    tree.Balanced ∧
    (∃ next starts, tree.checkRefineFlags #[true, false, false, false, false, false, false] =
        .ok false ∧
      tree.refine #[true, false, false, false, false, false, false] = .ok (next, starts) ∧
      ¬next.Balanced) ∧
    ∃ next starts, tree.checkRefineFlags #[true, false, false, false, true, false, false] =
        .ok true ∧
      tree.refine #[true, false, false, false, true, false, false] = .ok (next, starts) ∧
      next.Balanced := by
  have computed : (ofLeaves squareGrid squareLeaves).toOption.any (fun tree =>
      tree.grid = squareGrid && tree.numLeaves = 7 &&
        (tree.locations.all fun loc => 1 ≤ loc.level && loc.level ≤ 2) &&
        (tree.checkRefineFlags #[true, false, false, false, false, false, false]).toOption =
          some false &&
        (tree.checkRefineFlags #[true, false, false, false, true, false, false]).toOption =
          some true) = true := by
    decide +kernel
  obtain ⟨tree, built, computed⟩ := Outcome.exists_ok_of_any computed
  simp only [Bool.and_eq_true, decide_eq_true_eq, Array.all_eq_true_iff_forall_mem] at computed
  obtain ⟨⟨⟨⟨grid, count⟩, levels⟩, refused⟩, accepted⟩ := computed
  have words : tree.grid.Words := by
    rw [grid]
    decide
  have deepest : tree.grid.LevelFits 3 := by
    rw [grid]
    decide
  have balanced : tree.Balanced := balanced_of_levels levels
  have decides (flags : Array Bool) (size : flags.size = tree.numLeaves) :=
    checkRefineFlags_decides_balance words balanced size fun gid loc block _ =>
      deepest.mono (Nat.succ_le_succ (levels loc (mem_locations_iff.2 ⟨gid, block⟩)).2)
  obtain ⟨no, alone, startsAlone, checkedAlone, refiningAlone, _, meansAlone⟩ :=
    decides #[true, false, false, false, false, false, false] (by rw [count]; rfl)
  obtain ⟨yes, both, startsBoth, checkedBoth, refiningBoth, _, meansBoth⟩ :=
    decides #[true, false, false, false, true, false, false] (by rw [count]; rfl)
  rw [checkedAlone] at refused
  rw [checkedBoth] at accepted
  cases refused
  cases accepted
  refine ⟨tree, built, balanced, ⟨alone, startsAlone, checkedAlone, refiningAlone, ?_⟩,
    both, startsBoth, checkedBoth, refiningBoth, meansBoth.1 rfl⟩
  intro smooth
  cases meansAlone.2 smooth

end BlockTree

end AdaptiveMesh
