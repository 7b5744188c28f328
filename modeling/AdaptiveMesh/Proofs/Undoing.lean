import AdaptiveMesh.Proofs.Gathering

/-!
# Undoing

Refining and coarsening undo each other. The children that refining makes are families, flagged as a whole
when the flags are raised on the gids that the map gives them, and gathering them brings back the blocks
they came from. The parents that coarsening makes are split into the families they came from. Either way
the same leaves come back, and the leaves determine the tree, so the gids come back too.
-/

namespace AdaptiveMesh

set_option autoImplicit false

namespace BlockTree

variable {tree next : BlockTree} {gid new : Nat} {loc parent leaf : Location} {flag : Bool}
  {flags : Array Bool} {starts map : List Nat}

def flagsAt (tree : BlockTree) (gids : List Nat) : Array Bool :=
  Array.ofFn fun gid : Fin tree.numLeaves => decide (gid.val ∈ gids)

/-- The new gids of the children of the flagged blocks, where `starts` gives the new gids of the old
blocks. -/
def childGids (grid : RootGrid) (starts : List Nat) (flags : Array Bool) : List Nat :=
  (starts.zip flags.toList).flatMap fun (first, flag) =>
    if flag then List.range' first (2 ^ grid.dim) else []

/-- The new gids of the flagged blocks, where `map` gives the new gids of the old blocks. -/
def gatheredGids (map : List Nat) (flags : Array Bool) : List Nat :=
  (map.zip flags.toList).filterMap fun (new, flag) => if flag then some new else none

@[simp] theorem size_flagsAt (tree : BlockTree) (gids : List Nat) :
    (tree.flagsAt gids).size = tree.numLeaves := Array.size_ofFn

theorem getElem?_flagsAt (bound : gid < tree.numLeaves) (gids : List Nat) :
    (tree.flagsAt gids)[gid]? = some (decide (gid ∈ gids)) := by
  rw [flagsAt, Array.getElem?_ofFn, dif_pos bound]

theorem mem_zip_flags {entry : Nat × Bool} : entry ∈ starts.zip flags.toList ↔
    ∃ gid : Nat, flags[gid]? = some entry.2 ∧ starts[gid]? = some entry.1 := by
  simp only [List.mem_iff_getElem?, List.getElem?_zip_eq_some, Array.getElem?_toList, and_comm]

theorem mem_childGids {grid : RootGrid} : new ∈ childGids grid starts flags ↔
    ∃ gid first : Nat, flags[gid]? = some true ∧ starts[gid]? = some first ∧
      first ≤ new ∧ new < first + 2 ^ grid.dim := by
  rw [childGids, List.mem_flatMap]
  constructor
  · intro found
    obtain ⟨⟨first, flag⟩, listed, inside⟩ := found
    obtain ⟨gid, flagged, started⟩ := mem_zip_flags.1 listed
    cases flag with
    | false => cases inside
    | true => exact ⟨gid, first, flagged, started, List.mem_range'_1.1 inside⟩
  · intro found
    obtain ⟨gid, first, flagged, started, bounds⟩ := found
    exact ⟨(first, true), mem_zip_flags.2 ⟨gid, flagged, started⟩, List.mem_range'_1.2 bounds⟩

theorem mem_gatheredGids : new ∈ gatheredGids map flags ↔
    ∃ gid : Nat, flags[gid]? = some true ∧ map[gid]? = some new := by
  rw [gatheredGids, List.mem_filterMap]
  constructor
  · intro found
    obtain ⟨⟨other, flag⟩, listed, picked⟩ := found
    cases flag with
    | false => cases picked
    | true =>
        cases picked
        exact mem_zip_flags.1 listed
  · intro found
    exact ⟨(new, true), mem_zip_flags.2 found, rfl⟩

theorem members_of_coarsen (fits : tree.Fits) (coarsening : tree.coarsen flags = .ok (next, map)) :
    next.grid = tree.grid ∧ next.Fits ∧ ∀ loc, loc ∈ next.locations ↔
      (loc, false) ∈ tree.withFlags flags ∨ tree.FlaggedFamily flags loc := by
  obtain ⟨size, pieces, run, _, _⟩ := coarsen_ok_iff.1 coarsening
  obtain ⟨_, again, grid, fitsNext, _, members⟩ := coarsen_ok fits size run
  cases coarsening.symm.trans again
  exact ⟨grid, fitsNext, fun loc => (members loc).trans (mem_merged_iff size run)⟩

theorem mem_locations_iff_flag (size : flags.size = tree.numLeaves) : loc ∈ tree.locations ↔
    (loc, false) ∈ tree.withFlags flags ∨ (loc, true) ∈ tree.withFlags flags := by
  rw [← Array.mem_toList_iff, ← map_fst_withFlags size, List.mem_map]
  constructor
  · intro found
    obtain ⟨⟨place, flag⟩, listed, rfl⟩ := found
    cases flag with
    | false => exact .inl listed
    | true => exact .inr listed
  · intro found
    cases found with
    | inl lowered => exact ⟨_, lowered, rfl⟩
    | inr raised => exact ⟨_, raised, rfl⟩

section

variable (fits : tree.Fits)
  (deeper : ∀ gid loc, tree.location? gid = some loc → flags[gid]? = some true →
    tree.grid.LevelFits (loc.level + 1))
  (refining : tree.refine flags = .ok (next, starts))

include fits deeper refining

theorem getElem?_flagsAt_children {first : Nat} (flagged : flags[gid]? = some flag)
    (started : starts[gid]? = some first) (lower : first ≤ new)
    (upper : new < first + widthOf tree.grid flag) (bound : new < next.numLeaves) :
    (next.flagsAt (childGids tree.grid starts flags))[new]? = some flag := by
  rw [getElem?_flagsAt bound, Option.some.injEq]
  cases flag with
  | true => exact decide_eq_true (mem_childGids.2 ⟨gid, first, flagged, started, lower, upper⟩)
  | false =>
      apply decide_eq_false
      intro child
      obtain ⟨other, later, raised, startedOther, bounds⟩ := mem_childGids.1 child
      have same := ((renumbers_of_refine fits deeper refining).origin new bound).unique
        ⟨false, first, flagged, started, lower, upper⟩ ⟨true, later, raised, startedOther, bounds⟩
      rw [same, raised] at flagged
      cases flagged

theorem mem_withFlags_children :
    (leaf, flag) ∈ next.withFlags (next.flagsAt (childGids tree.grid starts flags)) ↔
      ∃ loc, (loc, flag) ∈ tree.withFlags flags ∧ leaf ∈ refined tree.grid (loc, flag) := by
  have renumbers := renumbers_of_refine fits deeper refining
  obtain ⟨size, _, _⟩ := refine_ok_iff.1 refining
  have width (loc : Location) (flag : Bool) :
      (refined tree.grid (loc, flag)).length = widthOf tree.grid flag := by
    rw [length_refined, RootGrid.numChildren_eq, widthOf]
  rw [mem_withFlags_iff]
  constructor
  · intro found
    obtain ⟨new, named, mark⟩ := found
    have bound := location?_lt named
    obtain ⟨gid, ⟨origin, first, flagged, started, lower, upper⟩, _⟩ := renumbers.origin new bound
    rw [getElem?_flagsAt_children fits deeper refining flagged started lower upper bound] at mark
    cases mark
    have inside : gid < tree.locations.size := by
      have counted := (Array.getElem?_eq_some_iff.1 flagged).1
      rwa [size] at counted
    obtain ⟨loc, block⟩ := exists_location? inside
    have part := location?_of_refine fits deeper refining block flagged started (k := new - first)
      (by rw [width]; omega)
    rw [Nat.add_sub_cancel' lower, named] at part
    exact ⟨loc, mem_withFlags_iff.2 ⟨gid, block, flagged⟩, List.mem_of_getElem? part.symm⟩
  · intro found
    obtain ⟨loc, listed, below⟩ := found
    obtain ⟨gid, block, flagged⟩ := mem_withFlags_iff.1 listed
    obtain ⟨k, within, same⟩ := List.getElem_of_mem below
    have counted : gid < starts.length := by
      rw [renumbers.length]
      exact location?_lt block
    have started := List.getElem?_eq_getElem counted
    have named := location?_of_refine fits deeper refining block flagged started within
    rw [List.getElem?_eq_getElem within, same] at named
    refine ⟨_, named, ?_⟩
    rw [width] at within
    exact getElem?_flagsAt_children fits deeper refining flagged started (Nat.le_add_right _ _)
      (Nat.add_lt_add_left within _) (location?_lt named)

/-- The families flagged for the way back are those of the flagged blocks. -/
theorem flaggedFamily_children_iff :
    next.FlaggedFamily (next.flagsAt (childGids tree.grid starts flags)) loc ↔
      (loc, true) ∈ tree.withFlags flags := by
  have members {leaf : Location} {flag : Bool} :
      (leaf, flag) ∈ next.withFlags (next.flagsAt (childGids tree.grid starts flags)) ↔
        ∃ loc, (loc, flag) ∈ tree.withFlags flags ∧ leaf ∈ refined tree.grid (loc, flag) :=
    mem_withFlags_children fits deeper refining
  obtain ⟨_, built, _⟩ := refine_ok_iff.1 refining
  have grid : next.grid = tree.grid := (ofLeaves_spec built).1
  constructor
  · intro family
    obtain ⟨o, child⟩ := next.grid.exists_child loc
    obtain ⟨source, listed, below⟩ := members.1 (family.flagged _ child)
    rw [grid] at child
    rwa [RootGrid.eq_of_mem_children child below]
  · intro listed
    obtain ⟨gid, block, _⟩ := mem_withFlags_iff.1 listed
    have flagged (member : Location) (below : member ∈ next.grid.children loc) :
        (member, true) ∈ next.withFlags (next.flagsAt (childGids tree.grid starts flags)) := by
      rw [grid] at below
      exact members.2 ⟨loc, listed, below⟩
    refine ⟨⟨?_, fun member below => ?_⟩, flagged⟩
    · rw [grid]
      exact rootLevel_le_level block
    · obtain ⟨new, named, _⟩ := mem_withFlags_iff.1 (flagged member below)
      exact mem_locations_iff.2 ⟨new, named⟩

/-- Coarsening takes refining back. -/
theorem coarsen_of_refine : ∃ map,
    next.coarsen (next.flagsAt (childGids tree.grid starts flags)) = .ok (tree, map) := by
  obtain ⟨size, built, _⟩ := refine_ok_iff.1 refining
  have grid : next.grid = tree.grid := (ofLeaves_spec built).1
  have fitsNext : next.Fits :=
    (perm_of_ofLeaves (levelFits_of_mem_refined fits deeper) built).2.2
  cases coarsen_ok_or_stray fitsNext (next.size_flagsAt (childGids tree.grid starts flags)) with
  | inr stray =>
      obtain ⟨_, leaf, stray, _⟩ := stray
      obtain ⟨loc, listed, below⟩ :=
        (mem_withFlags_children fits deeper refining).1 stray.strays.flagged
      have family := (flaggedFamily_children_iff fits deeper refining).2 listed
      rw [refined, if_pos rfl, ← grid] at below
      exact absurd below (stray.strays.alone loc family)
  | inl accepted =>
      obtain ⟨again, map, coarsening⟩ := accepted
      obtain ⟨gridAgain, _, members⟩ := members_of_coarsen fitsNext coarsening
      have same : again = tree := by
        apply eq_of_locations (gridAgain.trans grid)
        intro loc
        rw [members, mem_withFlags_children fits deeper refining,
          flaggedFamily_children_iff fits deeper refining, mem_locations_iff_flag size]
        apply or_congr_left
        simp only [refined, Bool.false_eq_true, if_false, List.mem_singleton, exists_eq_right']
      exact ⟨map, by rw [coarsening, same]⟩

end

section

variable (fits : tree.Fits) (coarsening : tree.coarsen flags = .ok (next, map))

include fits coarsening

theorem getElem?_flagsAt_gathered (block : tree.location? gid = some loc)
    (flagged : flags[gid]? = some flag) (mapped : map[gid]? = some new) :
    (next.flagsAt (gatheredGids map flags))[new]? = some flag := by
  have gathers := gathers_of_coarsen fits coarsening
  have bound := (gathers.onto new).1 (List.mem_of_getElem? mapped)
  rw [getElem?_flagsAt bound, Option.some.injEq]
  cases flag with
  | true => exact decide_eq_true (mem_gatheredGids.2 ⟨gid, flagged, mapped⟩)
  | false =>
      apply decide_eq_false
      intro gathered
      obtain ⟨other, raised, mappedOther⟩ := mem_gatheredGids.1 gathered
      rw [((gathers.kept gid loc new block flagged mapped).2 other).1 mappedOther, flagged] at raised
      cases raised

theorem mem_withFlags_gathered :
    (loc, flag) ∈ next.withFlags (next.flagsAt (gatheredGids map flags)) ↔
      if flag then tree.FlaggedFamily flags loc else (loc, false) ∈ tree.withFlags flags := by
  have gathers := gathers_of_coarsen fits coarsening
  have size := (coarsen_ok_iff.1 coarsening).1
  have exists_new {gid : Nat} {place : Location} (block : tree.location? gid = some place) :
      ∃ new, map[gid]? = some new := by
    have bound : gid < map.length := by
      rw [gathers.length]
      exact location?_lt block
    exact ⟨_, List.getElem?_eq_getElem bound⟩
  rw [mem_withFlags_iff]
  constructor
  · intro found
    obtain ⟨new, named, mark⟩ := found
    obtain ⟨gid, mapped⟩ := List.mem_iff_getElem?.1 ((gathers.onto new).2 (location?_lt named))
    have bound : gid < tree.locations.size := by
      have counted := (List.getElem?_eq_some_iff.1 mapped).1
      rwa [gathers.length] at counted
    obtain ⟨home, block⟩ := exists_location? bound
    have inside : gid < flags.size := by
      rw [size]
      exact bound
    have flagged := Array.getElem?_eq_getElem inside
    rw [getElem?_flagsAt_gathered fits coarsening block flagged mapped] at mark
    cases flag with
    | false =>
        have lowered := flagged.trans mark
        have kept := (gathers.kept gid home new block lowered mapped).1
        cases named.symm.trans kept
        exact mem_withFlags_iff.2 ⟨gid, block, lowered⟩
    | true =>
        obtain ⟨parent, _, _, family, merged, _⟩ :=
          gathers.merged gid home new block (flagged.trans mark) mapped
        cases named.symm.trans merged
        exact family
  · intro kind
    cases flag with
    | false =>
        obtain ⟨gid, block, lowered⟩ := mem_withFlags_iff.1 kind
        obtain ⟨new, mapped⟩ := exists_new block
        exact ⟨new, (gathers.kept gid loc new block lowered mapped).1,
          getElem?_flagsAt_gathered fits coarsening block lowered mapped⟩
    | true =>
        have family : tree.FlaggedFamily flags loc := kind
        obtain ⟨o, child⟩ := tree.grid.exists_child loc
        obtain ⟨gid, block, raised⟩ := mem_withFlags_iff.1 (family.flagged _ child)
        obtain ⟨new, mapped⟩ := exists_new block
        obtain ⟨parent, _, above, _, merged, _⟩ := gathers.merged gid _ new block raised mapped
        rw [Location.parent?_child] at above
        cases above
        exact ⟨new, merged, getElem?_flagsAt_gathered fits coarsening block raised mapped⟩

/-- Refining takes coarsening back. -/
theorem refine_of_coarsen : ∃ starts,
    next.refine (next.flagsAt (gatheredGids map flags)) = .ok (tree, starts) := by
  have size := (coarsen_ok_iff.1 coarsening).1
  obtain ⟨grid, fitsNext, _⟩ := members_of_coarsen fits coarsening
  have deeper (new : Nat) (loc : Location) (named : next.location? new = some loc)
      (raised : (next.flagsAt (gatheredGids map flags))[new]? = some true) :
      next.grid.LevelFits (loc.level + 1) := by
    have family : tree.FlaggedFamily flags loc :=
      (mem_withFlags_gathered fits coarsening).1 (mem_withFlags_iff.2 ⟨new, named, raised⟩)
    obtain ⟨o, child⟩ := tree.grid.exists_child loc
    rw [grid]
    exact fits _ (family.members _ child)
  obtain ⟨again, starts, refining, gridAgain, _, members⟩ :=
    refine_ok fitsNext (next.size_flagsAt _) deeper
  have same : again = tree := by
    apply eq_of_locations (gridAgain.trans grid)
    intro leaf
    rw [members, mem_locations_iff_flag size, grid]
    constructor
    · intro found
      obtain ⟨⟨loc, flag⟩, listed, below⟩ := found
      have kind := (mem_withFlags_gathered fits coarsening).1 listed
      cases flag with
      | false =>
          rw [List.mem_singleton.1 below]
          exact .inl kind
      | true =>
          have family : tree.FlaggedFamily flags loc := kind
          exact .inr (family.flagged leaf below)
    · intro kind
      cases kind with
      | inl lowered =>
          exact ⟨(leaf, false), (mem_withFlags_gathered fits coarsening).2 lowered,
            List.mem_singleton_self leaf⟩
      | inr raised =>
          have gathered : ∃ parent, tree.FlaggedFamily flags parent ∧
              leaf ∈ tree.grid.children parent := by
            by_contra outside
            exact not_strays_of_coarsen coarsening
              ⟨raised, fun parent family below => outside ⟨parent, family, below⟩⟩
          obtain ⟨parent, family, below⟩ := gathered
          exact ⟨(parent, true), (mem_withFlags_gathered fits coarsening).2 family, below⟩
  exact ⟨starts, by rw [refining, same]⟩

end

/-- Refining by any flags is undone by coarsening on the children's gids, as long as the children can be
represented. Coarsening, where it succeeds, is undone by refining on the parents' gids. -/
theorem refine_coarsen_undo (words : tree.grid.Words) (size : flags.size = tree.numLeaves) :
    ((∀ gid loc, tree.location? gid = some loc → flags[gid]? = some true →
        tree.grid.LevelFits (loc.level + 1)) →
      ∃ next starts map, tree.refine flags = .ok (next, starts) ∧
        next.coarsen (next.flagsAt (childGids tree.grid starts flags)) = .ok (tree, map)) ∧
    ∀ next map, tree.coarsen flags = .ok (next, map) →
      ∃ starts, next.refine (next.flagsAt (gatheredGids map flags)) = .ok (tree, starts) := by
  have fits := fits_of_words words
  constructor
  · intro deeper
    obtain ⟨next, starts, refining, _⟩ := refine_ok fits size deeper
    obtain ⟨map, coarsening⟩ := coarsen_of_refine fits deeper refining
    exact ⟨next, starts, map, refining, coarsening⟩
  · intro next map coarsening
    exact refine_of_coarsen fits coarsening

/-- Two blocks are split, one of them beside its siblings, and gathered again; the siblings are gathered
and split again. -/
theorem refine_coarsen_undo_oblong : ∃ tree next merged map, ofLeaves oblongGrid oblongLeaves = .ok tree ∧
    tree.refine #[false, false, true, false, false, false, false, true, false] =
      .ok (next, [0, 1, 2, 6, 7, 8, 9, 10, 14]) ∧
    next.coarsen (next.flagsAt [2, 3, 4, 5, 10, 11, 12, 13]) = .ok (tree, map) ∧
    tree.coarsen #[true, true, true, true, false, false, false, false, false] =
      .ok (merged, [0, 0, 0, 0, 1, 2, 3, 4, 5]) ∧
    ∃ starts, merged.refine (merged.flagsAt [0, 0, 0, 0]) = .ok (tree, starts) := by
  have computed : (ofLeaves oblongGrid oblongLeaves).toOption.any (fun tree =>
      tree.grid = oblongGrid && tree.numLeaves = 9 &&
        tree.locations.toList.all (fun loc => decide (tree.grid.LevelFits (loc.level + 1))) &&
        (tree.refine #[false, false, true, false, false, false, false, true, false]).toOption.any
          (fun made => made.2 = [0, 1, 2, 6, 7, 8, 9, 10, 14]) &&
        (tree.coarsen #[true, true, true, true, false, false, false, false, false]).toOption.any
          (fun made => made.2 = [0, 0, 0, 0, 1, 2, 3, 4, 5])) = true := by
    decide +kernel
  obtain ⟨tree, built, computed⟩ := Outcome.exists_ok_of_any computed
  simp only [Bool.and_eq_true, decide_eq_true_eq, List.all_eq_true] at computed
  obtain ⟨⟨⟨⟨grid, count⟩, deeper⟩, splitting⟩, gathering⟩ := computed
  obtain ⟨⟨next, starts⟩, refining, shown⟩ := Outcome.exists_ok_of_any splitting
  cases of_decide_eq_true shown
  obtain ⟨⟨merged, _⟩, coarsening, shown⟩ := Outcome.exists_ok_of_any gathering
  cases of_decide_eq_true shown
  have words : tree.grid.Words := by
    rw [grid]
    decide
  obtain ⟨refined, _⟩ := refine_coarsen_undo words
    (by rw [count]; rfl : #[false, false, true, false, false, false, false, true, false].size = _)
  obtain ⟨_, _, map, again, undone⟩ := refined fun gid loc block _ =>
    deeper loc (Array.mem_toList_iff.2 (mem_locations_iff.2 ⟨gid, block⟩))
  cases refining.symm.trans again
  have children : childGids tree.grid [0, 1, 2, 6, 7, 8, 9, 10, 14]
      #[false, false, true, false, false, false, false, true, false] =
        [2, 3, 4, 5, 10, 11, 12, 13] := by
    rw [grid]
    decide
  rw [children] at undone
  obtain ⟨_, merges⟩ := refine_coarsen_undo words
    (by rw [count]; rfl : #[true, true, true, true, false, false, false, false, false].size = _)
  exact ⟨tree, next, merged, map, built, refining, undone, coarsening, merges merged _ coarsening⟩

end BlockTree

end AdaptiveMesh
