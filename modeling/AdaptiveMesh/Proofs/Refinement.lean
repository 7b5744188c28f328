import AdaptiveMesh.Proofs.Balance
import AdaptiveMesh.Proofs.Tiling

/-!
# Refinement

The sweep over the blocks from the finest level to the coarsest raises flags of coarser blocks only,
so what it has done for a block stays done: at the end every coarser block that touches a flagged one
is flagged too. Refining by such flags keeps a balanced tree balanced.
-/

namespace AdaptiveMesh

set_option autoImplicit false

namespace RootGrid

variable {grid : RootGrid} {a b outerA outerB : Location}

theorem adjacent_of_contains (fits : grid.LevelFits b.level) (fine : grid.rootLevel ≤ outerB.level)
    (aroundA : outerA.contains a = true) (aroundB : outerB.contains b = true)
    (adjacent : grid.Adjacent a b) : grid.Adjacent outerA outerB := by
  obtain ⟨turns, winds, touch⟩ := adjacent
  refine ⟨turns, winds, Location.touches_of_contains aroundA ?_⟩
  apply Location.touches_comm.1
  apply Location.touches_of_contains _ (Location.touches_comm.1 touch)
  rw [contains_image_iff winds fits fine]
  exact aroundB

end RootGrid

namespace BlockTree

variable {tree : BlockTree} {gid other : Nat} {loc home : Location} {flags result : Array Bool}

theorem mem_zipIdx_locations {block : Location × Nat} :
    block ∈ tree.locations.toList.zipIdx ↔ tree.location? block.2 = some block.1 := by
  rw [List.mem_zipIdx_iff_getElem?, location?, Array.getElem?_toList]

theorem getD_iff : flags.getD gid false = true ↔ flags[gid]? = some true := by
  rw [Array.getD_eq_getD_getElem?]
  cases flags[gid]? <;> simp

theorem size_raiseFlags (flags : Array Bool) (gids : List Nat) :
    (raiseFlags flags gids).size = flags.size := by
  induction gids generalizing flags with
  | nil => rfl
  | cons first rest ih =>
      rw [raiseFlags, List.foldl_cons]
      exact (ih _).trans (Array.size_setIfInBounds ..)

theorem raiseFlags_iff (flags : Array Bool) (gids : List Nat) (gid : Nat) :
    (raiseFlags flags gids)[gid]? = some true ↔
      flags[gid]? = some true ∨ (gid ∈ gids ∧ gid < flags.size) := by
  induction gids generalizing flags with
  | nil => simp [raiseFlags]
  | cons first rest ih =>
      have later := ih (flags.setIfInBounds first true)
      rw [raiseFlags] at later ⊢
      rw [List.foldl_cons, later, Array.getElem?_setIfInBounds, Array.size_setIfInBounds,
        List.mem_cons]
      by_cases same : first = gid
      · subst same
        by_cases bound : first < flags.size
        · simp [bound]
        · simp [bound]
      · rw [if_neg same]
        have other : gid ≠ first := Ne.symm same
        simp [other]

theorem flagCoarser_ok (fits : tree.Fits) (block : tree.location? gid = some loc)
    (flags : Array Bool) :
    ∃ next, tree.flagCoarser flags (loc, gid) = .ok next ∧ next.size = flags.size ∧
      ∀ other, next[other]? = some true ↔ flags[other]? = some true ∨
        (flags[gid]? = some true ∧ other < flags.size ∧ ∃ home, tree.location? other = some home ∧
          home.level < loc.level ∧ tree.grid.Adjacent loc home) := by
  unfold flagCoarser
  split
  · rename_i raised
    have here := getD_iff.1 raised
    obtain ⟨gids, run, members⟩ := coarseNeighbors_ok fits block
    refine ⟨raiseFlags flags gids, by rw [run]; rfl, size_raiseFlags flags gids, fun other => ?_⟩
    rw [raiseFlags_iff, members, and_iff_right here, and_comm]
  · rename_i lowered
    refine ⟨flags, rfl, rfl, fun other => ?_⟩
    simp [mt getD_iff.2 lowered]

/-- What a sweep over some blocks does to the flags. -/
structure Swept (tree : BlockTree) (blocks : List (Location × Nat)) (flags result : Array Bool) :
    Prop where
  size : result.size = flags.size
  kept : ∀ gid : Nat, flags[gid]? = some true → result[gid]? = some true
  /-- Only blocks coarser than some block of the sweep are raised. -/
  raised : ∀ gid loc, tree.location? gid = some loc → result[gid]? = some true →
    flags[gid]? = some true ∨ ∃ block ∈ blocks, loc.level < block.1.level
  /-- No block finer than all that were asked for is raised. -/
  origin : ∀ gid loc, tree.location? gid = some loc → result[gid]? = some true →
    ∃ other home, tree.location? other = some home ∧ flags[other]? = some true ∧
      loc.level ≤ home.level
  closed : ∀ block ∈ blocks, result[block.2]? = some true → ∀ other home,
    tree.location? other = some home → home.level < block.1.level →
      tree.grid.Adjacent block.1 home → result[other]? = some true

/-- One more block in front of a sweep. What the later steps raise is coarser than the block, so they
find and leave its own flag as this step does. -/
theorem Swept.cons {first : Location × Nat} {rest : List (Location × Nat)} {next : Array Bool}
    (block : tree.location? first.2 = some first.1)
    (finest : ∀ later ∈ rest, later.1.level ≤ first.1.level) (size : flags.size = tree.numLeaves)
    (sizeNext : next.size = flags.size)
    (step : ∀ other : Nat, next[other]? = some true ↔ flags[other]? = some true ∨
      (flags[first.2]? = some true ∧ other < flags.size ∧ ∃ home,
        tree.location? other = some home ∧ home.level < first.1.level ∧
        tree.grid.Adjacent first.1 home))
    (swept : tree.Swept rest next result) : tree.Swept (first :: rest) flags result where
  size := swept.size.trans sizeNext
  kept := fun gid flagged => swept.kept gid ((step gid).2 (.inl flagged))
  raised := by
    intro gid loc found flagged
    rcases swept.raised gid loc found flagged with before | ⟨later, member, coarser⟩
    · rcases (step gid).1 before with asked | ⟨_, _, home, again, coarser, _⟩
      · exact .inl asked
      · cases found.symm.trans again
        exact .inr ⟨first, List.mem_cons_self, coarser⟩
    · exact .inr ⟨later, List.mem_cons_of_mem first member, coarser⟩
  origin := by
    intro gid loc found flagged
    obtain ⟨other, home, foundHome, before, coarser⟩ := swept.origin gid loc found flagged
    rcases (step other).1 before with asked | ⟨asked, _, place, again, below, _⟩
    · exact ⟨other, home, foundHome, asked, coarser⟩
    · cases foundHome.symm.trans again
      exact ⟨first.2, first.1, block, asked, by omega⟩
  closed := by
    intro later member flagged other home found coarser adjacent
    rcases List.mem_cons.1 member with rfl | inside
    · apply swept.kept
      have before : next[later.2]? = some true := by
        -- what the rest of the sweep raises is coarser than one of its blocks, hence than this one
        rcases swept.raised later.2 later.1 block flagged with before | ⟨third, inside, below⟩
        · exact before
        · have above := finest third inside
          omega
      have asked : flags[later.2]? = some true := by
        rcases (step later.2).1 before with asked | ⟨_, _, place, again, below, _⟩
        · exact asked
        · cases block.symm.trans again
          exact absurd below (lt_irrefl _)
      have bound := location?_lt found
      exact (step other).2 (.inr ⟨asked, by omega, home, found, coarser, adjacent⟩)
    · exact swept.closed later inside flagged other home found coarser adjacent

theorem sweep_ok (fits : tree.Fits) {blocks : List (Location × Nat)}
    (each : ∀ block ∈ blocks, tree.location? block.2 = some block.1)
    (descending : blocks.Pairwise fun a b => b.1.level ≤ a.1.level) (flags : Array Bool)
    (size : flags.size = tree.numLeaves) :
    ∃ result, blocks.foldlM tree.flagCoarser flags = .ok result ∧
      tree.Swept blocks flags result := by
  induction blocks generalizing flags with
  | nil =>
      refine ⟨flags, rfl, rfl, fun _ => id, fun _ _ _ => .inl, ?_, by simp⟩
      intro gid loc block flagged
      exact ⟨gid, loc, block, flagged, le_rfl⟩
  | cons first rest ih =>
      obtain ⟨finest, others⟩ := List.pairwise_cons.1 descending
      have block := each first List.mem_cons_self
      obtain ⟨next, run, sizeNext, step⟩ := flagCoarser_ok fits block flags
      obtain ⟨result, later, swept⟩ :=
        ih (fun other member => each other (List.mem_cons_of_mem first member)) others next
          (sizeNext.trans size)
      refine ⟨result, ?_, swept.cons block finest size sizeNext step⟩
      rw [List.foldlM_cons, run]
      exact later

theorem level_le_maxLevel (block : tree.location? gid = some loc) : loc.level ≤ tree.maxLevel := by
  have general (locs : List Location) (start : Nat) :
      start ≤ locs.foldl (fun finest loc => max finest loc.level) start ∧
        ∀ loc ∈ locs, loc.level ≤ locs.foldl (fun finest loc => max finest loc.level) start := by
    induction locs generalizing start with
    | nil => simp
    | cons first rest ih =>
        obtain ⟨above, each⟩ := ih (max start first.level)
        rw [List.foldl_cons]
        refine ⟨(le_max_left _ _).trans above, fun loc member => ?_⟩
        rcases List.mem_cons.1 member with rfl | later
        · exact (le_max_right _ _).trans above
        · exact each loc later
  rw [maxLevel, ← Array.foldl_toList]
  exact (general _ 0).2 loc (Array.mem_toList_iff.2 (mem_locations_iff.2 ⟨gid, block⟩))

theorem mem_sweep_iff {block : Location × Nat} :
    block ∈ tree.levelsFinestFirst.flatMap tree.blocksAt ↔
      tree.location? block.2 = some block.1 := by
  simp only [List.mem_flatMap, levelsFinestFirst, List.mem_reverse, List.mem_range, blocksAt,
    List.mem_filter, decide_eq_true_eq, mem_zipIdx_locations]
  constructor
  · rintro ⟨_, _, found, _⟩
    exact found
  · intro found
    exact ⟨block.1.level, Nat.lt_succ_of_le (level_le_maxLevel found), found, rfl⟩

theorem sweep_descending (tree : BlockTree) :
    (tree.levelsFinestFirst.flatMap tree.blocksAt).Pairwise fun a b => b.1.level ≤ a.1.level := by
  have level {block : Location × Nat} {level : Nat} (member : block ∈ tree.blocksAt level) :
      block.1.level = level := by
    simpa using (List.mem_filter.1 member).2
  rw [List.pairwise_flatMap]
  constructor
  · intro finest _
    rw [List.pairwise_iff_forall_sublist]
    intro a b both
    have levelA := level (both.subset (List.mem_cons_self))
    have levelB := level (both.subset (List.mem_cons_of_mem a List.mem_cons_self))
    omega
  · rw [levelsFinestFirst, List.pairwise_reverse]
    refine List.pairwise_lt_range.imp fun {low high} less a memberA b memberB => ?_
    have levelA := level memberA
    have levelB := level memberB
    omega

/-- Whether the coarser blocks that touch flagged ones are flagged. -/
def FlagsClosed (tree : BlockTree) (flags : Array Bool) : Prop :=
  ∀ gid loc, tree.location? gid = some loc → flags[gid]? = some true → ∀ other home,
    tree.location? other = some home → home.level < loc.level → tree.grid.Adjacent loc home →
      flags[other]? = some true

/-- The sweep over all blocks closes the flags. -/
theorem balanceRefineFlags_ok (fits : tree.Fits) (size : flags.size = tree.numLeaves) :
    ∃ result, tree.balanceRefineFlags flags = .ok result ∧ result.size = tree.numLeaves ∧
      tree.FlagsClosed result ∧ (∀ gid : Nat, flags[gid]? = some true → result[gid]? = some true) ∧
      ∀ gid loc, tree.location? gid = some loc → result[gid]? = some true →
        ∃ other home, tree.location? other = some home ∧ flags[other]? = some true ∧
          loc.level ≤ home.level := by
  obtain ⟨result, run, swept⟩ := sweep_ok fits (fun _ => mem_sweep_iff.1) tree.sweep_descending
    flags size
  refine ⟨result, ?_, swept.size.trans size, ?_, swept.kept, swept.origin⟩
  · rw [balanceRefineFlags, checkFlagCount, if_pos size]
    exact run
  · intro gid loc block flagged
    exact swept.closed (loc, gid) (mem_sweep_iff.2 block) flagged

theorem mem_withFlags_iff {flag : Bool} : (loc, flag) ∈ tree.withFlags flags ↔
    ∃ gid, tree.location? gid = some loc ∧ flags[gid]? = some flag := by
  rw [withFlags, List.mem_iff_getElem?]
  simp only [List.getElem?_zip_eq_some, Array.getElem?_toList, location?]

theorem map_fst_withFlags (size : flags.size = tree.numLeaves) :
    (tree.withFlags flags).map Prod.fst = tree.locations.toList := by
  rw [withFlags, List.map_fst_zip]
  rw [Array.length_toList, Array.length_toList, size]
  exact le_rfl

theorem checkFlagCount_ok_iff {done : Unit} :
    tree.checkFlagCount flags = .ok done ↔ flags.size = tree.numLeaves := by
  unfold checkFlagCount
  split <;> simp_all

theorem completed_of_balanceRefineFlags (fits : tree.Fits)
    (raising : tree.balanceRefineFlags flags = .ok result) :
    flags.size = tree.numLeaves ∧ result.size = tree.numLeaves ∧ tree.FlagsClosed result ∧
      ∀ gid : Nat, flags[gid]? = some true → result[gid]? = some true := by
  obtain ⟨_, checked, _⟩ := Outcome.bind_ok_iff.1 raising
  have size := checkFlagCount_ok_iff.1 checked
  obtain ⟨again, raisingAgain, sizeResult, closed, kept, _⟩ := balanceRefineFlags_ok fits size
  cases raising.symm.trans raisingAgain
  exact ⟨size, sizeResult, closed, kept⟩

theorem refine_ok_iff {next : BlockTree} {starts : List Nat} :
    tree.refine flags = .ok (next, starts) ↔ flags.size = tree.numLeaves ∧
      ofLeaves tree.grid ((tree.withFlags flags).flatMap (refined tree.grid)) = .ok next ∧
      starts = startsOf 0 ((tree.withFlags flags).map fun piece =>
        (refined tree.grid piece).length) := by
  simp only [refine, Outcome.bind_ok_iff, checkFlagCount_ok_iff, Outcome.pure_ok_iff,
    ← List.flatMap_def, List.map_map, Prod.mk.injEq]
  constructor
  · rintro ⟨_, size, tree, built, rfl, rfl⟩
    exact ⟨size, built, rfl⟩
  · rintro ⟨size, built, rfl⟩
    exact ⟨(), size, next, built, rfl, rfl⟩

theorem length_refined (grid : RootGrid) (loc : Location) (flag : Bool) :
    (refined grid (loc, flag)).length = if flag then grid.numChildren else 1 := by
  cases flag with
  | true => exact RootGrid.length_children grid loc
  | false => rfl

theorem map_zip_flags {β γ : Type} {members : List β} {flags : List Bool}
    (same : members.length = flags.length) {f : β × Bool → γ} {g : Bool → γ}
    (only : ∀ member flag, f (member, flag) = g flag) :
    (members.zip flags).map f = flags.map g := by
  have seconds : (members.zip flags).map f = ((members.zip flags).map Prod.snd).map g := by
    rw [List.map_map]
    apply List.map_congr_left
    rintro ⟨member, flag⟩ _
    exact only member flag
  rw [seconds, List.map_snd_zip (Nat.le_of_eq same.symm)]

theorem lengths_refined (size : flags.size = tree.numLeaves) :
    (tree.withFlags flags).map (fun piece => (refined tree.grid piece).length) =
      flags.toList.map fun flag => if flag then tree.grid.numChildren else 1 := by
  apply map_zip_flags
  · rw [Array.length_toList, Array.length_toList, size]
    rfl
  · exact length_refined tree.grid

theorem startsOf_bound {start first width index : Nat} {lengths : List Nat}
    (found : (startsOf start lengths)[index]? = some first) (wide : lengths[index]? = some width) :
    first + width ≤ start + lengths.sum := by
  induction lengths generalizing start index with
  | nil => cases wide
  | cons length rest ih =>
      rw [List.sum_cons]
      cases index with
      | zero =>
          cases found
          cases wide
          omega
      | succ index =>
          have later := ih (by simpa [startsOf] using found) (by simpa using wide)
          omega

theorem length_startsOf (start : Nat) (lengths : List Nat) :
    (startsOf start lengths).length = lengths.length := by
  induction lengths generalizing start with
  | nil => rfl
  | cons length rest ih => rw [startsOf, List.length_cons, List.length_cons, ih]

theorem refine_ok (fits : tree.Fits) (size : flags.size = tree.numLeaves)
    (deeper : ∀ gid loc, tree.location? gid = some loc → flags[gid]? = some true →
      tree.grid.LevelFits (loc.level + 1)) :
    ∃ next starts, tree.refine flags = .ok (next, starts) ∧ next.grid = tree.grid ∧
      next.numLeaves = ((tree.withFlags flags).flatMap (refined tree.grid)).length ∧
      ∀ loc, loc ∈ next.locations ↔
        ∃ piece ∈ tree.withFlags flags, loc ∈ refined tree.grid piece := by
  have fine (piece : Location × Bool) (member : piece ∈ tree.withFlags flags) :
      tree.grid.rootLevel ≤ piece.1.level := by
    obtain ⟨gid, block, _⟩ := mem_withFlags_iff.1 member
    exact rootLevel_le_level block
  have fitsNext (piece : Location × Bool) (member : piece ∈ tree.withFlags flags) (leaf : Location)
      (below : leaf ∈ refined tree.grid piece) : tree.grid.LevelFits leaf.level := by
    obtain ⟨gid, block, flagged⟩ := mem_withFlags_iff.1 member
    unfold refined at below
    split at below
    · rename_i raised
      rw [RootGrid.level_of_mem_children below]
      exact deeper gid piece.1 block (raised ▸ flagged)
    · rw [List.mem_singleton.1 below]
      exact fits.level block
  have tiles : tree.grid.Tiles ((tree.withFlags flags).flatMap (refined tree.grid)) := by
    rw [tiles_refined_iff fine fitsNext, map_fst_withFlags size]
    exact tiles_locations fits
  have fitsAll (leaf : Location)
      (member : leaf ∈ (tree.withFlags flags).flatMap (refined tree.grid)) :
      tree.grid.LevelFits leaf.level := by
    obtain ⟨piece, listed, below⟩ := List.mem_flatMap.1 member
    exact fitsNext piece listed leaf below
  obtain ⟨next, built, grid, count, members⟩ := ofLeaves_of_tiles tiles fitsAll
  refine ⟨next, _, refine_ok_iff.2 ⟨size, built, rfl⟩, grid, count, fun loc => ?_⟩
  rw [members, List.mem_flatMap]

theorem levelFits_of_refine {next : BlockTree} {starts : List Nat} (words : tree.grid.Words)
    (refining : tree.refine flags = .ok (next, starts)) (gid : Nat) (loc : Location)
    (block : tree.location? gid = some loc) (flagged : flags[gid]? = some true) :
    tree.grid.LevelFits (loc.level + 1) := by
  obtain ⟨_, built, _⟩ := refine_ok_iff.1 refining
  obtain ⟨grid, _, placed⟩ := ofLeaves_spec built
  have fitsNext : next.Fits := fits_of_words (grid ▸ words)
  obtain ⟨o, child⟩ := RootGrid.exists_child tree.grid loc
  have listed : loc.child o ∈ (tree.withFlags flags).flatMap (refined tree.grid) :=
    List.mem_flatMap.2 ⟨(loc, true), mem_withFlags_iff.2 ⟨gid, block, flagged⟩, child⟩
  have there := fitsNext _ ((placed _).2 ⟨_, listed, rfl⟩)
  rwa [grid, Location.level_ofPath, Location.length_path] at there

theorem members_of_refine {next : BlockTree} {starts : List Nat} (words : tree.grid.Words)
    (refining : tree.refine flags = .ok (next, starts)) :
    next.grid = tree.grid ∧
      ∀ loc, loc ∈ next.locations ↔ ∃ piece ∈ tree.withFlags flags, loc ∈ refined tree.grid piece := by
  obtain ⟨size, built, _⟩ := refine_ok_iff.1 refining
  obtain ⟨_, _, refiningAgain, _, _, members⟩ :=
    refine_ok (fits_of_words words) size (levelFits_of_refine words refining)
  cases refining.symm.trans refiningAgain
  exact ⟨(ofLeaves_spec built).1, members⟩

theorem contains_of_mem_refined {grid : RootGrid} {piece : Location × Bool} {leaf : Location}
    (below : leaf ∈ refined grid piece) : piece.1.contains leaf = true := by
  unfold refined at below
  split at below
  · exact RootGrid.contains_of_mem_children below
  · rw [List.mem_singleton.1 below]
    exact Location.contains_refl piece.1

theorem exists_source {piece : Location × Bool} {leaf : Location}
    (listed : piece ∈ tree.withFlags flags) (below : leaf ∈ refined tree.grid piece) :
    ∃ gid loc, tree.location? gid = some loc ∧ loc.contains leaf = true ∧
      ((flags[gid]? = some true ∧ leaf.level = loc.level + 1) ∨
        (flags[gid]? = some false ∧ leaf.level = loc.level)) := by
  have around := contains_of_mem_refined below
  obtain ⟨loc, flag⟩ := piece
  obtain ⟨gid, block, flagged⟩ := mem_withFlags_iff.1 listed
  refine ⟨gid, loc, block, around, ?_⟩
  cases flag with
  | true => exact .inl ⟨flagged, RootGrid.level_of_mem_children below⟩
  | false => exact .inr ⟨flagged, congrArg Location.level (List.mem_singleton.1 below)⟩

theorem balanced_refined {next : BlockTree} (balanced : tree.Balanced)
    (closed : tree.FlagsClosed flags) (fitsNext : next.Fits) (grid : next.grid = tree.grid)
    (members : ∀ loc, loc ∈ next.locations ↔
      ∃ piece ∈ tree.withFlags flags, loc ∈ refined tree.grid piece) : next.Balanced := by
  have half {a b : Location} (memberA : a ∈ next.locations) (memberB : b ∈ next.locations)
      (adjacent : next.grid.Adjacent a b) : a.level ≤ b.level + 1 := by
    obtain ⟨pieceA, listedA, belowA⟩ := (members a).1 memberA
    obtain ⟨pieceB, listedB, belowB⟩ := (members b).1 memberB
    obtain ⟨gidA, outerA, blockA, aroundA, levelA⟩ := exists_source listedA belowA
    obtain ⟨gidB, outerB, blockB, aroundB, levelB⟩ := exists_source listedB belowB
    have fitsB := fitsNext b memberB
    rw [grid] at adjacent fitsB
    have outer := RootGrid.adjacent_of_contains fitsB (rootLevel_le_level blockB) aroundA aroundB
      adjacent
    have before := (balanced outerA (mem_locations_iff.2 ⟨gidA, blockA⟩) outerB
      (mem_locations_iff.2 ⟨gidB, blockB⟩) outer).1
    rcases levelA with ⟨flagA, levelA⟩ | ⟨flagA, levelA⟩
    · rcases levelB with ⟨flagB, levelB⟩ | ⟨flagB, levelB⟩
      · omega
      · have finer : outerA.level ≤ outerB.level := by
          by_contra coarser
          have raised := closed gidA outerA blockA flagA gidB outerB blockB (by omega) outer
          rw [flagB] at raised
          cases raised
        omega
    · rcases levelB with ⟨_, levelB⟩ | ⟨_, levelB⟩ <;> omega
  intro a memberA b memberB adjacent
  refine ⟨half memberA memberB adjacent, half memberB memberA ?_⟩
  exact (RootGrid.adjacent_comm (fitsNext a memberA) (fitsNext b memberB)
    (next.rootLevel_le a memberA) (next.rootLevel_le b memberB)).1 adjacent

/-- Whatever is asked for, refining by the completed flags keeps the balance. -/
theorem balanced_refine {raised : Array Bool} {next : BlockTree} {starts : List Nat}
    (words : tree.grid.Words) (balanced : tree.Balanced)
    (raising : tree.balanceRefineFlags flags = .ok raised)
    (refining : tree.refine raised = .ok (next, starts)) :
    next.grid = tree.grid ∧ next.Balanced := by
  obtain ⟨_, _, closed, _⟩ := completed_of_balanceRefineFlags (fits_of_words words) raising
  obtain ⟨grid, members⟩ := members_of_refine words refining
  exact ⟨grid, balanced_refined balanced closed (fits_of_words (grid ▸ words)) grid members⟩

end BlockTree

end AdaptiveMesh
