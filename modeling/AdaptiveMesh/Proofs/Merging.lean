import AdaptiveMesh.Proofs.Families
import AdaptiveMesh.Proofs.Rows

/-!
# Merging families

The flags that are kept are those of the flagged families that touch no finer block, and these are the
families that can be merged alone. A finer block that touches a member touches the parent too, and is two
levels finer; where there is none, the parent is no farther from what it touches than it may be. Families
that can be merged alone can be merged together, as two of them that touch get coarser at the same time.
-/

namespace AdaptiveMesh

set_option autoImplicit false

namespace BlockTree

variable {tree alone : BlockTree} {gid : Nat} {loc parent place : Location} {flags : Array Bool}

/-- Whether a place is in a flagged family that touches no finer block. -/
def Keeps (tree : BlockTree) (flags : Array Bool) (loc : Location) : Prop :=
  ∃ parent, tree.FlaggedFamily flags parent ∧ loc ∈ tree.grid.children parent ∧
    tree.mayMerge parent = .ok true

theorem keeps_iff (below : loc ∈ tree.grid.children parent) :
    tree.Keeps flags loc ↔ tree.FlaggedFamily flags parent ∧ tree.mayMerge parent = .ok true := by
  constructor
  · intro keeps
    obtain ⟨other, family, listed, merges⟩ := keeps
    rw [RootGrid.eq_of_mem_children below listed]
    exact ⟨family, merges⟩
  · intro both
    exact ⟨parent, both.1, below, both.2⟩

/-- What is decided at the first member of a family is right for every one of them. -/
theorem kept_group_iff {group : List (Location × Bool)} {kept : Bool}
    (listed : ∀ leaf ∈ group, leaf ∈ tree.withFlags flags)
    (members : group.map Prod.fst = tree.grid.children parent) (family : tree.Family parent)
    (answered : (if group.all Prod.snd then tree.mayMerge parent else .ok false) = .ok kept) :
    ∀ leaf ∈ group, kept = true ↔ tree.Keeps flags leaf.1 := by
  intro leaf inside
  have raised := all_flagged_iff listed members
  have below := List.mem_map_of_mem (f := Prod.fst) inside
  rw [members] at below
  rw [keeps_iff below]
  split at answered
  · rename_i whole
    rw [answered, and_iff_right ⟨family, raised.1 whole⟩, Except.ok.injEq]
  · rename_i partly
    cases answered
    constructor
    · intro never
      cases never
    · intro both
      exact absurd (raised.2 both.1.flagged) partly

theorem keptFlags_exact {leaves : List (Location × Bool)} {skip : Nat} {keep : Bool}
    {kept : List Bool} (run : tree.keptFlags leaves skip keep = .ok kept)
    (listed : ∀ leaf ∈ leaves, leaf ∈ tree.withFlags flags)
    (ahead : tree.Ahead tree.Family ((leaves.drop skip).map Prod.fst))
    (decided : ∀ leaf ∈ leaves.take skip, keep = true ↔ tree.Keeps flags leaf.1) :
    ∀ entry ∈ (leaves.map Prod.fst).zip kept, entry.2 = true ↔ tree.Keeps flags entry.1 := by
  induction leaves generalizing skip keep kept with
  | nil => simp
  | cons leaf rest ih =>
      have later {skip : Nat} {keep : Bool} {kept : List Bool}
          (others : tree.keptFlags rest skip keep = .ok kept) := ih others
        fun other member => listed other (List.mem_cons_of_mem leaf member)
      -- the leaves to be skipped are in a family that has been decided at its first member
      cases skip with
      | succ skip =>
          obtain ⟨others, onward, same⟩ := Outcome.bind_ok_iff.1 run
          cases same
          rw [List.take_succ_cons, List.forall_mem_cons] at decided
          rw [List.map_cons, List.zip_cons_cons, List.forall_mem_cons]
          exact ⟨decided.1, later onward ahead decided.2⟩
      | zero =>
          rw [List.drop_zero] at ahead
          cases found : tree.grid.familyParent?
              (((leaf :: rest).take tree.grid.numChildren).map Prod.fst) with
          | none =>
              obtain ⟨others, onward, rfl⟩ := (keptFlags_single found).1 run
              have outside (parent : Location) (family : tree.Family parent) :
                  leaf.1 ∉ tree.grid.children parent := by
                intro below
                rw [ahead.familyParent? family family below] at found
                cases found
              rw [List.map_cons, List.zip_cons_cons, List.forall_mem_cons]
              refine ⟨?_, later onward (ahead.tail outside) (by simp)⟩
              constructor
              · intro kept
                cases kept
              · intro keeps
                obtain ⟨parent, family, below, _⟩ := keeps
                exact absurd below (outside parent family.toFamily)
          | some parent =>
              obtain ⟨kept, others, answered, onward, rfl⟩ := (keptFlags_family found).1 run
              obtain ⟨family, aheadRest⟩ := ahead.family_of_familyParent? found
              have each := kept_group_iff
                (fun other inside => listed other (List.mem_of_mem_take inside))
                (RootGrid.familyParent?_iff.1 found).2 family answered
              rw [tree.grid.numChildren_succ, List.take_succ_cons, List.forall_mem_cons] at each
              rw [List.map_cons, List.zip_cons_cons, List.forall_mem_cons]
              exact ⟨each.1, later onward aheadRest each.2⟩

def familyFlags (tree : BlockTree) (parent : Location) : Array Bool :=
  tree.locations.map fun loc => decide (loc ∈ tree.grid.children parent)

theorem size_familyFlags (tree : BlockTree) (parent : Location) :
    (tree.familyFlags parent).size = tree.numLeaves := Array.size_map

theorem mem_withFlags_family {flag : Bool} :
    (loc, flag) ∈ tree.withFlags (tree.familyFlags parent) ↔
      loc ∈ tree.locations ∧ decide (loc ∈ tree.grid.children parent) = flag := by
  rw [mem_withFlags_iff, mem_locations_iff, ← exists_and_right]
  apply exists_congr
  intro gid
  apply and_congr_right
  intro block
  have here : tree.locations[gid]? = some loc := block
  rw [familyFlags, Array.getElem?_map, here, Option.map_some, Option.some.injEq]

theorem flaggedFamily_alone_iff (family : tree.Family parent) :
    tree.FlaggedFamily (tree.familyFlags parent) place ↔ place = parent := by
  constructor
  · intro flagged
    obtain ⟨o, child⟩ := tree.grid.exists_child place
    have marked := (mem_withFlags_family.1 (flagged.flagged _ child)).2
    exact RootGrid.eq_of_mem_children child (of_decide_eq_true marked)
  · intro same
    rw [same]
    refine ⟨family, fun member below => ?_⟩
    exact mem_withFlags_family.2 ⟨family.members member below, decide_eq_true below⟩

structure MergesTo (tree : BlockTree) (parent : Location) (alone : BlockTree) : Prop where
  grid : alone.grid = tree.grid
  members : ∀ loc, loc ∈ alone.locations ↔
    loc = parent ∨ (loc ∈ tree.locations ∧ loc ∉ tree.grid.children parent)

theorem exists_merged_family (family : tree.Family parent) : ∃ pieces,
    merged tree.grid (tree.withFlags (tree.familyFlags parent)) 0 = .ok pieces ∧
      ∀ loc, loc ∈ pieces.map Prod.fst ↔
        loc = parent ∨ (loc ∈ tree.locations ∧ loc ∉ tree.grid.children parent) := by
  have size := size_familyFlags tree parent
  have ahead : tree.Ahead (tree.FlaggedFamily (tree.familyFlags parent))
      (((tree.withFlags (tree.familyFlags parent)).drop 0).map Prod.fst) := by
    rw [List.drop_zero, map_fst_withFlags size]
    exact ahead_all fun other flagged => flagged.toFamily
  have families (place : Location)
      (flagged : (place, true) ∈ tree.withFlags (tree.familyFlags parent)) :
      ∃ other, tree.FlaggedFamily (tree.familyFlags parent) other ∧
        place ∈ tree.grid.children other :=
    ⟨parent, (flaggedFamily_alone_iff family).2 rfl,
      of_decide_eq_true (mem_withFlags_family.1 flagged).2⟩
  obtain ⟨pieces, run⟩ := exists_merged (fun leaf member => member) families ahead
  refine ⟨pieces, run, fun loc => ?_⟩
  rw [mem_merged_iff size run, flaggedFamily_alone_iff family, mem_withFlags_family,
    decide_eq_false_iff_not, or_comm]

theorem coarsen_family (fits : tree.Fits) (family : tree.Family parent) : ∃ alone map,
    tree.coarsen (tree.familyFlags parent) = .ok (alone, map) ∧ tree.MergesTo parent alone := by
  obtain ⟨pieces, run, remains⟩ := exists_merged_family family
  obtain ⟨alone, merging, grid, _, _, members⟩ := coarsen_ok fits (size_familyFlags tree parent) run
  exact ⟨alone, _, merging, grid, fun loc => (members loc).trans (remains loc)⟩

/-- A finer block that touches a member touches the parent, two levels finer. -/
theorem mayMerge_of_balanced (fits : tree.Fits) (family : tree.Family parent)
    (merges : tree.MergesTo parent alone) (balanced : alone.Balanced) :
    tree.mayMerge parent = .ok true := by
  rw [mayMerge, Outcome.allM_ok_true_iff]
  intro member below
  obtain ⟨gid, block⟩ := mem_locations_iff.1 (family.members member below)
  obtain ⟨answer, run, finer⟩ := bordersFiner_ok fits block
  cases answer with
  | false =>
      rw [run]
      rfl
  | true =>
      obtain ⟨other, home, found, deeper, touching⟩ := finer.1 rfl
      have level := RootGrid.level_of_mem_children below
      have stays : home ∈ alone.locations := by
        refine (merges.members home).2 (.inr ⟨mem_locations_iff.2 ⟨other, found⟩, fun sibling => ?_⟩)
        rw [level, ← RootGrid.level_of_mem_children sibling] at deeper
        exact lt_irrefl _ deeper
      have adjacent := RootGrid.adjacent_of_contains (fits.level found) (rootLevel_le_level found)
        (RootGrid.contains_of_mem_children below) (Location.contains_refl home) touching
      rw [← merges.grid] at adjacent
      have levels := balanced parent ((merges.members parent).2 (.inl rfl)) home stays adjacent
      omega

/-- A family can be merged alone if and only if it touches no finer block. -/
theorem balanced_alone_iff (words : tree.grid.Words) (balanced : tree.Balanced)
    (family : tree.Family parent) (merges : tree.MergesTo parent alone) :
    alone.Balanced ↔ tree.mayMerge parent = .ok true := by
  have fits := fits_of_words words
  constructor
  · intro smooth
    exact mayMerge_of_balanced fits family merges smooth
  · intro allowed
    have size := size_familyFlags tree parent
    obtain ⟨pieces, run, remains⟩ := exists_merged_family family
    have only (merged : Location × Nat) (listed : merged ∈ pieces) (large : 1 < merged.2) :
        tree.mayMerge merged.1 = .ok true := by
      rw [(flaggedFamily_alone_iff family).1 (flaggedFamily_of_merged size run listed large)]
      exact allowed
    have fitsAlone : alone.Fits := fits_of_words (merges.grid ▸ words)
    exact balanced_merged fits balanced size run only fitsAlone merges.grid
      fun loc => (merges.members loc).trans (remains loc).symm

theorem exists_balanced_alone_iff (words : tree.grid.Words) (balanced : tree.Balanced)
    (family : tree.Family parent) :
    (∃ alone, tree.MergesTo parent alone ∧ alone.Balanced) ↔ tree.mayMerge parent = .ok true := by
  constructor
  · intro smooth
    obtain ⟨alone, merges, smooth⟩ := smooth
    exact (balanced_alone_iff words balanced family merges).1 smooth
  · intro allowed
    obtain ⟨alone, _, _, merges⟩ := coarsen_family (fits_of_words words) family
    exact ⟨alone, merges, (balanced_alone_iff words balanced family merges).2 allowed⟩

theorem kept_iff {kept : Array Bool} (size : flags.size = tree.numLeaves)
    (keeping : tree.balanceCoarsenFlags flags = .ok kept) (block : tree.location? gid = some loc) :
    kept[gid]? = some true ↔ tree.Keeps flags loc := by
  obtain ⟨_, _, scanning⟩ := Outcome.bind_ok_iff.1 keeping
  obtain ⟨list, scanned, same⟩ := Outcome.bind_ok_iff.1 scanning
  cases same
  have ahead : tree.Ahead tree.Family (((tree.withFlags flags).drop 0).map Prod.fst) := by
    rw [List.drop_zero, map_fst_withFlags size]
    exact ahead_all fun parent family => family
  have each := keptFlags_exact scanned (fun leaf member => member) ahead (by simp)
  have length := (keptFlags_run scanned).1
  rw [← List.length_map (f := Prod.fst), map_fst_withFlags size] at length
  rw [map_fst_withFlags size] at each
  have bound : gid < list.length := by
    rw [length]
    exact location?_lt block
  have here : list.toArray[gid]? = some list[gid] := by
    rw [List.getElem?_toArray, List.getElem?_eq_getElem bound]
  rw [here, Option.some.injEq]
  exact each (loc, list[gid]) (mem_withFlags_iff.2 ⟨gid, block, here⟩)

/-- In a balanced tree a flag is kept if and only if its leaf is in a wholly flagged family that can be
merged alone. All these families can be merged together. -/
theorem balanceCoarsenFlags_exact (words : tree.grid.Words) (balanced : tree.Balanced)
    (size : flags.size = tree.numLeaves) :
    ∃ kept, tree.balanceCoarsenFlags flags = .ok kept ∧ kept.size = tree.numLeaves ∧
      (∀ gid loc, tree.location? gid = some loc → (kept[gid]? = some true ↔
        ∃ parent, tree.FlaggedFamily flags parent ∧ loc ∈ tree.grid.children parent ∧
          ∃ alone, tree.MergesTo parent alone ∧ alone.Balanced)) ∧
      (∀ parent, tree.Family parent → ∃ alone map,
        tree.coarsen (tree.familyFlags parent) = .ok (alone, map) ∧ tree.MergesTo parent alone) ∧
      ∃ next map, tree.coarsen kept = .ok (next, map) ∧ next.grid = tree.grid ∧
        (∀ loc, loc ∈ next.locations ↔
          (loc, false) ∈ tree.withFlags kept ∨ tree.FlaggedFamily kept loc) ∧
        next.Balanced := by
  have fits := fits_of_words words
  obtain ⟨kept, pieces, keeping, sizeKept, run, _⟩ := balanceCoarsenFlags_ok fits size
  obtain ⟨next, coarsening, grid, _, _, members⟩ := coarsen_ok fits sizeKept run
  have smooth := (balanced_coarsen words balanced keeping coarsening).2
  refine ⟨kept, keeping, sizeKept, ?_, fun parent family => coarsen_family fits family,
    next, _, coarsening, grid, ?_, smooth⟩
  · intro gid loc block
    rw [kept_iff size keeping block]
    apply exists_congr
    intro parent
    apply and_congr_right
    intro family
    rw [exists_balanced_alone_iff words balanced family.toFamily]
  · intro loc
    rw [members, mem_merged_iff sizeKept run]

/-- The leaves of a tree on `squareGrid` whose root blocks are all refined, and a part of the second one
again. The finest leaves touch the first root block across the end of the ring. -/
def ringLeaves : List Location :=
  (squareGrid.rootLocations.flatMap squareGrid.children).flatMap fun loc =>
    if loc = ⟨2, ⟨3, 0, 0⟩⟩ then squareGrid.children loc else [loc]

/-- With all flags raised, the finest family and the two root blocks away from it can be merged. The first
root block can not, and the second one is not a family of leaves. -/
theorem balanceCoarsenFlags_exact_ring : ∃ tree kept, ofLeaves squareGrid ringLeaves = .ok tree ∧
    tree.Balanced ∧ tree.balanceCoarsenFlags (Array.replicate 19 true) = .ok kept ∧
    kept = Array.replicate 5 false ++ Array.replicate 4 true ++ Array.replicate 2 false ++
      Array.replicate 8 true ∧
    tree.location? 0 = some ⟨2, ⟨0, 0, 0⟩⟩ ∧
    (¬∃ parent, tree.FlaggedFamily (Array.replicate 19 true) parent ∧
      ⟨2, ⟨0, 0, 0⟩⟩ ∈ tree.grid.children parent ∧
      ∃ alone, tree.MergesTo parent alone ∧ alone.Balanced) ∧
    tree.location? 5 = some ⟨3, ⟨6, 0, 0⟩⟩ ∧
    (∃ parent, tree.FlaggedFamily (Array.replicate 19 true) parent ∧
      ⟨3, ⟨6, 0, 0⟩⟩ ∈ tree.grid.children parent ∧
      ∃ alone, tree.MergesTo parent alone ∧ alone.Balanced) ∧
    ∃ next map, tree.coarsen kept = .ok (next, map) ∧ next.Balanced := by
  have computed : (ofLeaves squareGrid ringLeaves).toOption.any (fun tree =>
      tree.grid = squareGrid && tree.numLeaves = 19 &&
        (tree.locations.all fun loc => 2 ≤ loc.level && loc.level ≤ 3) &&
        (tree.balanceCoarsenFlags (Array.replicate 19 true)).toOption =
          some (Array.replicate 5 false ++ Array.replicate 4 true ++ Array.replicate 2 false ++
            Array.replicate 8 true) &&
        tree.location? 0 = some ⟨2, ⟨0, 0, 0⟩⟩ && tree.location? 5 = some ⟨3, ⟨6, 0, 0⟩⟩) = true := by
    decide +kernel
  obtain ⟨tree, built, computed⟩ := Outcome.exists_ok_of_any computed
  simp only [Bool.and_eq_true, decide_eq_true_eq, Array.all_eq_true_iff_forall_mem] at computed
  obtain ⟨⟨⟨⟨⟨grid, count⟩, levels⟩, result⟩, corner⟩, finest⟩ := computed
  have words : tree.grid.Words := by
    rw [grid]
    decide
  have balanced : tree.Balanced := balanced_of_levels levels
  obtain ⟨kept, keeping, _, each, _, next, map, merging, _, _, smooth⟩ :=
    balanceCoarsenFlags_exact words balanced (by rw [count]; rfl : (Array.replicate 19 true).size = _)
  rw [keeping] at result
  cases result
  refine ⟨tree, _, built, balanced, keeping, rfl, corner, ?_, finest, ?_, next, map, merging, smooth⟩
  · rw [← each 0 _ corner]
    decide
  · rw [← each 5 _ finest]
    rfl

end BlockTree

end AdaptiveMesh
