import AdaptiveMesh.BlockTree.Coarsen
import AdaptiveMesh.Proofs.Refinement

/-!
# Coarsening

A run over the leaves in gid order finds the families, and the flags that it keeps are those of whole
families that touch no finer block. Merging by these flags meets the same families again. Put back
into children, what remains is the list of old leaves, so it tiles the domain like them. A merged
family touched nothing finer than its members, and what now touches the parent touches a member too;
so the balance is kept, whatever else is merged in the same run.
-/

namespace AdaptiveMesh

set_option autoImplicit false

namespace RootGrid

variable {grid : RootGrid} {a b : Location} {leaves : List Location} {parent : Location}

theorem familyParent?_iff : grid.familyParent? leaves = some parent ↔
    grid.rootLevel ≤ parent.level ∧ leaves = grid.children parent := by
  constructor
  · intro found
    simp only [familyParent?, Option.bind_eq_bind, Option.bind_eq_some_iff] at found
    obtain ⟨first, _, above, _, chosen⟩ := found
    split at chosen
    · rename_i family
      cases chosen
      exact family
    · cases chosen
  · rintro ⟨fine, rfl⟩
    have head : (grid.children parent).head? = some (parent.child (.ofLinear 0)) := by
      have first : (List.range (1 <<< grid.dim)).head? = some 0 := by
        rw [List.head?_range, if_neg (by simp [Nat.one_shiftLeft])]
      simp [children, Octant.forDim, List.head?_map, first]
    simp [familyParent?, head, Location.parent?_child, fine]

theorem one_lt_numChildren (grid : RootGrid) : 1 < grid.numChildren := by
  rw [numChildren_eq]
  exact Nat.one_lt_two_pow (Nat.one_le_iff_ne_zero.1 grid.one_le_dim)

theorem numChildren_succ (grid : RootGrid) : grid.numChildren = grid.numChildren - 1 + 1 := by
  have large := grid.one_lt_numChildren
  omega

theorem map_fst_of_familyParent? {leaf : Location × Bool} {rest : List (Location × Bool)}
    (found : grid.familyParent? (((leaf :: rest).take grid.numChildren).map Prod.fst) =
      some parent) :
    (leaf :: rest).map Prod.fst =
      grid.children parent ++ (rest.drop (grid.numChildren - 1)).map Prod.fst := by
  have dropped : (leaf :: rest).drop grid.numChildren = rest.drop (grid.numChildren - 1) := by
    rw [grid.numChildren_succ, List.drop_succ_cons, ← grid.numChildren_succ]
  rw [← (familyParent?_iff.1 found).2, ← dropped, ← List.map_append, List.take_append_drop]

theorem exists_child_adjacent (insideA : grid.contains a = true) (insideB : grid.contains b = true)
    (adjacent : grid.Adjacent a b) : ∃ child ∈ grid.children a, grid.Adjacent child b := by
  obtain ⟨turns, winds, touch⟩ := adjacent
  have flat (axis : Axis) (degenerate : grid.dim ≤ axis.val) :
      a.lx axis = 0 ∧ (grid.image b turns).lx axis = 0 := by
    rw [lx_image, lx_eq_zero insideA degenerate, lx_eq_zero insideB degenerate,
      winds.degenerate degenerate]
    simp
  obtain ⟨o, listed, touches⟩ :=
    Location.exists_child_touches grid.one_le_dim grid.dim_le_three flat touch
  exact ⟨a.child o, List.mem_map_of_mem listed, turns, winds, touches⟩

end RootGrid

namespace BlockTree

variable {tree : BlockTree} {grid : RootGrid} {gid other : Nat} {loc home parent a b : Location}

theorem mayMerge_ok (fits : tree.Fits)
    (blocks : ∀ member ∈ tree.grid.children parent, member ∈ tree.locations) :
    ∃ answer, tree.mayMerge parent = .ok answer := by
  apply Outcome.exists_allM_ok
  intro member listed
  obtain ⟨gid, block⟩ := mem_locations_iff.1 (blocks member listed)
  obtain ⟨answer, run, _⟩ := bordersFiner_ok fits block
  exact ⟨!answer, by rw [run]; rfl⟩

theorem level_le_of_mayMerge (fits : tree.Fits) (merging : tree.mayMerge parent = .ok true)
    (listed : loc ∈ tree.grid.children parent) (block : tree.location? gid = some loc)
    (found : tree.location? other = some home) (adjacent : tree.grid.Adjacent loc home) :
    home.level ≤ loc.level := by
  have kept := Outcome.allM_ok_true_iff.1 merging loc listed
  obtain ⟨answer, run, finer⟩ := bordersFiner_ok fits block
  rw [run] at kept
  by_contra deeper
  have bordered := finer.2 ⟨other, home, found, by omega, adjacent⟩
  subst bordered
  cases kept

theorem keptFlags_single {leaf : Location × Bool} {rest : List (Location × Bool)} {keep : Bool}
    {flags : List Bool} (alone : tree.grid.familyParent?
      (((leaf :: rest).take tree.grid.numChildren).map Prod.fst) = none) :
    tree.keptFlags (leaf :: rest) 0 keep = .ok flags ↔
      ∃ later, tree.keptFlags rest 0 false = .ok later ∧ false :: later = flags := by
  rw [keptFlags]
  simp only [alone, Outcome.bind_ok_iff, Outcome.pure_ok_iff]

theorem keptFlags_family {leaf : Location × Bool} {rest : List (Location × Bool)} {keep : Bool}
    {flags : List Bool} (family : tree.grid.familyParent?
      (((leaf :: rest).take tree.grid.numChildren).map Prod.fst) = some parent) :
    tree.keptFlags (leaf :: rest) 0 keep = .ok flags ↔ ∃ kept later,
      (if ((leaf :: rest).take tree.grid.numChildren).all Prod.snd
        then tree.mayMerge parent else .ok false) = .ok kept ∧
      tree.keptFlags rest (tree.grid.numChildren - 1) kept = .ok later ∧ kept :: later = flags := by
  rw [keptFlags]
  simp only [family]
  split
  · simp only [Outcome.bind_ok_iff, Outcome.pure_ok_iff, exists_and_left]
  · simp only [Outcome.bind_ok_iff, Outcome.pure_ok_iff, exists_and_left, Except.ok.injEq]

theorem keptFlags_run {leaves : List (Location × Bool)} {skip : Nat} {keep : Bool}
    {flags : List Bool} (run : tree.keptFlags leaves skip keep = .ok flags) :
    flags.length = leaves.length ∧ ∀ flag ∈ flags.take skip, flag = keep := by
  induction leaves generalizing skip keep flags with
  | nil =>
      cases skip <;> cases run <;> simp
  | cons leaf rest ih =>
      cases skip with
      | zero =>
          have length : flags.length = (leaf :: rest).length := by
            cases family : tree.grid.familyParent?
                (((leaf :: rest).take tree.grid.numChildren).map Prod.fst) with
            | none =>
                obtain ⟨later, others, rfl⟩ := (keptFlags_single family).1 run
                simp [(ih others).1]
            | some parent =>
                obtain ⟨kept, later, _, others, rfl⟩ := (keptFlags_family family).1 run
                simp [(ih others).1]
          simp [length]
      | succ skip =>
          obtain ⟨later, others, same⟩ := Outcome.bind_ok_iff.1 run
          cases same
          obtain ⟨length, kept⟩ := ih others
          refine ⟨by simp [length], ?_⟩
          rw [List.take_succ_cons, List.forall_mem_cons]
          exact ⟨rfl, kept⟩

theorem keptFlags_ok (fits : tree.Fits) {leaves : List (Location × Bool)} (skip : Nat) (keep : Bool)
    (blocks : ∀ leaf ∈ leaves, leaf.1 ∈ tree.locations) :
    ∃ flags, tree.keptFlags leaves skip keep = .ok flags := by
  induction leaves generalizing skip keep with
  | nil => cases skip <;> exact ⟨[], rfl⟩
  | cons leaf rest ih =>
      have later (skip : Nat) (keep : Bool) :=
        ih skip keep fun other member => blocks other (List.mem_cons_of_mem leaf member)
      cases skip with
      | succ skip =>
          obtain ⟨flags, others⟩ := later skip keep
          exact ⟨keep :: flags, Outcome.bind_ok_iff.2 ⟨flags, others, rfl⟩⟩
      | zero =>
          cases family : tree.grid.familyParent?
              (((leaf :: rest).take tree.grid.numChildren).map Prod.fst) with
          | none =>
              obtain ⟨flags, others⟩ := later 0 false
              exact ⟨false :: flags, (keptFlags_single family).2 ⟨flags, others, rfl⟩⟩
          | some parent =>
              have members := (RootGrid.familyParent?_iff.1 family).2
              have answered : ∃ kept, (if ((leaf :: rest).take tree.grid.numChildren).all Prod.snd
                  then tree.mayMerge parent else .ok false) = .ok kept := by
                split
                · apply mayMerge_ok fits
                  intro member listed
                  rw [← members] at listed
                  obtain ⟨source, inside, rfl⟩ := List.mem_map.1 listed
                  exact blocks source (List.mem_of_mem_take inside)
                · exact ⟨false, rfl⟩
              obtain ⟨kept, answered⟩ := answered
              obtain ⟨flags, others⟩ := later (tree.grid.numChildren - 1) kept
              exact ⟨kept :: flags,
                (keptFlags_family family).2 ⟨kept, flags, answered, others, rfl⟩⟩

def piece (merged : Location × Nat) : Location × Bool := (merged.1, 1 < merged.2)

theorem group_of_kept {leaf : Location × Bool} {rest : List (Location × Bool)} {later : List Bool}
    (family : tree.grid.familyParent?
      (((leaf :: rest).take tree.grid.numChildren).map Prod.fst) = some parent)
    (length : later.length = rest.length)
    (raised : ∀ flag ∈ later.take (tree.grid.numChildren - 1), flag = true) :
    tree.grid.familyParent? ((((leaf.1, true) :: (rest.map Prod.fst).zip later).take
        tree.grid.numChildren).map Prod.fst) = some parent ∧
      (((leaf.1, true) :: (rest.map Prod.fst).zip later).take
        tree.grid.numChildren).all Prod.snd = true := by
  have zipped : ((leaf.1, true) :: (rest.map Prod.fst).zip later).map Prod.fst =
      (leaf :: rest).map Prod.fst := by
    rw [List.map_cons, List.map_fst_zip (by simp [length]), List.map_cons]
  constructor
  · rw [List.map_take, zipped, ← List.map_take]
    exact family
  · rw [tree.grid.numChildren_succ, List.take_succ_cons, List.all_cons, Bool.true_and,
      List.all_eq_true]
    intro entry member
    rw [List.zip, List.take_zipWith] at member
    exact raised _ (List.of_mem_zip member).2

theorem merged_single_iff {loc : Location} {rest : List (Location × Bool)}
    {pieces : List (Location × Nat)} : merged grid ((loc, false) :: rest) 0 = .ok pieces ↔
      ∃ later, merged grid rest 0 = .ok later ∧ (loc, 1) :: later = pieces := by
  rw [merged]
  simp only [Bool.false_eq_true, if_false, Outcome.bind_ok_iff, Outcome.pure_ok_iff]

theorem merged_family_iff {loc : Location} {rest : List (Location × Bool)}
    {pieces : List (Location × Nat)} : merged grid ((loc, true) :: rest) 0 = .ok pieces ↔
      ∃ parent later, grid.familyParent?
          ((((loc, true) :: rest).take grid.numChildren).map Prod.fst) = some parent ∧
        (((loc, true) :: rest).take grid.numChildren).all Prod.snd = true ∧
        merged grid rest (grid.numChildren - 1) = .ok later ∧
        (parent, grid.numChildren) :: later = pieces := by
  rw [merged]
  simp only [if_true]
  cases grid.familyParent? ((((loc, true) :: rest).take grid.numChildren).map Prod.fst) with
  | none => simp
  | some parent =>
      simp only [Option.some.injEq, exists_and_left, exists_eq_left']
      by_cases whole : (((loc, true) :: rest).take grid.numChildren).all Prod.snd = true
      · simp only [whole, if_true, Outcome.bind_ok_iff, Outcome.pure_ok_iff, true_and]
      · simp only [whole, if_false, Bool.false_eq_true, reduceCtorEq, false_and]

/-- Merging by the kept flags meets the families whose flags were kept, and merges only those that may
be merged. -/
theorem merged_of_kept {leaves : List (Location × Bool)} {skip : Nat} {keep : Bool}
    {flags : List Bool} (run : tree.keptFlags leaves skip keep = .ok flags) :
    ∃ pieces, merged tree.grid ((leaves.map Prod.fst).zip flags) (if keep then skip else 0) =
        .ok pieces ∧
      ∀ merged ∈ pieces, 1 < merged.2 → tree.mayMerge merged.1 = .ok true := by
  induction leaves generalizing skip keep flags with
  | nil => exact ⟨[], by cases keep <;> cases skip <;> rfl, by simp⟩
  | cons leaf rest ih =>
      have single {later : List Bool} {skip : Nat} (others : tree.keptFlags rest skip false = .ok later) :
          ∃ pieces, merged tree.grid ((leaf.1, false) :: (rest.map Prod.fst).zip later) 0 =
              .ok pieces ∧
            ∀ merged ∈ pieces, 1 < merged.2 → tree.mayMerge merged.1 = .ok true := by
        obtain ⟨pieces, merging, allowed⟩ := ih others
        rw [if_neg (by simp)] at merging
        refine ⟨_, merged_single_iff.2 ⟨pieces, merging, rfl⟩, ?_⟩
        rw [List.forall_mem_cons]
        exact ⟨fun large => absurd large (lt_irrefl 1), allowed⟩
      -- `skip` counts the later members of a family, which keep the decision made at its first
      cases skip with
      | succ skip =>
          obtain ⟨later, others, same⟩ := Outcome.bind_ok_iff.1 run
          cases same
          cases keep with
          | true => exact ih others
          | false => exact single others
      | zero =>
          rw [ite_self]
          cases family : tree.grid.familyParent?
              (((leaf :: rest).take tree.grid.numChildren).map Prod.fst) with
          | none =>
              obtain ⟨later, others, rfl⟩ := (keptFlags_single family).1 run
              exact single others
          | some parent =>
              obtain ⟨kept, later, answered, others, rfl⟩ := (keptFlags_family family).1 run
              cases kept with
              | false => exact single others
              | true =>
                  obtain ⟨pieces, merging, allowed⟩ := ih others
                  rw [if_pos rfl] at merging
                  have merges : tree.mayMerge parent = .ok true := by
                    split at answered
                    · exact answered
                    · cases answered
                  -- merging sees the kept flags only, so the family must be recognised again from them
                  obtain ⟨length, raised⟩ := keptFlags_run others
                  obtain ⟨again, whole⟩ := group_of_kept family length raised
                  refine ⟨_, merged_family_iff.2 ⟨parent, pieces, again, whole, merging, rfl⟩, ?_⟩
                  rw [List.forall_mem_cons]
                  exact ⟨fun _ => merges, allowed⟩

/-- Put back into children, the remaining leaves are the old ones. -/
theorem merged_spec {grid : RootGrid} {leaves : List (Location × Bool)} {skip : Nat}
    {pieces : List (Location × Nat)} (run : merged grid leaves skip = .ok pieces)
    (fine : ∀ leaf ∈ leaves, grid.rootLevel ≤ leaf.1.level) :
    (pieces.map piece).flatMap (refined grid) = (leaves.map Prod.fst).drop skip ∧
      ∀ merged ∈ pieces, grid.rootLevel ≤ merged.1.level ∧
        merged.2 = (refined grid (piece merged)).length := by
  induction leaves generalizing skip pieces with
  | nil => cases skip <;> cases run <;> simp
  | cons leaf rest ih =>
      have fineRest := fun other member => fine other (List.mem_cons_of_mem leaf member)
      obtain ⟨loc, flag⟩ := leaf
      cases skip with
      | succ skip => exact ih run fineRest
      | zero =>
          cases flag with
          | true =>
              obtain ⟨parent, later, family, _, others, rfl⟩ := merged_family_iff.1 run
              obtain ⟨expanded, counts⟩ := ih others fineRest
              have finer := (RootGrid.familyParent?_iff.1 family).1
              have large := grid.one_lt_numChildren
              have whole : refined grid (piece (parent, grid.numChildren)) = grid.children parent := by
                simp [refined, piece, large]
              constructor
              · rw [List.map_cons, List.flatMap_cons, expanded, whole, List.drop_zero,
                  RootGrid.map_fst_of_familyParent? family, List.map_drop]
              · rw [List.forall_mem_cons]
                exact ⟨⟨finer, by rw [whole, grid.length_children]⟩, counts⟩
          | false =>
              obtain ⟨later, others, rfl⟩ := merged_single_iff.1 run
              obtain ⟨expanded, counts⟩ := ih others fineRest
              have alone : refined grid (piece (loc, 1)) = [loc] := by simp [refined, piece]
              constructor
              · rw [List.map_cons, List.flatMap_cons, expanded, alone]
                simp
              · rw [List.forall_mem_cons]
                exact ⟨⟨fine _ List.mem_cons_self, by rw [alone]; rfl⟩, counts⟩

variable {flags : Array Bool} {pieces : List (Location × Nat)}

theorem balanceCoarsenFlags_ok (fits : tree.Fits) (size : flags.size = tree.numLeaves) :
    ∃ kept pieces, tree.balanceCoarsenFlags flags = .ok kept ∧ kept.size = tree.numLeaves ∧
      merged tree.grid (tree.withFlags kept) 0 = .ok pieces ∧
      ∀ merged ∈ pieces, 1 < merged.2 → tree.mayMerge merged.1 = .ok true := by
  have blocks (leaf : Location × Bool) (member : leaf ∈ tree.withFlags flags) :
      leaf.1 ∈ tree.locations := by
    obtain ⟨gid, block, _⟩ := mem_withFlags_iff.1 member
    exact mem_locations_iff.2 ⟨gid, block⟩
  obtain ⟨kept, run⟩ := keptFlags_ok fits 0 false blocks
  have length := (keptFlags_run run).1
  obtain ⟨pieces, merging, allowed⟩ := merged_of_kept run
  rw [map_fst_withFlags size, ite_self] at merging
  refine ⟨kept.toArray, pieces, ?_, ?_, merging, allowed⟩
  · rw [balanceCoarsenFlags, checkFlagCount, if_pos size]
    exact Outcome.bind_ok_iff.2 ⟨(), rfl, Outcome.bind_ok_iff.2 ⟨kept, run, rfl⟩⟩
  · rw [List.size_toArray, length, ← List.length_map (f := Prod.fst), map_fst_withFlags size]
    rfl

theorem merged_expands (size : flags.size = tree.numLeaves)
    (run : merged tree.grid (tree.withFlags flags) 0 = .ok pieces) :
    (pieces.map piece).flatMap (refined tree.grid) = tree.locations.toList ∧
      ∀ merged ∈ pieces, tree.grid.rootLevel ≤ merged.1.level ∧
        merged.2 = (refined tree.grid (piece merged)).length := by
  have fine (leaf : Location × Bool) (member : leaf ∈ tree.withFlags flags) :
      tree.grid.rootLevel ≤ leaf.1.level := by
    obtain ⟨gid, block, _⟩ := mem_withFlags_iff.1 member
    exact rootLevel_le_level block
  have spec := merged_spec run fine
  rwa [map_fst_withFlags size, List.drop_zero] at spec

theorem coarsen_ok_iff {next : BlockTree} {map : List Nat} :
    tree.coarsen flags = .ok (next, map) ↔ flags.size = tree.numLeaves ∧
      ∃ pieces, merged tree.grid (tree.withFlags flags) 0 = .ok pieces ∧
        ofLeaves tree.grid (pieces.map Prod.fst) = .ok next ∧
        map = pieces.zipIdx.flatMap fun (piece, gid) => List.replicate piece.2 gid := by
  simp only [coarsen, Outcome.bind_ok_iff, checkFlagCount_ok_iff, Outcome.pure_ok_iff,
    Prod.mk.injEq]
  constructor
  · intro found
    obtain ⟨_, size, pieces, run, tree, built, rfl, same⟩ := found
    exact ⟨size, pieces, run, built, same.symm⟩
  · intro found
    obtain ⟨size, pieces, run, built, same⟩ := found
    exact ⟨(), size, pieces, run, next, built, rfl, same.symm⟩

theorem coarsen_ok (fits : tree.Fits) (size : flags.size = tree.numLeaves)
    (run : merged tree.grid (tree.withFlags flags) 0 = .ok pieces) :
    ∃ next, tree.coarsen flags = .ok (next,
        pieces.zipIdx.flatMap fun (piece, gid) => List.replicate piece.2 gid) ∧
      next.grid = tree.grid ∧ next.Fits ∧ next.numLeaves = pieces.length ∧
      ∀ loc, loc ∈ next.locations ↔ loc ∈ pieces.map Prod.fst := by
  obtain ⟨expanded, counts⟩ := merged_expands size run
  have fine (p : Location × Bool) (member : p ∈ pieces.map piece) :
      tree.grid.rootLevel ≤ p.1.level := by
    obtain ⟨merged, listed, rfl⟩ := List.mem_map.1 member
    exact (counts merged listed).1
  have fitsOld (p : Location × Bool) (member : p ∈ pieces.map piece) (leaf : Location)
      (below : leaf ∈ refined tree.grid p) : tree.grid.LevelFits leaf.level := by
    have listed := List.mem_flatMap.2 ⟨p, member, below⟩
    rw [expanded] at listed
    exact fits leaf (Array.mem_toList_iff.1 listed)
  have parents : (pieces.map piece).map Prod.fst = pieces.map Prod.fst := by
    rw [List.map_map]
    rfl
  have tiles := tiles_locations fits
  rw [← expanded, tiles_refined_iff fine fitsOld, parents] at tiles
  have fitsNew (loc : Location) (member : loc ∈ pieces.map Prod.fst) :
      tree.grid.LevelFits loc.level := by
    obtain ⟨merged, listed, rfl⟩ := List.mem_map.1 member
    obtain ⟨leaf, below, around⟩ := exists_refined tree.grid (piece merged)
    exact (fitsOld _ (List.mem_map_of_mem listed) leaf below).mono
      (Location.level_le_of_contains around)
  obtain ⟨next, built, grid, count, members⟩ := ofLeaves_of_tiles tiles fitsNew
  refine ⟨next, ?_, grid, ?_, by rw [count, List.length_map], members⟩
  · exact coarsen_ok_iff.2 ⟨size, pieces, run, built, rfl⟩
  · intro loc member
    rw [grid]
    exact fitsNew loc ((members loc).1 member)

/-- Whether a place is a leaf or may become one by merging leaves. -/
def Mergeable (tree : BlockTree) (loc : Location) : Prop :=
  loc ∈ tree.locations ∨ (tree.mayMerge loc = .ok true ∧
    ∀ child ∈ tree.grid.children loc, child ∈ tree.locations)

theorem mergeable_of_merged (size : flags.size = tree.numLeaves)
    (run : merged tree.grid (tree.withFlags flags) 0 = .ok pieces)
    (allowed : ∀ merged ∈ pieces, 1 < merged.2 → tree.mayMerge merged.1 = .ok true)
    {merged : Location × Nat} (listed : merged ∈ pieces) : tree.Mergeable merged.1 := by
  obtain ⟨expanded, _⟩ := merged_expands size run
  have old (place : Location) (below : place ∈ refined tree.grid (piece merged)) :
      place ∈ tree.locations := by
    rw [← Array.mem_toList_iff, ← expanded]
    exact List.mem_flatMap.2 ⟨_, List.mem_map_of_mem listed, below⟩
  by_cases large : 1 < merged.2
  · refine .inr ⟨allowed merged listed large, fun child below => old child ?_⟩
    simpa [refined, piece, large] using below
  · exact .inl (old merged.1 (by simp [refined, piece, large]))

theorem Mergeable.level_le_of_leaf (fits : tree.Fits) (balanced : tree.Balanced)
    (mergeable : tree.Mergeable a) (leaf : b ∈ tree.locations)
    (insideA : tree.grid.contains a = true) (adjacent : tree.grid.Adjacent a b) :
    b.level ≤ a.level + 1 := by
  rcases mergeable with old | ⟨merges, family⟩
  · exact (balanced a old b leaf adjacent).2
  · obtain ⟨other, found⟩ := mem_locations_iff.1 leaf
    obtain ⟨child, below, touching⟩ :=
      RootGrid.exists_child_adjacent insideA (contains_block fits found) adjacent
    obtain ⟨gid, block⟩ := mem_locations_iff.1 (family child below)
    have finest := level_le_of_mayMerge fits merges below block found touching
    rwa [RootGrid.level_of_mem_children below] at finest

/-- Two mergeable places that touch differ by at most one level: if both merge, so that a child of
the one touches a child of the other, then neither child may touch anything finer. -/
theorem Mergeable.level_le (fits : tree.Fits) (balanced : tree.Balanced)
    (mergeableA : tree.Mergeable a) (mergeableB : tree.Mergeable b)
    (insideA : tree.grid.contains a = true) (insideB : tree.grid.contains b = true)
    (fitsA : tree.grid.LevelFits a.level) (fitsB : tree.grid.LevelFits b.level)
    (fineA : tree.grid.rootLevel ≤ a.level) (fineB : tree.grid.rootLevel ≤ b.level)
    (adjacent : tree.grid.Adjacent a b) : b.level ≤ a.level + 1 := by
  rcases mergeableB with old | ⟨_, family⟩
  · exact mergeableA.level_le_of_leaf fits balanced old insideA adjacent
  · have turned := (RootGrid.adjacent_comm fitsA fitsB fineA fineB).1 adjacent
    obtain ⟨child, below, touching⟩ := RootGrid.exists_child_adjacent insideB insideA turned
    have leaf := family child below
    have touches := (RootGrid.adjacent_comm (fits child leaf) fitsA
      (tree.rootLevel_le child leaf) fineA).1 touching
    have levels := mergeableA.level_le_of_leaf fits balanced leaf insideA touches
    rw [RootGrid.level_of_mem_children below] at levels
    omega

theorem balanced_merged {next : BlockTree} (fits : tree.Fits) (balanced : tree.Balanced)
    (size : flags.size = tree.numLeaves)
    (run : merged tree.grid (tree.withFlags flags) 0 = .ok pieces)
    (allowed : ∀ merged ∈ pieces, 1 < merged.2 → tree.mayMerge merged.1 = .ok true)
    (fitsNext : next.Fits) (grid : next.grid = tree.grid)
    (members : ∀ loc, loc ∈ next.locations ↔ loc ∈ pieces.map Prod.fst) : next.Balanced := by
  have mergeable {leaf : Location} (member : leaf ∈ next.locations) : tree.Mergeable leaf := by
    obtain ⟨merged, listed, rfl⟩ := List.mem_map.1 ((members leaf).1 member)
    exact mergeable_of_merged size run allowed listed
  have inside {leaf : Location} (member : leaf ∈ next.locations) :
      tree.grid.contains leaf = true := by
    obtain ⟨gid, block⟩ := mem_locations_iff.1 member
    rw [← grid]
    exact contains_block fitsNext block
  have fitsLeaf {leaf : Location} (member : leaf ∈ next.locations) :
      tree.grid.LevelFits leaf.level := grid ▸ fitsNext leaf member
  have fineLeaf {leaf : Location} (member : leaf ∈ next.locations) :
      tree.grid.rootLevel ≤ leaf.level := grid ▸ next.rootLevel_le leaf member
  -- the relation is symmetric, so one bound is enough
  have half {a b : Location} (memberA : a ∈ next.locations) (memberB : b ∈ next.locations)
      (adjacent : tree.grid.Adjacent a b) : b.level ≤ a.level + 1 :=
    (mergeable memberA).level_le fits balanced (mergeable memberB) (inside memberA)
      (inside memberB) (fitsLeaf memberA) (fitsLeaf memberB) (fineLeaf memberA) (fineLeaf memberB)
      adjacent
  intro a memberA b memberB adjacent
  rw [grid] at adjacent
  refine ⟨half memberB memberA ?_, half memberA memberB adjacent⟩
  exact (RootGrid.adjacent_comm (fitsLeaf memberA) (fitsLeaf memberB) (fineLeaf memberA)
    (fineLeaf memberB)).1 adjacent

/-- Whatever is asked for, coarsening by the kept flags keeps the balance. -/
theorem balanced_coarsen {kept : Array Bool} {next : BlockTree} {map : List Nat}
    (words : tree.grid.Words) (balanced : tree.Balanced)
    (keeping : tree.balanceCoarsenFlags flags = .ok kept)
    (coarsening : tree.coarsen kept = .ok (next, map)) :
    next.grid = tree.grid ∧ next.Balanced := by
  have fits := fits_of_words words
  obtain ⟨_, checked, _⟩ := Outcome.bind_ok_iff.1 keeping
  obtain ⟨_, pieces, keepingAgain, size, run, allowed⟩ :=
    balanceCoarsenFlags_ok fits (checkFlagCount_ok_iff.1 checked)
  cases keeping.symm.trans keepingAgain
  obtain ⟨_, coarseningAgain, grid, fitsNext, _, members⟩ := coarsen_ok fits size run
  cases coarsening.symm.trans coarseningAgain
  exact ⟨grid, balanced_merged fits balanced size run allowed fitsNext grid members⟩

theorem coarsen_map (size : flags.size = tree.numLeaves)
    (run : merged tree.grid (tree.withFlags flags) 0 = .ok pieces) :
    (pieces.zipIdx.flatMap fun (piece, gid) => List.replicate piece.2 gid).length =
        tree.numLeaves ∧
      ∀ gid, gid ∈ pieces.zipIdx.flatMap (fun (piece, gid) => List.replicate piece.2 gid) ↔
        gid < pieces.length := by
  obtain ⟨expanded, counts⟩ := merged_expands size run
  constructor
  · have widths : pieces.zipIdx.map (fun entry => entry.1.2) =
        (pieces.map piece).map fun leaf => (refined tree.grid leaf).length := by
      have merges : pieces.zipIdx.map (fun entry => entry.1.2) =
          (pieces.zipIdx.map Prod.fst).map Prod.snd := by
        rw [List.map_map]
        rfl
      rw [merges, List.zipIdx_map_fst, List.map_map]
      apply List.map_congr_left
      intro merged listed
      exact (counts merged listed).2
    calc (pieces.zipIdx.flatMap fun (piece, gid) => List.replicate piece.2 gid).length
        = (pieces.zipIdx.map fun entry => entry.1.2).sum := by
          simp only [List.length_flatMap, List.length_replicate]
      _ = ((pieces.map piece).flatMap (refined tree.grid)).length := by
          rw [widths, List.length_flatMap]
      _ = tree.numLeaves := by rw [expanded, Array.length_toList, numLeaves]
  · intro gid
    rw [List.mem_flatMap]
    constructor
    · rintro ⟨⟨merged, index⟩, listed, copied⟩
      rw [(List.mem_replicate.1 copied).2]
      exact (List.getElem?_eq_some_iff.1 (List.mem_zipIdx_iff_getElem?.1 listed)).1
    · intro bound
      have listed : (pieces[gid], gid) ∈ pieces.zipIdx :=
        List.mem_zipIdx_iff_getElem?.2 (List.getElem?_eq_getElem bound)
      refine ⟨_, listed, List.mem_replicate.2 ⟨?_, rfl⟩⟩
      obtain ⟨leaf, below, _⟩ := exists_refined tree.grid (piece pieces[gid])
      rw [(counts _ (List.getElem_mem bound)).2]
      exact Nat.ne_of_gt (List.length_pos_of_mem below)

end BlockTree

end AdaptiveMesh
