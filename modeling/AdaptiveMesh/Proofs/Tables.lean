import AdaptiveMesh.Proofs.Partition
import AdaptiveMesh.Proofs.Refusals

/-!
# Tables

The tables of a span are made block by block, so two spans that follow one another have the tables of
the span that they make up, one after the other, and that span can be built exactly if both can. It
follows that the tables of all workers, in rank order, are the tables of the whole mesh. Whatever costs
are set later, a topology that has been built can be read.
-/

namespace AdaptiveMesh

set_option autoImplicit false

namespace Span

variable {a b c : Nat}

theorem toList_append (early : a ≤ b) (late : b ≤ c) :
    (⟨a, b⟩ : Span).toList ++ (⟨b, c⟩ : Span).toList = (⟨a, c⟩ : Span).toList := by
  have apart : b = a + (b - a) := by omega
  have whole : c - a = (b - a) + (c - b) := by omega
  simp only [toList, size]
  rw [whole, ← List.range'_append_1, ← apart]

theorem slice_append {β : Type} (early : a ≤ b) (late : b ≤ c) (values : Array β) :
    (⟨a, b⟩ : Span).slice values ++ (⟨b, c⟩ : Span).slice values = (⟨a, c⟩ : Span).slice values := by
  simp only [slice]
  rw [Array.extract_append_extract, Nat.min_eq_left early, Nat.max_eq_right late]

inductive Chain : Nat → List Span → Nat → Prop where
  | nil {start : Nat} : Chain start [] start
  | cons {start cut stop : Nat} {rest : List Span} (ordered : start ≤ cut)
      (later : Chain cut rest stop) : Chain start (⟨start, cut⟩ :: rest) stop

theorem Chain.le {start stop : Nat} {parts : List Span} (chain : Chain start parts stop) :
    start ≤ stop := by
  induction chain with
  | nil => exact Nat.le_refl _
  | cons ordered _ ih => exact Nat.le_trans ordered ih

theorem chain_of_cuts {cuts : Nat → Nat} (ascending : ∀ cut, cuts cut ≤ cuts (cut + 1))
    (start count : Nat) :
    Chain (cuts start) ((List.range' start count).map fun cut => ⟨cuts cut, cuts (cut + 1)⟩)
      (cuts (start + count)) := by
  induction count generalizing start with
  | zero => exact .nil
  | succ count ih =>
      have next : start + (count + 1) = start + 1 + count := by omega
      rw [List.range'_succ, List.map_cons, next]
      exact .cons (ascending start) (ih (start + 1))

end Span

theorem Decomposition.chain_range {α : Type} [CostNumber α] {blocks : List (Nat × α)} {workers : Nat}
    {d : Decomposition α} (sharing : ofBlocks blocks workers = .ok d) :
    Span.Chain 0 ((List.range workers).map d.range) blocks.length := by
  obtain ⟨cuts, first, last, ascending, spans⟩ := exists_cuts sharing
  have chain := Span.chain_of_cuts ascending 0 workers
  rw [first, Nat.zero_add, last, ← List.range_eq_range'] at chain
  have same : (List.range workers).map d.range =
      (List.range workers).map fun cut => ⟨cuts cut, cuts (cut + 1)⟩ := by
    apply List.map_congr_left
    intro worker member
    exact spans worker (List.mem_range.1 member)
  rw [same]
  exact chain

namespace Topology

structure Tables where
  gids : Array Int
  levels : Array Int
  boundaries : Array BoundaryFlag
  physical : Array Bool
  neighbors : Array NeighborEntry
deriving DecidableEq

namespace Tables

def append (first second : Tables) : Tables where
  gids := first.gids ++ second.gids
  levels := first.levels ++ second.levels
  boundaries := first.boundaries ++ second.boundaries
  physical := first.physical ++ second.physical
  neighbors := first.neighbors ++ second.neighbors

instance : Append Tables := ⟨append⟩

def empty : Tables := ⟨#[], #[], #[], #[], #[]⟩

def joined (parts : List Tables) : Tables := parts.foldr append empty

theorem joined_cons (first : Tables) (rest : List Tables) :
    joined (first :: rest) = first ++ joined rest := rfl

theorem joined_singleton (only : Tables) : joined [only] = only := by
  obtain ⟨gids, levels, boundaries, physical, neighbors⟩ := only
  simp [joined, append, empty]

def ofBlocks (grid : RootGrid) (conds : BoundaryConds) (places : List Location) (gids : List Int)
    (rows : List (List (List NeighborEntry))) : Tables where
  gids := gids.toArray
  levels := (places.map fun loc => (loc.level : Int)).toArray
  boundaries := (places.flatMap fun loc => (grid.classify conds loc).toList).toArray
  physical := ((places.flatMap fun loc => (grid.classify conds loc).toList).map
    BoundaryFlag.isPhysical).toArray
  neighbors := rows.flatten.flatten.toArray

theorem ofBlocks_append {grid : RootGrid} {conds : BoundaryConds} (places others : List Location)
    (gids later : List Int) (rows more : List (List (List NeighborEntry))) :
    ofBlocks grid conds (places ++ others) (gids ++ later) (rows ++ more) =
      ofBlocks grid conds places gids rows ++ ofBlocks grid conds others later more := by
  simp only [ofBlocks, List.map_append, List.flatMap_append, List.flatten_append,
    ← List.append_toArray]
  rfl

end Tables

variable {α : Type} (topology : Topology α)

def tables : Tables where
  gids := topology.gids.device
  levels := topology.levels.device
  boundaries := topology.boundaries.device
  physical := topology.physical
  neighbors := topology.neighbors.device

def withCosts (changes : List (Nat × α)) : Topology α :=
  changes.foldl (fun topology change => (topology.setCost? change.1 change.2).getD topology) topology

theorem exists_costs (changes : List (Nat × α)) :
    ∃ costs, topology.withCosts changes = { topology with costs } := by
  induction changes generalizing topology with
  | nil => exact ⟨topology.costs, rfl⟩
  | cons change rest ih =>
      have one : ∃ costs, (topology.setCost? change.1 change.2).getD topology =
          { topology with costs } := by
        rw [setCost?]
        split
        · exact ⟨_, rfl⟩
        · exact ⟨topology.costs, rfl⟩
      obtain ⟨costs, first⟩ := one
      rw [withCosts, List.foldl_cons, first]
      exact ih { topology with costs }

variable [CostNumber α] {tree : BlockTree} {conds : BoundaryConds} {blocks : Span}
  {ranks : Array Nat} {a b c : Nat}

/-- Whether the gids and rows of a span can be made, and what they are. -/
structure Lists (tree : BlockTree) (ranks : Array Nat) (blocks : Span) (gids : List Int)
    (rows : List (List (List NeighborEntry))) : Prop where
  ordered : blocks.start ≤ blocks.stop
  inside : blocks.stop ≤ tree.numLeaves
  covered : ranks.size = tree.numLeaves
  numbered : blocks.toList.mapM NeighborEntry.field = .ok gids
  resolved : (located tree blocks).mapM (fun (loc, gid) => tree.rowAt ranks gid loc) = .ok rows

theorem lists_of_build {topology : Topology α}
    (built : build tree conds blocks ranks = .ok topology) :
    ∃ gids rows, Lists tree ranks blocks gids rows ∧ topology.tables =
      .ofBlocks tree.grid conds (blocks.slice tree.locations).toList gids rows := by
  obtain ⟨ordered, inside, covered, gids, rows, numbered, resolved, same⟩ := build_ok_iff.1 built
  refine ⟨gids, rows, ⟨ordered, inside, covered, numbered, resolved⟩, ?_⟩
  rw [same]
  rfl

theorem build_of_lists (conds : BoundaryConds) {gids : List Int}
    {rows : List (List (List NeighborEntry))} (lists : Lists tree ranks blocks gids rows) :
    ∃ topology : Topology α, build tree conds blocks ranks = .ok topology ∧ topology.tables =
      .ofBlocks tree.grid conds (blocks.slice tree.locations).toList gids rows :=
  ⟨_, build_ok_iff.2 ⟨lists.ordered, lists.inside, lists.covered, gids, rows, lists.numbered,
    lists.resolved, rfl⟩, rfl⟩

theorem built_iff_lists : (∃ topology : Topology α, build tree conds blocks ranks = .ok topology) ↔
    ∃ gids rows, Lists tree ranks blocks gids rows := by
  constructor
  · intro made
    obtain ⟨topology, built⟩ := made
    obtain ⟨gids, rows, lists, _⟩ := lists_of_build built
    exact ⟨gids, rows, lists⟩
  · intro made
    obtain ⟨gids, rows, lists⟩ := made
    obtain ⟨topology, built, _⟩ := build_of_lists (α := α) conds lists
    exact ⟨topology, built⟩

section

variable (early : a ≤ b) (late : b ≤ c)

include early late

theorem located_append (inside : c ≤ tree.numLeaves) :
    located tree ⟨a, b⟩ ++ located tree ⟨b, c⟩ = located tree ⟨a, c⟩ := by
  have even : ((⟨a, b⟩ : Span).slice tree.locations).toList.length =
      (⟨a, b⟩ : Span).toList.length := by
    rw [length_slice_locations (Nat.le_trans late inside), Span.length_toList]
  rw [located, located, located, ← Span.slice_append early late, Array.toList_append,
    ← Span.toList_append early late, List.zip_append even]

theorem lists_append_iff {gids : List Int} {rows : List (List (List NeighborEntry))} :
    Lists tree ranks ⟨a, c⟩ gids rows ↔ ∃ first second firstRows secondRows,
      Lists tree ranks ⟨a, b⟩ first firstRows ∧ Lists tree ranks ⟨b, c⟩ second secondRows ∧
      gids = first ++ second ∧ rows = firstRows ++ secondRows := by
  constructor
  · intro lists
    obtain ⟨_, inside, covered, numbered, resolved⟩ := lists
    rw [← Span.toList_append early late] at numbered
    rw [← located_append early late inside] at resolved
    simp only [List.mapM_append, Outcome.bind_ok_iff, Outcome.pure_ok_iff] at numbered resolved
    obtain ⟨first, firstRun, second, secondRun, rfl⟩ := numbered
    obtain ⟨firstRows, firstResolved, secondRows, secondResolved, rfl⟩ := resolved
    exact ⟨first, second, firstRows, secondRows,
      ⟨early, Nat.le_trans late inside, covered, firstRun, firstResolved⟩,
      ⟨late, inside, covered, secondRun, secondResolved⟩, rfl, rfl⟩
  · intro parts
    obtain ⟨first, second, firstRows, secondRows, one, two, rfl, rfl⟩ := parts
    have numbered : (⟨a, c⟩ : Span).toList.mapM NeighborEntry.field = .ok (first ++ second) := by
      rw [← Span.toList_append early late, List.mapM_append, one.numbered, two.numbered]
      rfl
    have resolved : (located tree ⟨a, c⟩).mapM (fun (loc, gid) => tree.rowAt ranks gid loc) =
        .ok (firstRows ++ secondRows) := by
      rw [← located_append early late two.inside, List.mapM_append, one.resolved, two.resolved]
      rfl
    exact ⟨Nat.le_trans early late, two.inside, two.covered, numbered, resolved⟩

theorem build_iff_parts : (∃ whole : Topology α, build tree conds ⟨a, c⟩ ranks = .ok whole) ↔
    (∃ first : Topology α, build tree conds ⟨a, b⟩ ranks = .ok first) ∧
      ∃ second : Topology α, build tree conds ⟨b, c⟩ ranks = .ok second := by
  simp only [built_iff_lists]
  constructor
  · intro made
    obtain ⟨_, _, lists⟩ := made
    obtain ⟨_, _, _, _, one, two, _⟩ := (lists_append_iff early late).1 lists
    exact ⟨⟨_, _, one⟩, ⟨_, _, two⟩⟩
  · intro parts
    obtain ⟨⟨_, _, one⟩, _, _, two⟩ := parts
    exact ⟨_, _, (lists_append_iff early late).2 ⟨_, _, _, _, one, two, rfl, rfl⟩⟩

/-- Two spans that follow one another have, one after the other, the tables of both together. -/
theorem tables_append {whole first second : Topology α}
    (built : build tree conds ⟨a, c⟩ ranks = .ok whole)
    (one : build tree conds ⟨a, b⟩ ranks = .ok first)
    (two : build tree conds ⟨b, c⟩ ranks = .ok second) :
    whole.tables = first.tables ++ second.tables := by
  obtain ⟨gids, rows, lists, firstTables⟩ := lists_of_build one
  obtain ⟨later, more, others, secondTables⟩ := lists_of_build two
  have both := (lists_append_iff early late).2 ⟨_, _, _, _, lists, others, rfl, rfl⟩
  obtain ⟨again, same, joined⟩ := build_of_lists (α := α) conds both
  cases built.symm.trans same
  rw [joined, firstTables, secondTables, ← Span.slice_append early late, Array.toList_append,
    Tables.ofBlocks_append]

end

/-- Whether a span can be built exactly if all its parts can, and has their tables, one after the
other. -/
structure Composes (α : Type) [CostNumber α] (tree : BlockTree) (conds : BoundaryConds)
    (ranks : Array Nat) (blocks : Span) (parts : List Span) : Prop where
  built_iff : (∃ whole : Topology α, build tree conds blocks ranks = .ok whole) ↔
    ∀ part ∈ parts, ∃ piece : Topology α, build tree conds part ranks = .ok piece
  tables : ∀ (whole : Topology α) (pieces : List (Topology α)),
    build tree conds blocks ranks = .ok whole →
      List.Forall₂ (fun part piece => build tree conds part ranks = .ok piece) parts pieces →
        whole.tables = .joined (pieces.map Topology.tables)

theorem composes_single (tree : BlockTree) (conds : BoundaryConds) (ranks : Array Nat)
    (blocks : Span) : Composes α tree conds ranks blocks [blocks] where
  built_iff := by rw [List.forall_mem_singleton]
  tables := by
    intro whole pieces built all
    cases all with
    | cons one none =>
        cases none
        cases built.symm.trans one
        rw [List.map_singleton, Tables.joined_singleton]

theorem composes_cons {parts : List Span} (early : a ≤ b) (late : b ≤ c)
    (rest : Composes α tree conds ranks ⟨b, c⟩ parts) :
    Composes α tree conds ranks ⟨a, c⟩ (⟨a, b⟩ :: parts) where
  built_iff := by
    rw [List.forall_mem_cons, ← rest.built_iff]
    exact build_iff_parts early late
  tables := by
    intro whole pieces built all
    obtain ⟨_, second, two⟩ := (build_iff_parts early late).1 ⟨whole, built⟩
    cases all with
    | cons one others =>
        rw [tables_append early late built one two, rest.tables second _ two others, List.map_cons,
          Tables.joined_cons]

/-- Building is compositional over spans that follow one another. -/
theorem composes_of_chain {parts : List Span} (chain : Span.Chain a parts c)
    (nonempty : parts ≠ []) : Composes α tree conds ranks ⟨a, c⟩ parts := by
  induction chain with
  | nil => exact absurd rfl nonempty
  | cons ordered later ih =>
      cases later with
      | nil => exact composes_single tree conds ranks _
      | cons next rest =>
          have chain := Span.Chain.cons next rest
          exact composes_cons ordered chain.le (ih (List.cons_ne_nil _ _))

/-- The tables of all workers, in rank order, are the tables of the whole tree. -/
theorem composes_workers {costs : Array α} {workers : Nat} {shares : Decomposition α}
    (complete : costs.size = tree.numLeaves)
    (sharing : Decomposition.ofCosts costs workers = .ok shares) :
    Composes α tree conds ranks ⟨0, tree.numLeaves⟩ ((List.range workers).map shares.range) := by
  have positive : 0 < workers := (Decomposition.ofBlocks_ok_iff.1 sharing).1
  have chain := Decomposition.chain_range sharing
  rw [List.length_map, List.length_zipIdx, Array.length_toList, complete] at chain
  apply composes_of_chain chain
  rw [ne_eq, List.map_eq_nil_iff, List.range_eq_nil]
  exact Nat.ne_of_gt positive

/-- Whatever costs are set, the tables of a span stay as they were built, can be read, and show the
row of each block of the span. -/
structure Stays (topology later : Topology α) (tree : BlockTree) (ranks : Array Nat)
    (blocks : Span) : Prop where
  tables : later.tables = topology.tables
  neighbors : later.neighborTable = .ok topology.tables.neighbors
  boundaries : later.boundaryTable = .ok topology.tables.boundaries
  shows : ∀ position < blocks.size, ∃ loc row,
    tree.location? (blocks.start + position) = some loc ∧
      later.Shows tree ranks position (blocks.start + position) loc row

theorem stays_of_build {topology : Topology α}
    (built : build tree conds blocks ranks = .ok topology) (changes : List (Nat × α)) :
    topology.Stays (topology.withCosts changes) tree ranks blocks := by
  obtain ⟨costs, changed⟩ := exists_costs topology changes
  obtain ⟨_, _, _, _, _, _, _, same⟩ := build_ok_iff.1 built
  rw [changed]
  refine ⟨rfl, by rw [same]; rfl, by rw [same]; rfl, ?_⟩
  intro position bound
  obtain ⟨loc, row, block, shows⟩ := shows_of_build built bound
  exact ⟨loc, row, block, shows.run, shows.gidShown, shows.levelShown, shows.rowShown,
    shows.slotShown⟩

/-- The tables of a span are those of its parts, one after the other, can be built exactly if theirs
can, and can always be read. So the tables of all workers are the tables of the whole tree. -/
theorem tables_compose (tree : BlockTree) (conds : BoundaryConds) (ranks : Array Nat) :
    (∀ a b c, a ≤ b → b ≤ c →
      ((∃ whole : Topology α, build tree conds ⟨a, c⟩ ranks = .ok whole) ↔
        (∃ first : Topology α, build tree conds ⟨a, b⟩ ranks = .ok first) ∧
          ∃ second : Topology α, build tree conds ⟨b, c⟩ ranks = .ok second) ∧
      ∀ whole first second : Topology α, build tree conds ⟨a, c⟩ ranks = .ok whole →
        build tree conds ⟨a, b⟩ ranks = .ok first → build tree conds ⟨b, c⟩ ranks = .ok second →
          whole.tables = first.tables ++ second.tables) ∧
    (∀ (blocks : Span) (topology : Topology α), build tree conds blocks ranks = .ok topology →
      ∀ changes, topology.Stays (topology.withCosts changes) tree ranks blocks) ∧
    ∀ (costs : Array α) (workers : Nat) (shares : Decomposition α),
      costs.size = tree.numLeaves → Decomposition.ofCosts costs workers = .ok shares →
        Composes α tree conds ranks ⟨0, tree.numLeaves⟩
          ((List.range workers).map shares.range) := by
  refine ⟨fun a b c early late => ⟨build_iff_parts early late, ?_⟩, ?_, ?_⟩
  · intro whole first second built one two
    exact tables_append early late built one two
  · intro blocks topology built changes
    exact stays_of_build built changes
  · intro costs workers shares complete sharing
    exact composes_workers complete sharing

def stairRanks : Array Nat := #[0, 0, 1, 1]

/-- The first two blocks of the stair have together the tables that each of them has alone. The last
two touch, two levels apart, so their worker can not build its tables, nor can anyone build those of all
four blocks. -/
theorem tables_compose_stair : ∃ tree,
    BlockTree.ofLeaves Mesh.lineGrid Mesh.stairLeaves = .ok tree ∧
    (∃ first second whole : Topology Rat,
      build tree (.fill .outflow) ⟨0, 1⟩ stairRanks = .ok first ∧
      build tree (.fill .outflow) ⟨1, 2⟩ stairRanks = .ok second ∧
      build tree (.fill .outflow) ⟨0, 2⟩ stairRanks = .ok whole ∧
      whole.tables = first.tables ++ second.tables ∧
      (whole.withCosts [(1, 5), (7, 2)]).neighborTable = .ok whole.tables.neighbors ∧
      ∃ row, (whole.withCosts [(1, 5), (7, 2)]).Shows tree stairRanks 1 1 ⟨3, ⟨2, 0, 0⟩⟩ row) ∧
    (¬∃ all : Topology Rat, build tree (.fill .outflow) ⟨0, 4⟩ stairRanks = .ok all) ∧
    ∃ shares, Decomposition.ofCosts Mesh.stairCosts 2 = .ok shares ∧
      Composes Rat tree (.fill .outflow) stairRanks ⟨0, tree.numLeaves⟩
        [shares.range 0, shares.range 1] := by
  have computed : (BlockTree.ofLeaves Mesh.lineGrid Mesh.stairLeaves).toOption.any (fun tree =>
      tree.locations = Mesh.stairLeaves.toArray &&
        (build (α := Rat) tree (.fill .outflow) ⟨0, 1⟩ stairRanks).isOk &&
        (build (α := Rat) tree (.fill .outflow) ⟨1, 2⟩ stairRanks).isOk &&
        !(build (α := Rat) tree (.fill .outflow) ⟨2, 4⟩ stairRanks).isOk) = true := by
    decide +kernel
  obtain ⟨tree, accepted, computed⟩ := Outcome.exists_ok_of_any computed
  simp only [Bool.and_eq_true, decide_eq_true_eq] at computed
  obtain ⟨⟨⟨locations, one⟩, two⟩, rest⟩ := computed
  obtain ⟨first, one⟩ := Outcome.exists_ok_of_isOk one
  obtain ⟨second, two⟩ := Outcome.exists_ok_of_isOk two
  obtain ⟨parts, stays, shared⟩ := tables_compose (α := Rat) tree (.fill .outflow) stairRanks
  refine ⟨tree, accepted, ?_, ?_, ?_⟩
  · obtain ⟨built_iff, joined⟩ := parts 0 1 2 (by decide) (by decide)
    obtain ⟨whole, built⟩ := built_iff.2 ⟨⟨first, one⟩, ⟨second, two⟩⟩
    have later := stays ⟨0, 2⟩ whole built [(1, 5), (7, 2)]
    obtain ⟨loc, row, block, shows⟩ := later.shows 1 (by decide)
    have place : tree.location? 1 = some ⟨3, ⟨2, 0, 0⟩⟩ := by
      rw [BlockTree.location?, locations]
      rfl
    cases place.symm.trans block
    exact ⟨first, second, whole, one, two, built, joined whole first second built one two,
      later.neighbors, row, shows⟩
  · intro all
    obtain ⟨_, unbuilt, made⟩ := (parts 0 2 4 (by decide) (by decide)).1.1 all
    rw [made] at rest
    cases rest
  · have sharing : (Decomposition.ofCosts Mesh.stairCosts 2).isOk = true := by decide +kernel
    obtain ⟨shares, sharing⟩ := Outcome.exists_ok_of_isOk sharing
    have complete : Mesh.stairCosts.size = tree.numLeaves := by
      rw [BlockTree.numLeaves, locations]
      rfl
    exact ⟨shares, sharing, shared Mesh.stairCosts 2 shares complete sharing⟩

end Topology

end AdaptiveMesh
