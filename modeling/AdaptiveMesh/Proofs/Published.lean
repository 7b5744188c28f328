import AdaptiveMesh.Proofs.Rows
import AdaptiveMesh.Topology

/-!
# Published tables

The tables of a span of blocks show, at the position of a block, its gid, its level and the slots of
its row. For a balanced tree they can be built for any span.
-/

namespace AdaptiveMesh

set_option autoImplicit false

theorem Span.getElem?_toList {blocks : Span} {position : Nat} (bound : position < blocks.size) :
    blocks.toList[position]? = some (blocks.start + position) := by
  rw [toList, List.getElem?_range' bound, Nat.one_mul]

theorem extract_flatten {α : Type} {parts : List (List α)} {width : Nat}
    (even : ∀ part ∈ parts, part.length = width) {index : Nat} {part : List α}
    (found : parts[index]? = some part) :
    Span.slice ⟨index * width, index * width + width⟩ parts.flatten.toArray = part.toArray := by
  rw [Span.slice, List.extract_toArray, List.extract_eq_take_drop, Nat.add_sub_cancel_left,
    flatten_part even found]

namespace Topology

theorem device_publishedTable {β : Type} (blank : β) (values : List β) :
    (publishedTable blank values).device = values.toArray := rfl

variable {α : Type} [CostNumber α] {tree : BlockTree} {conds : BoundaryConds} {blocks : Span}
  {ranks : Array Nat} {topology : Topology α} {position gid : Nat}

def located (tree : BlockTree) (blocks : Span) : List (Location × Nat) :=
  (blocks.slice tree.locations).toList.zip blocks.toList

theorem length_slice_locations (inside : blocks.stop ≤ tree.numLeaves) :
    (blocks.slice tree.locations).toList.length = blocks.size := by
  rw [BlockTree.numLeaves] at inside
  rw [Array.length_toList, Span.slice, Array.size_extract, Span.size]
  omega

theorem getElem?_slice_locations (inside : blocks.stop ≤ tree.numLeaves)
    (bound : position < blocks.size) : (blocks.slice tree.locations).toList[position]? =
      tree.location? (blocks.start + position) := by
  rw [Span.size] at bound
  rw [BlockTree.numLeaves] at inside
  rw [Array.getElem?_toList, Span.slice, Array.getElem?_extract, if_pos (by omega)]
  rfl

theorem getElem?_located (inside : blocks.stop ≤ tree.numLeaves) (bound : position < blocks.size) :
    ∃ loc, tree.location? (blocks.start + position) = some loc ∧
      (located tree blocks)[position]? = some (loc, blocks.start + position) := by
  have below : blocks.start + position < tree.numLeaves := by
    rw [Span.size] at bound
    omega
  obtain ⟨loc, block⟩ := BlockTree.exists_location? below
  refine ⟨loc, block, ?_⟩
  rw [located, List.getElem?_zip_eq_some, getElem?_slice_locations inside bound, block]
  exact ⟨rfl, Span.getElem?_toList bound⟩

theorem mem_located (inside : blocks.stop ≤ tree.numLeaves) {entry : Location × Nat}
    (member : entry ∈ located tree blocks) : tree.location? entry.2 = some entry.1 := by
  obtain ⟨position, listed⟩ := List.getElem?_of_mem member
  have bound : position < blocks.size := by
    have short := (List.getElem?_eq_some_iff.1 (List.getElem?_zip_eq_some.1 listed).2).1
    rwa [Span.length_toList] at short
  obtain ⟨loc, block, again⟩ := getElem?_located inside bound
  cases again.symm.trans listed
  exact block

theorem build_ok_iff : build tree conds blocks ranks = .ok topology ↔
    blocks.start ≤ blocks.stop ∧ blocks.stop ≤ tree.numLeaves ∧ ranks.size = tree.numLeaves ∧
      ∃ gids rows, blocks.toList.mapM NeighborEntry.field = .ok gids ∧
        (located tree blocks).mapM (fun (loc, gid) => tree.rowAt ranks gid loc) = .ok rows ∧
        topology = {
          dim := tree.grid.dim
          blocks
          gids := publishedTable (-1) gids
          levels := publishedTable (-1)
            ((blocks.slice tree.locations).toList.map fun loc => (loc.level : Int))
          boundaries := publishedTable .block ((blocks.slice tree.locations).toList.flatMap
            fun loc => (tree.grid.classify conds loc).toList)
          neighbors := publishedTable .empty rows.flatten.flatten
          physical := (((blocks.slice tree.locations).toList.flatMap
            fun loc => (tree.grid.classify conds loc).toList).map BoundaryFlag.isPhysical).toArray
          costs := Array.replicate blocks.size CostNumber.unit } := by
  simp only [build, Outcome.check_ok_iff, Outcome.bind_ok_iff, Outcome.pure_ok_iff,
    Bool.or_eq_true, decide_eq_true_eq, not_or, Nat.not_lt, not_not, and_assoc]
  constructor
  · rintro ⟨ordered, inside, covered, gids, numbered, rows, listed, rfl⟩
    exact ⟨ordered, inside, covered, gids, rows, numbered, listed, rfl⟩
  · rintro ⟨ordered, inside, covered, gids, rows, numbered, listed, rfl⟩
    exact ⟨ordered, inside, covered, gids, numbered, rows, listed, rfl⟩

theorem dim_of_build (built : build tree conds blocks ranks = .ok topology) :
    topology.dim = tree.grid.dim := by
  obtain ⟨_, _, _, _, _, _, _, rfl⟩ := build_ok_iff.1 built
  rfl

theorem blocks_of_build (built : build tree conds blocks ranks = .ok topology) :
    topology.blocks = blocks := by
  obtain ⟨_, _, _, _, _, _, _, rfl⟩ := build_ok_iff.1 built
  rfl

theorem exists_gids (few : tree.numLeaves ≤ 2147483648) (inside : blocks.stop ≤ tree.numLeaves) :
    ∃ gids, blocks.toList.mapM NeighborEntry.field = .ok gids := by
  apply Outcome.exists_mapM_ok
  intro gid member
  rw [Span.mem_toList, Span.contains, Bool.and_eq_true, decide_eq_true_eq,
    decide_eq_true_eq] at member
  exact ⟨_, NeighborEntry.field_ok_iff.2 ⟨by omega, rfl⟩⟩

theorem exists_build (fits : tree.Fits) (balanced : tree.Balanced)
    (few : tree.numLeaves ≤ 2147483648) (covered : ranks.size = tree.numLeaves)
    (small : ∀ rank ∈ ranks, rank < 2147483648) (ordered : blocks.start ≤ blocks.stop)
    (inside : blocks.stop ≤ tree.numLeaves) (conds : BoundaryConds) :
    ∃ topology : Topology α, build tree conds blocks ranks = .ok topology := by
  have listed (entry : Location × Nat) (member : entry ∈ located tree blocks) :
      ∃ row, tree.rowAt ranks entry.2 entry.1 = .ok row := by
    have block := mem_located inside member
    obtain ⟨row, run⟩ := BlockTree.exists_row fits balanced few covered small block
    rw [BlockTree.row?, block, Option.map_some, Option.some.injEq, Outcome.map_ok_iff] at run
    obtain ⟨slots, made, _⟩ := run
    exact ⟨slots, made⟩
  obtain ⟨gids, gidsRun⟩ := exists_gids few inside
  obtain ⟨rows, rowsRun⟩ := Outcome.exists_mapM_ok listed
  exact ⟨_, build_ok_iff.2 ⟨ordered, inside, covered, gids, rows, gidsRun, rowsRun, rfl⟩⟩

/-- What the tables show at the position of a block. -/
structure Shows (topology : Topology α) (tree : BlockTree) (ranks : Array Nat)
    (position gid : Nat) (loc : Location) (row : List NeighborEntry) : Prop where
  run : tree.row? ranks gid = some (.ok row)
  gidShown : topology.gid? position = some gid
  levelShown : topology.level? position = some loc.level
  rowShown : topology.row? position = some row.toArray
  slotShown : ∀ slot < Slot.count tree.grid.dim,
    topology.slot? position slot = some (tree.slotOf row slot).toArray

theorem shows_of_build (built : build tree conds blocks ranks = .ok topology)
    (bound : position < blocks.size) :
    ∃ loc row, tree.location? (blocks.start + position) = some loc ∧
      topology.Shows tree ranks position (blocks.start + position) loc row := by
  obtain ⟨_, inside, _, gids, rows, numbered, listed, same⟩ := build_ok_iff.1 built
  obtain ⟨loc, block, located⟩ := getElem?_located inside bound
  have gidAt : gids[position]? = some ((blocks.start + position : Nat) : Int) := by
    obtain ⟨word, there, made⟩ :=
      Outcome.getElem?_right (Outcome.mapM_ok_iff.1 numbered) (Span.getElem?_toList bound)
    rw [there, (NeighborEntry.field_ok_iff.1 made).2]
  obtain ⟨slots, there, made⟩ := Outcome.getElem?_right (Outcome.mapM_ok_iff.1 listed) located
  have run : tree.row? ranks (blocks.start + position) = some (.ok slots.flatten) := by
    rw [BlockTree.row?, block, Option.map_some, Option.some.injEq, Outcome.map_ok_iff]
    exact ⟨slots, made, rfl⟩
  have even (part : List NeighborEntry) (member : part ∈ rows.map List.flatten) :
      part.length = tree.rowLength := by
    obtain ⟨listedSlots, among, rfl⟩ := List.mem_map.1 member
    obtain ⟨_, _, made⟩ := Outcome.exists_left_of_mem (Outcome.mapM_ok_iff.1 listed) among
    exact BlockTree.length_flatten_rowAt made
  have rowAt : topology.row? position = some slots.flatten.toArray := by
    rw [row?, if_pos (by rw [same]; exact bound), same]
    have part : (rows.map List.flatten)[position]? = some slots.flatten := by
      rw [List.getElem?_map, there]
      rfl
    have chunk := extract_flatten even part
    rw [← List.flatten_flatten] at chunk
    exact congrArg some chunk
  refine ⟨loc, slots.flatten, block, run, ?_, ?_, rowAt, fun slot few => ?_⟩
  · rw [gid?, same, device_publishedTable, List.getElem?_toArray, gidAt]
    rfl
  · have levelAt := getElem?_slice_locations inside bound
    rw [block] at levelAt
    rw [level?, same, device_publishedTable, List.getElem?_toArray, List.getElem?_map, levelAt]
    rfl
  · rw [slot?, rowAt, numSlots, slotWidth, dim_of_build built]
    simp only [Option.bind_eq_bind, Option.bind_some]
    rw [if_pos few, Span.slice, List.extract_toArray, List.extract_eq_take_drop, Nat.add_sub_cancel_left]
    rfl

end Topology

end AdaptiveMesh
