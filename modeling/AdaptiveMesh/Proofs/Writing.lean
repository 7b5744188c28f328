import AdaptiveMesh.Proofs.Published

/-!
# Writing in place

The tables of a topology can be written in place: each starts as blanks of its full length, and every
block then writes at its own positions, which are the multiples of what a block needs in the table. A
row is written in the same way, slot by slot. What comes out are the parts laid end to end, so a
topology written in place is the one that `build` makes, and is refused with the same error.
-/

namespace AdaptiveMesh

set_option autoImplicit false

section

variable {β : Type} {width : Nat} {parts : List (List β)} (blank : β)

def writeFrom (table : Array β) (start : Nat) (values : List β) : Array β :=
  (values.zipIdx start).foldl (fun table (value, position) => table.setIfInBounds position value) table

/-- Writes parts one after the other, each from its own multiple of the width on. -/
def writeParts (width : Nat) (table : Array β) (start : Nat) (parts : List (List β)) : Array β :=
  (parts.zipIdx start).foldl
    (fun table (part, position) => writeFrom table (position * width) part) table

def padded (width : Nat) (blank : β) (part : List β) : List β :=
  part ++ List.replicate (width - part.length) blank

theorem writeFrom_append (before blanks after values : List β)
    (even : blanks.length = values.length) :
    writeFrom (before ++ (blanks ++ after)).toArray before.length values =
      (before ++ (values ++ after)).toArray := by
  induction values generalizing before blanks with
  | nil =>
      cases List.length_eq_zero_iff.1 even
      rfl
  | cons value rest ih =>
      cases blanks with
      | nil => cases even
      | cons blank blanks =>
          have first : (before ++ (blank :: blanks ++ after)).toArray.setIfInBounds before.length value =
              ((before ++ [value]) ++ (blanks ++ after)).toArray := by
            simp
          have later := ih (before ++ [value]) blanks (Nat.succ.inj even)
          rw [List.length_append, List.length_singleton, ← first, List.append_assoc] at later
          exact later

theorem writeFrom_blanks (values : List β) :
    writeFrom (Array.replicate values.length blank) 0 values = values.toArray := by
  have whole := writeFrom_append [] (List.replicate values.length blank) [] values List.length_replicate
  simpa using whole

theorem writeFrom_padded (before : List β) (count : Nat) {part : List β} (short : part.length ≤ width) :
    writeFrom (before ++ List.replicate ((count + 1) * width) blank).toArray before.length part =
      ((before ++ padded width blank part) ++ List.replicate (count * width) blank).toArray := by
  have stretch : (count + 1) * width = part.length + ((width - part.length) + count * width) := by
    rw [Nat.succ_mul]
    omega
  rw [stretch, ← List.replicate_append_replicate, ← List.replicate_append_replicate,
    writeFrom_append _ _ _ _ List.length_replicate, padded]
  simp only [List.append_assoc]

theorem writeParts_append (short : ∀ part ∈ parts, part.length ≤ width) (done : List β)
    {start : Nat} (length : done.length = start * width) :
    writeParts width (done ++ List.replicate (parts.length * width) blank).toArray start parts =
      (done ++ parts.flatMap (padded width blank)).toArray := by
  induction parts generalizing done start with
  | nil => simp [writeParts]
  | cons part rest ih =>
      have here := short part List.mem_cons_self
      have next : (done ++ padded width blank part).length = (start + 1) * width := by
        rw [List.length_append, length, padded, List.length_append, List.length_replicate,
          Nat.succ_mul]
        omega
      have later := ih (fun other member => short other (List.mem_cons_of_mem part member))
        (done ++ padded width blank part) next
      rw [writeParts] at later
      simp only [writeParts, List.zipIdx_cons, List.foldl_cons, List.length_cons]
      rw [← length, writeFrom_padded blank _ _ here, later, List.flatMap_cons, List.append_assoc]

/-- Parts that are written one by one into a table of blanks come to lie end to end. -/
theorem writeParts_blanks (short : ∀ part ∈ parts, part.length ≤ width) :
    writeParts width (Array.replicate (parts.length * width) blank) 0 parts =
      (parts.flatMap (padded width blank)).toArray := by
  have whole := writeParts_append blank short [] (Nat.zero_mul width).symm
  rw [List.nil_append, List.nil_append, List.toArray_replicate] at whole
  exact whole

theorem flatMap_padded (even : ∀ part ∈ parts, part.length = width) :
    parts.flatMap (padded width blank) = parts.flatten := by
  have same (part : List β) (member : part ∈ parts) : padded width blank part = part := by
    rw [padded, even part member, Nat.sub_self, List.replicate_zero, List.append_nil]
  rw [List.flatMap_def, List.map_congr_left same, List.map_id']

end

namespace BlockTree

variable (tree : BlockTree) (ranks : Array Nat) (gid : Nat) (loc : Location)

def fillSlot (row : Array NeighborEntry) (region : Region) :
    Except TopologyError (Array NeighborEntry) :=
  match Slot.index? region, Slot.reciprocal? region with
  | some slot, some destn => do
      return writeFrom row (slot * Slot.width tree.grid.dim)
        (← tree.neighborsAcross ranks gid loc region destn)
  | _, _ => return row

/-- Fills a row of empty entries slot by slot. -/
def fillRow : Except TopologyError (Array NeighborEntry) :=
  (Slot.regions tree.grid.dim).foldlM (tree.fillSlot ranks gid loc)
    (Array.replicate tree.rowLength .empty)

def entriesAcross (region : Region) : Except TopologyError (List NeighborEntry) :=
  match Slot.reciprocal? region with
  | none => .ok []
  | some destn => tree.neighborsAcross ranks gid loc region destn

theorem rowAt_eq_padded : tree.rowAt ranks gid loc =
    List.map (padded (Slot.width tree.grid.dim) .empty) <$>
      (Slot.regions tree.grid.dim).mapM (tree.entriesAcross ranks gid loc) := by
  have same (region : Region) : tree.slotEntries ranks gid loc region =
      padded (Slot.width tree.grid.dim) .empty <$> tree.entriesAcross ranks gid loc region := by
    rw [slotEntries, entriesAcross]
    cases Slot.reciprocal? region with
    | none => rfl
    | some destn => rfl
  rw [← Outcome.mapM_map_result, rowAt, funext same]

theorem short_of_entriesAcross {made : List (List NeighborEntry)}
    (run : (Slot.regions tree.grid.dim).mapM (tree.entriesAcross ranks gid loc) = .ok made) :
    made.length = Slot.count tree.grid.dim ∧
      ∀ part ∈ made, part.length ≤ Slot.width tree.grid.dim := by
  have positive := tree.grid.one_le_dim
  have bounded := tree.grid.dim_le_three
  have paired := Outcome.mapM_ok_iff.1 run
  constructor
  · rw [← paired.length_eq, Slot.length_regions positive bounded]
  · intro part member
    obtain ⟨r, listed, across⟩ := Outcome.exists_left_of_mem paired member
    obtain ⟨slot, listed⟩ := List.getElem?_of_mem listed
    obtain ⟨outward, valid, destn, reciprocal⟩ := Slot.outward_of_regions positive bounded listed
    rw [entriesAcross, Slot.reciprocal?, reciprocal] at across
    exact length_neighborsAcross_le outward valid across

theorem fillSlot_eq {slot : Nat} {region : Region}
    (listed : (Slot.regions tree.grid.dim)[slot]? = some region) (row : Array NeighborEntry) :
    tree.fillSlot ranks gid loc row region =
      (fun found => writeFrom row (slot * Slot.width tree.grid.dim) found) <$>
        tree.entriesAcross ranks gid loc region := by
  have positive := tree.grid.one_le_dim
  have bounded := tree.grid.dim_le_three
  obtain ⟨index, _⟩ := Slot.index?_of_regions positive bounded listed
  obtain ⟨_, _, destn, reciprocal⟩ := Slot.outward_of_regions positive bounded listed
  rw [fillSlot, entriesAcross, Slot.reciprocal?, index, reciprocal]
  rfl

/-- Filling a row gives the slots end to end, or the same error. -/
theorem fillRow_eq : tree.fillRow ranks gid loc =
    (fun slots => slots.flatten.toArray) <$> tree.rowAt ranks gid loc := by
  have run := Outcome.foldlM_made
    (fun row slot found => writeFrom row (slot * Slot.width tree.grid.dim) found) 0
    (fun slot region listed row => by
      rw [Nat.zero_add]
      exact tree.fillSlot_eq ranks gid loc listed row)
    (Array.replicate tree.rowLength NeighborEntry.empty)
  rw [fillRow, run, rowAt_eq_padded]
  cases made : (Slot.regions tree.grid.dim).mapM (tree.entriesAcross ranks gid loc) with
  | error refused => rfl
  | ok parts =>
      obtain ⟨length, short⟩ := short_of_entriesAcross tree ranks gid loc made
      have whole := writeParts_blanks NeighborEntry.empty short
      rw [length, List.flatMap_def] at whole
      exact congrArg Except.ok whole

end BlockTree

namespace Topology

def blanks {β : Type} (blank : β) (length : Nat) : StagedArray β :=
  (StagedArray.filled 0 blank).resize length blank

def writeGids (blocks : Span) (table : Array Int) : Except TopologyError (Array Int) :=
  blocks.toList.zipIdx.foldlM (fun table (gid, position) => do
    return table.setIfInBounds position (← NeighborEntry.field gid)) table

def writeFlags {β : Type} (value : BoundaryFlag → β) (flags : List (FaceMap BoundaryFlag))
    (table : Array β) : Array β :=
  flags.zipIdx.foldl (fun table (flags, position) =>
    Face.all.foldl (fun table face =>
      table.setIfInBounds (position * 6 + face.linear) (value (flags face))) table) table

/-- Builds the tables of a span by writing them in place. -/
def buildInPlace {α : Type} [CostNumber α] (tree : BlockTree) (conds : BoundaryConds)
    (blocks : Span) (ranks : Array Nat) : Except TopologyError (Topology α) := do
  if blocks.stop < blocks.start || tree.numLeaves < blocks.stop then
    throw (.invalidRange blocks.start blocks.stop tree.numLeaves)
  if ranks.size ≠ tree.numLeaves then
    throw (.rankCount tree.numLeaves ranks.size)
  let locations := (blocks.slice tree.locations).toList
  let levels := locations.map fun loc => (loc.level : Int)
  let flags := locations.map fun loc => tree.grid.classify conds loc
  let gids ← writeGids blocks (blanks (-1) blocks.size).host
  let rows ← (locations.zip blocks.toList).mapM fun (loc, gid) => tree.fillRow ranks gid loc
  return {
    dim := tree.grid.dim
    blocks
    gids := ((blanks (-1) blocks.size).fillWith gids).publish
    levels := ((blanks (-1) blocks.size).stage fun table => writeFrom table 0 levels).publish
    boundaries := ((blanks .block (blocks.size * 6)).stage (writeFlags id flags)).publish
    neighbors := ((blanks .empty (blocks.size * tree.rowLength)).stage fun table =>
      writeParts tree.rowLength table 0 (rows.map Array.toList)).publish
    physical := writeFlags BoundaryFlag.isPhysical flags (Array.replicate (blocks.size * 6) false)
    costs := Array.replicate blocks.size CostNumber.unit }

theorem publish_stage_blanks {β : Type} {blank : β} {length : Nat} {write : Array β → Array β}
    {values : List β} (written : write (Array.replicate length blank) = values.toArray) :
    ((blanks blank length).stage write).publish = publishedTable blank values := by
  simp only [blanks, StagedArray.resize, StagedArray.stage, StagedArray.publish, publishedTable,
    StagedArray.fillWith, written, if_true]

theorem writeGids_eq (blocks : Span) : writeGids blocks (blanks (-1) blocks.size).host =
    List.toArray <$> blocks.toList.mapM NeighborEntry.field := by
  have steps (index : Nat) (entry : Nat × Nat) (listed : blocks.toList.zipIdx[index]? = some entry)
      (table : Array Int) :
      (do return table.setIfInBounds entry.2 (← NeighborEntry.field entry.1)) =
        (fun word => table.setIfInBounds (0 + index) word) <$> NeighborEntry.field entry.1 := by
    have place : entry.2 = 0 + index := by
      rw [List.getElem?_zipIdx] at listed
      obtain ⟨gid, _, rfl⟩ := Option.map_eq_some_iff.1 listed
      rfl
    rw [place]
    rfl
  have run := Outcome.foldlM_made (fun table position (word : Int) => table.setIfInBounds position word)
    0 steps (blanks (-1) blocks.size).host
  have plain : blocks.toList.zipIdx.mapM (fun entry => NeighborEntry.field entry.1) =
      blocks.toList.mapM NeighborEntry.field := by
    have named := List.mapM_map (f := Prod.fst) (g := NeighborEntry.field) (l := blocks.toList.zipIdx)
    rw [List.zipIdx_map_fst] at named
    exact named.symm
  rw [plain] at run
  refine run.trans ?_
  cases made : blocks.toList.mapM NeighborEntry.field with
  | error refused => rfl
  | ok words =>
      have length : words.length = blocks.size := by
        rw [← (Outcome.mapM_ok_iff.1 made).length_eq, Span.length_toList]
      have whole := writeFrom_blanks (-1) words
      rw [length] at whole
      exact congrArg Except.ok whole

theorem writeFlags_blanks {β : Type} (blank : β) (value : BoundaryFlag → β)
    (flags : List (FaceMap BoundaryFlag)) :
    writeFlags value flags (Array.replicate (flags.length * 6) blank) =
      (flags.flatMap fun flags => flags.toList.map value).toArray := by
  have even (part : List β) (member : part ∈ flags.map fun flags => flags.toList.map value) :
      part.length = 6 := by
    obtain ⟨flags, _, rfl⟩ := List.mem_map.1 member
    rfl
  have whole := writeParts_blanks blank fun part member => Nat.le_of_eq (even part member)
  rw [flatMap_padded _ even, List.length_map] at whole
  rw [List.flatMap_def, ← whole, writeFlags, writeParts, List.zipIdx_map, List.foldl_map]
  rfl

variable {tree : BlockTree} {ranks : Array Nat}

theorem mapM_fillRow (places : List (Location × Nat)) :
    (places.mapM fun (loc, gid) => tree.fillRow ranks gid loc) =
      List.map (fun slots => slots.flatten.toArray) <$>
        places.mapM fun (loc, gid) => tree.rowAt ranks gid loc := by
  rw [← Outcome.mapM_map_result]
  simp only [BlockTree.fillRow_eq]

theorem writeRows_blanks {places : List (Location × Nat)} {rows : List (List (List NeighborEntry))}
    (resolved : (places.mapM fun (loc, gid) => tree.rowAt ranks gid loc) = .ok rows) :
    writeParts tree.rowLength (Array.replicate (places.length * tree.rowLength) .empty) 0
        (rows.map List.flatten) = rows.flatten.flatten.toArray := by
  have paired := Outcome.mapM_ok_iff.1 resolved
  have even (part : List NeighborEntry) (member : part ∈ rows.map List.flatten) :
      part.length = tree.rowLength := by
    obtain ⟨slots, listed, rfl⟩ := List.mem_map.1 member
    obtain ⟨_, _, made⟩ := Outcome.exists_left_of_mem paired listed
    exact BlockTree.length_flatten_rowAt made
  have whole := writeParts_blanks NeighborEntry.empty
    fun part member => Nat.le_of_eq (even part member)
  rwa [flatMap_padded _ even, List.length_map, ← paired.length_eq, ← List.flatten_flatten] at whole

/-- Writing the tables in place gives the topology that laying them out end to end gives, or the same
error. -/
theorem buildInPlace_eq {α : Type} [CostNumber α] (tree : BlockTree) (conds : BoundaryConds)
    (blocks : Span) (ranks : Array Nat) :
    (buildInPlace tree conds blocks ranks : Except TopologyError (Topology α)) =
      build tree conds blocks ranks := by
  unfold buildInPlace build
  by_cases outside : (blocks.stop < blocks.start || tree.numLeaves < blocks.stop) = true
  · rw [if_pos outside, if_pos outside]
    rfl
  rw [if_neg outside, if_neg outside]
  by_cases uncovered : ranks.size ≠ tree.numLeaves
  · rw [if_pos uncovered, if_pos uncovered]
    rfl
  rw [if_neg uncovered, if_neg uncovered]
  have length : (blocks.slice tree.locations).toList.length = blocks.size := by
    simp only [Bool.or_eq_true, decide_eq_true_eq, not_or, Nat.not_lt] at outside
    exact length_slice_locations outside.2
  simp only [writeGids_eq, mapM_fillRow]
  generalize (blocks.slice tree.locations).toList = locations at length ⊢
  have even : (locations.zip blocks.toList).length = blocks.size := by
    rw [List.length_zip, length, Span.length_toList, Nat.min_self]
  cases blocks.toList.mapM NeighborEntry.field with
  | error refused => rfl
  | ok gids =>
      cases resolved : (locations.zip blocks.toList).mapM
          (fun (loc, gid) => tree.rowAt ranks gid loc) with
      | error refused => rfl
      | ok rows =>
          have levels := writeFrom_blanks (-1)
            (locations.map fun loc => (loc.level : Int))
          have boundaries := writeFlags_blanks BoundaryFlag.block id
            (locations.map fun loc => tree.grid.classify conds loc)
          have physical := writeFlags_blanks false BoundaryFlag.isPhysical
            (locations.map fun loc => tree.grid.classify conds loc)
          have neighbors := writeRows_blanks resolved
          rw [List.length_map, length] at levels boundaries physical
          rw [even] at neighbors
          have lists : (rows.map fun slots => slots.flatten.toArray).map Array.toList =
              rows.map List.flatten := by
            rw [List.map_map]
            rfl
          apply congrArg Except.ok
          rw [publish_stage_blanks levels, publish_stage_blanks boundaries, physical, lists,
            publish_stage_blanks neighbors]
          simp only [List.flatMap_map, List.map_flatMap, List.map_id]
          rfl

end Topology

end AdaptiveMesh
