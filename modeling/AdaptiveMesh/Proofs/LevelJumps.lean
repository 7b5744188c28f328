import AdaptiveMesh.Proofs.Published

/-!
# Level jumps

A block that touches another one more than one level away has no row, and every other block has one,
whatever the tree. A coarser block is met in the direction in which it lies, and a finer one lies below
a child that faces the block there, so no jump stays hidden. The tables of a whole tree can therefore
be built exactly if the tree is balanced.
-/

namespace AdaptiveMesh

set_option autoImplicit false

/-- Whether all that a block may write for a direction falls into one slot of its row. -/
def Slot.Room (dim : Nat) (r : Region) : Prop :=
  ∃ slot destn, index? r = some slot ∧ slot < count dim ∧ reciprocal? r = some destn ∧
    0 < width dim ∧ (r.reverse.adjacentOctants dim).length ≤ width dim

theorem Slot.room_of_regions {dim : Nat} {r : Region} (positive : 1 ≤ dim) (bounded : dim ≤ 3)
    (listed : r ∈ regions dim) : Room dim r := by
  obtain ⟨slot, listed⟩ := List.getElem?_of_mem listed
  have bound := (List.getElem?_eq_some_iff.1 listed).1
  rw [length_regions positive bounded] at bound
  obtain ⟨index, valid⟩ := index?_of_regions positive bounded listed
  obtain ⟨destn, reciprocal, _⟩ := index?_reverse_lt index
  exact ⟨slot, destn, index, bound, reciprocal, width_pos dim,
    length_adjacentOctants_le positive bounded (ne_central_of_index reciprocal)
      (Region.isValidFor_reverse valid)⟩

namespace BlockTree

variable {tree : BlockTree} {gid : Nat} {loc : Location} {r : Region} {ranks : Array Nat}
  {row : List NeighborEntry}

theorem neighborsAcross_of_row (block : tree.location? gid = some loc)
    (run : tree.row? ranks gid = some (.ok row)) (outward : r ≠ .central)
    (valid : r.isValidFor tree.grid.dim = true) :
    ∃ destn entries, tree.neighborsAcross ranks gid loc r destn = .ok entries := by
  rw [row?, block, Option.map_some, Option.some.injEq, Outcome.map_ok_iff] at run
  obtain ⟨slots, run, _⟩ := run
  obtain ⟨slot, index, _, listed⟩ :=
    Slot.exists_index tree.grid.one_le_dim tree.grid.dim_le_three outward valid
  obtain ⟨destn, reciprocal, _⟩ := Slot.index?_reverse_lt index
  obtain ⟨held, _, made⟩ :=
    Outcome.exists_right_of_mem (Outcome.mapM_ok_iff.1 run) (List.mem_of_getElem? listed)
  obtain ⟨entries, across, _⟩ := (slotEntries_ok_iff reciprocal).1 made
  exact ⟨destn, entries, across⟩

/-- A block that has a row lists whatever touches it, and all that is listed is near in level. -/
theorem not_jumps_of_row (fits : tree.Fits) (block : tree.location? gid = some loc)
    (run : tree.row? ranks gid = some (.ok row)) : ¬tree.Jumps loc := by
  intro jumps
  obtain ⟨home, member, ⟨turns, winds, touch⟩, apart⟩ := jumps
  obtain ⟨other, found⟩ := mem_locations_iff.1 member
  have valid := isValidFor_directionOf fits block found winds
  have outward := directionOf_ne_central fits block found winds (by omega) touch
  obtain ⟨destn, entries, across⟩ := neighborsAcross_of_row block run outward valid
  obtain ⟨listed, listing, _, near⟩ := neighborsAcross_listed fits block valid across
  have image : tree.IsImage other (tree.grid.image home turns) :=
    ⟨home, turns, found, winds, rfl⟩
  have levels := near _ ((listing.exact other _).2 ⟨image, touch, rfl⟩)
  rw [RootGrid.level_image] at levels
  omega

section

variable (fits : tree.Fits) (few : tree.numLeaves ≤ 2147483648)
  (covered : ranks.size = tree.numLeaves) (small : ∀ rank ∈ ranks, rank < 2147483648)

include fits few covered small

theorem row_of_jump (block : tree.location? gid = some loc) (jumps : tree.Jumps loc) :
    ∃ neighbor, tree.row? ranks gid = some (.error (.levelJump gid neighbor)) := by
  cases row_ok_or_jump fits few covered small block with
  | inl made =>
      obtain ⟨row, run⟩ := made
      exact absurd jumps (not_jumps_of_row fits block run)
  | inr refused => exact refused.1

theorem row_of_calm (block : tree.location? gid = some loc) (calm : ¬tree.Jumps loc) :
    ∃ row, tree.row? ranks gid = some (.ok row) ∧ row.length = tree.rowLength := by
  cases row_ok_or_jump fits few covered small block with
  | inl made =>
      obtain ⟨row, run⟩ := made
      exact ⟨row, run, (row_slots fits block run).1⟩
  | inr refused => exact absurd refused.2 calm

theorem exists_whole_build_iff {α : Type} [CostNumber α] (conds : BoundaryConds) :
    (∃ topology : Topology α, Topology.build tree conds ⟨0, tree.numLeaves⟩ ranks = .ok topology) ↔
      tree.Balanced := by
  constructor
  · intro built
    obtain ⟨topology, built⟩ := built
    rw [balanced_iff]
    intro loc member
    obtain ⟨gid, block⟩ := mem_locations_iff.1 member
    have bound : gid < (⟨0, tree.numLeaves⟩ : Span).size := location?_lt block
    obtain ⟨home, row, found, shows⟩ := Topology.shows_of_build built bound
    have run := shows.run
    rw [Nat.zero_add] at run
    exact not_jumps_of_row fits block run
  · intro balanced
    exact Topology.exists_build fits balanced few covered small (Nat.zero_le _) le_rfl conds

end

/-- Exactly the blocks that touch another one more than one level away are refused a row, for that and
for no other reason, and everything is written inside the row. The tables of all blocks can be built
exactly if the tree is balanced. -/
theorem rows_refuse_level_jumps {α : Type} [CostNumber α] (fits : tree.Fits)
    (few : tree.numLeaves ≤ 2147483648) (covered : ranks.size = tree.numLeaves)
    (small : ∀ rank ∈ ranks, rank < 2147483648) :
    (∀ gid loc, tree.location? gid = some loc →
      (tree.Jumps loc →
        ∃ neighbor, tree.row? ranks gid = some (.error (.levelJump gid neighbor))) ∧
      (¬tree.Jumps loc →
        ∃ row, tree.row? ranks gid = some (.ok row) ∧ row.length = tree.rowLength)) ∧
    (∀ r ∈ Slot.regions tree.grid.dim, Slot.Room tree.grid.dim r) ∧
    ∀ conds, (∃ topology : Topology α,
      Topology.build tree conds ⟨0, tree.numLeaves⟩ ranks = .ok topology) ↔ tree.Balanced := by
  refine ⟨fun gid loc block => ⟨?_, ?_⟩, ?_, ?_⟩
  · exact row_of_jump fits few covered small block
  · exact row_of_calm fits few covered small block
  · intro r listed
    exact Slot.room_of_regions tree.grid.one_le_dim tree.grid.dim_le_three listed
  · exact exists_whole_build_iff fits few covered small

/-- The leaves of a tree on `squareGrid` whose corner is refined twice. The finest touch the block at
the other end of the ring. -/
def steepLeaves : List Location :=
  squareGrid.children ⟨2, ⟨0, 0, 0⟩⟩ ++ squareLeaves.tail

/-- The block beside the corner is refused for the jump across the end of the ring, the one diagonally
opposite has a row, and the tables of all blocks can not be built. -/
theorem rows_refuse_level_jumps_steep : ∃ tree, ofLeaves squareGrid steepLeaves = .ok tree ∧
    tree.Jumps ⟨1, ⟨1, 0, 0⟩⟩ ∧
    (∃ neighbor, tree.row? (Array.replicate 10 0) 7 = some (.error (.levelJump 7 neighbor))) ∧
    ¬tree.Jumps ⟨1, ⟨1, 1, 0⟩⟩ ∧
    (∃ row, tree.row? (Array.replicate 10 0) 9 = some (.ok row) ∧ row.length = tree.rowLength) ∧
    ¬∃ topology : Topology Rat,
      Topology.build tree (.fill .reflect) ⟨0, 10⟩ (Array.replicate 10 0) = .ok topology := by
  have computed : (ofLeaves squareGrid steepLeaves).toOption.any (fun tree =>
      tree.grid = squareGrid && tree.locations = steepLeaves.toArray &&
        (tree.row? (Array.replicate 10 0) 9).all Except.isOk) = true := by
    decide +kernel
  obtain ⟨tree, built, computed⟩ := Outcome.exists_ok_of_any computed
  simp only [Bool.and_eq_true, decide_eq_true_eq] at computed
  obtain ⟨⟨grid, locations⟩, hasRow⟩ := computed
  have count : tree.numLeaves = 10 := by rw [numLeaves, locations]; rfl
  have fits : tree.Fits := by
    rw [Fits, grid, locations]
    decide
  obtain ⟨rows, _, whole⟩ := rows_refuse_level_jumps (α := Rat) fits (by omega)
    (by rw [count]; rfl) (by decide : ∀ rank ∈ Array.replicate 10 0, rank < 2147483648)
  have beside : tree.location? 7 = some ⟨1, ⟨1, 0, 0⟩⟩ := by rw [location?, locations]; rfl
  have opposite : tree.location? 9 = some ⟨1, ⟨1, 1, 0⟩⟩ := by rw [location?, locations]; rfl
  have jumps : tree.Jumps ⟨1, ⟨1, 0, 0⟩⟩ := by
    refine ⟨⟨3, ⟨0, 0, 0⟩⟩, ?_, ⟨⟨1, 0, 0⟩, ?_⟩, by decide⟩
    · rw [locations, List.mem_toArray]
      decide
    · rw [grid]
      decide
  have calm : ¬tree.Jumps ⟨1, ⟨1, 1, 0⟩⟩ := by
    intro jumps
    obtain ⟨neighbor, refused⟩ := (rows 9 _ opposite).1 jumps
    rw [refused] at hasRow
    cases hasRow
  rw [count] at whole
  refine ⟨tree, built, jumps, (rows 7 _ beside).1 jumps, calm, (rows 9 _ opposite).2 calm, ?_⟩
  rw [whole]
  intro balanced
  exact balanced_iff.1 balanced _ (mem_locations_iff.2 ⟨7, beside⟩) jumps

end BlockTree

end AdaptiveMesh
