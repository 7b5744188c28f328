import AdaptiveMesh.Proofs.Acceptance
import AdaptiveMesh.Proofs.Balance
import AdaptiveMesh.Proofs.Listing
import AdaptiveMesh.Proofs.Slots

/-!
# Rows

A slot of a block's row holds one entry for each image in the listing of the slot's direction, and is
filled up with empty entries. In a balanced tree every block has a row, so the rows tell exactly which
blocks touch which. Whatever the tree, the entry of one block for another is answered by an entry in
the slot that it names.
-/

namespace AdaptiveMesh

set_option autoImplicit false

namespace NeighborEntry

variable {ranks : Array Nat} {gid level destn value : Nat} {entry : NeighborEntry}

theorem field_ok_iff {word : Int} : field value = .ok word ↔ value < 2147483648 ∧ word = value := by
  unfold field
  split
  · simp [*, eq_comm]
  · simp [*]

theorem resolve_ok_iff : resolve ranks gid level destn = .ok entry ↔
    ∃ rank, ranks[gid]? = some rank ∧
      (gid < 2147483648 ∧ level < 2147483648 ∧ rank < 2147483648 ∧ destn < 2147483648) ∧
      entry = ⟨gid, level, rank, destn⟩ := by
  unfold resolve
  cases ranks[gid]? with
  | none => simp
  | some rank =>
      simp only [Outcome.bind_ok_iff, Outcome.pure_ok_iff, field_ok_iff, Option.some.injEq]
      constructor
      · rintro ⟨_, ⟨small, rfl⟩, _, ⟨low, rfl⟩, _, ⟨few, rfl⟩, _, ⟨slot, rfl⟩, rfl⟩
        exact ⟨rank, rfl, ⟨small, low, few, slot⟩, rfl⟩
      · rintro ⟨_, rfl, ⟨small, low, few, slot⟩, rfl⟩
        exact ⟨_, ⟨small, rfl⟩, _, ⟨low, rfl⟩, _, ⟨few, rfl⟩, _, ⟨slot, rfl⟩, rfl⟩

/-- Whether an entry names an image of a block, with the block's level and rank and a slot. -/
def Describes (ranks : Array Nat) (destn : Nat) (image : Nat × Location) (entry : NeighborEntry) :
    Prop :=
  ∃ rank, ranks[image.1]? = some rank ∧ entry = ⟨image.1, image.2.level, rank, destn⟩

theorem describes_of_resolve {image : Nat × Location}
    (made : resolve ranks image.1 image.2.level destn = .ok entry) :
    Describes ranks destn image entry := by
  obtain ⟨rank, known, _, rfl⟩ := resolve_ok_iff.1 made
  exact ⟨rank, known, rfl⟩

end NeighborEntry

namespace BlockTree

variable {tree : BlockTree} {gid other destn : Nat} {loc home target : Location} {r : Region}
  {turns : Triple Int} {ranks : Array Nat}

theorem facingLeaf_ok_iff {f : Octant → Node Nat} {o : Octant} {child : PlacedNode} :
    facingLeaf gid ⟨target, .ofChildren f⟩ o = .ok child ↔
      ∃ leaf, f o = .leaf leaf ∧ child = ⟨target.child o, .leaf leaf⟩ := by
  unfold facingLeaf PlacedNode.leafChild PlacedNode.child?
  simp only [Node.child_ofChildren]
  cases f o with
  | absent => simp [Node.isAbsent]
  | leaf a => simp [Node.isAbsent, PlacedNode.isLeaf, Node.isLeaf, eq_comm]
  | internal => simp [Node.isAbsent, PlacedNode.isLeaf, Node.isLeaf]

/-- The entries of a block for one direction describe the listing of that direction, one by one. All
that is listed lies at most one level away. -/
theorem neighborsAcross_listed {entries : List NeighborEntry} (fits : tree.Fits)
    (block : tree.location? gid = some loc) (valid : r.isValidFor tree.grid.dim = true)
    (run : tree.neighborsAcross ranks gid loc r destn = .ok entries) :
    ∃ listed, tree.Listing loc r listed ∧ List.Forall₂ (fun image entry =>
      NeighborEntry.resolve ranks image.1 image.2.level destn = .ok entry) listed entries ∧
      ∀ image ∈ listed, loc.level ≤ image.2.level + 1 ∧ image.2.level ≤ loc.level + 1 := by
  unfold neighborsAcross at run
  rcases findNeighbor_cases fits block valid with
    ⟨other, home, turns, answer, found, winds, inside⟩ |
    ⟨target, turns, f, answer, refined, proper, _, winds, step⟩ | answer
  · simp only [answer, PlacedNode.isLeaf, Node.isLeaf, if_true] at run
    split at run
    · cases run
    · rename_i near
      have listing := listing_block fits block valid found winds inside (by omega)
      split at run
      · rename_i skipped
        cases run
        rw [if_pos skipped] at listing
        exact ⟨[], listing, .nil, by simp⟩
      · rename_i kept
        rw [if_neg kept] at listing
        obtain ⟨entry, made, same⟩ := Outcome.bind_ok_iff.1 run
        cases same
        have coarser := Location.level_le_of_contains inside
        change home.level ≤ loc.level at coarser
        refine ⟨_, listing, .cons made .nil, fun image member => ?_⟩
        rw [List.mem_singleton.1 member, RootGrid.level_image]
        omega
  · simp only [answer, PlacedNode.isLeaf, Node.isLeaf_ofChildren, Bool.false_eq_true, if_false,
      Outcome.mapM_ok_iff, Outcome.bind_ok_iff, facingLeaf_ok_iff] at run
    have leaves (o : Octant) (near : o ∈ r.reverse.adjacentOctants tree.grid.dim) :
        f o = .leaf ((f o).value?.getD 0) := by
      obtain ⟨entry, _, _, ⟨leaf, ends, _⟩, _⟩ := Outcome.exists_right_of_mem run near
      rw [ends]
      rfl
    refine ⟨_, listing_refined fits block valid answer refined proper winds step leaves, ?_, ?_⟩
    · rw [List.forall₂_map_left_iff]
      refine run.imp fun o entry made => ?_
      obtain ⟨_, ⟨leaf, ends, rfl⟩, made⟩ := made
      have level : target.level = loc.level := (congrArg Location.level step).symm
      rw [ends]
      change NeighborEntry.resolve ranks leaf (target.level + 1) destn = _ at made
      rwa [level] at made
    · intro image member
      obtain ⟨o, _, same⟩ := List.mem_map.1 member
      rw [← same, Location.level_child]
      change loc.level ≤ loc.level + 1 + 1 ∧ loc.level + 1 ≤ loc.level + 1
      omega
  · simp only [answer] at run
    cases run
    exact ⟨[], listing_none fits block valid answer, .nil, by simp⟩

theorem facingLeaf_refined {f g : Octant → Node Nat} {o : Octant} (refined : f o = .ofChildren g) :
    facingLeaf gid ⟨target, .ofChildren f⟩ o = .error (.levelJump gid (target.child o)) := by
  simp only [facingLeaf, PlacedNode.leafChild, PlacedNode.child?, Node.child_ofChildren, refined]
  rfl

/-- The children of a refined node that face a block are leaves, unless the block touches another one
across two levels: a block below a refined child does. -/
theorem facing_leaf_or_jump {f : Octant → Node Nat} {o : Octant} (fits : tree.Fits)
    (block : tree.location? gid = some loc) (valid : r.isValidFor tree.grid.dim = true)
    (refined : tree.root.along target.path = .ofChildren f)
    (proper : Location.root.contains target = true) (domain : tree.grid.contains target = true)
    (winds : tree.grid.Winds turns) (step : loc.shifted r = tree.grid.image target turns)
    (near : o ∈ r.reverse.adjacentOctants tree.grid.dim) :
    (∃ leaf, f o = .leaf leaf) ∨ ((∃ g, f o = .ofChildren g) ∧ tree.Jumps loc) := by
  obtain ⟨bits, touches⟩ := (Region.mem_adjacentOctants tree.grid.dim_le_three
    (Region.isValidFor_reverse valid)).1 near
  have level : target.level = loc.level := (congrArg Location.level step).symm
  have fine : tree.grid.rootLevel ≤ target.level := level ▸ rootLevel_le_level block
  have placed : Location.ofPath target.path = target := Location.ofPath_path proper
  obtain ⟨_, below, foundBelow, _, deeper⟩ := exists_block_below refined
  rw [Location.length_path] at deeper
  have fitsChild : tree.grid.LevelFits (target.level + 1) := (fits.level foundBelow).mono deeper
  have domainChild := RootGrid.contains_child fitsChild fine domain bits
  have present := (child_present_iff refined o).2 (placed.symm ▸ domainChild)
  have ends : tree.root.along (target.path ++ [o]) = f o := by
    rw [Node.along_append, refined, Node.along_cons, Node.child_ofChildren, Node.along_nil]
  have placedChild : Location.ofPath (target.path ++ [o]) = target.child o := by
    rw [Location.ofPath_append_singleton, placed]
  rcases (f o).absent_or_leaf_or_children with gone | found | ⟨g, deep⟩
  · exact absurd gone present
  · exact .inl found
  · have faces : loc.Faces r ((loc.shifted r).child o) := by
      rw [Location.faces_iff_of_finer rfl, Location.octant_child]
      exact ⟨Location.contains_child _ o, touches⟩
    have touch : (tree.grid.image (Location.ofPath (target.path ++ [o])) turns).Touches loc := by
      rw [placedChild, RootGrid.image_child winds fitsChild fine, ← step]
      exact Location.touches_comm.1 faces.1
    have deepEnds := ends.trans deep
    -- a refined child has a leaf below that touches the block, two levels finer
    obtain ⟨other, home, found, within, touching⟩ := exists_touching_block fits block winds
      deepEnds (Node.ofChildren_ne_absent g) (placedChild.symm ▸ domainChild)
      (by rw [List.length_append, Location.length_path]; omega) touch
    have finer := lt_level_of_refined deepEnds found within
    rw [List.length_append, Location.length_path, List.length_singleton] at finer
    exact .inr ⟨⟨g, deep⟩, home, mem_locations_iff.2 ⟨other, found⟩,
      ⟨turns, winds, Location.touches_comm.1 touching⟩, by omega⟩

theorem neighborsAcross_ok_or_jump (fits : tree.Fits) (block : tree.location? gid = some loc)
    (valid : r.isValidFor tree.grid.dim = true)
    (named : ∀ other home, tree.location? other = some home →
      ∃ entry, NeighborEntry.resolve ranks other home.level destn = .ok entry) :
    (∃ entries, tree.neighborsAcross ranks gid loc r destn = .ok entries) ∨
      ((∃ neighbor, tree.neighborsAcross ranks gid loc r destn =
        .error (.levelJump gid neighbor)) ∧ tree.Jumps loc) := by
  unfold neighborsAcross
  rcases findNeighbor_cases fits block valid with
    ⟨other, home, turns, answer, found, winds, inside⟩ |
    ⟨target, turns, f, answer, refined, proper, domain, winds, step⟩ | answer
  · simp only [answer, PlacedNode.isLeaf, Node.isLeaf, if_true]
    by_cases jump : 1 < loc.level - home.level
    · right
      rw [if_pos jump]
      exact ⟨⟨home, rfl⟩, home, mem_locations_iff.2 ⟨other, found⟩,
        ⟨turns, winds, Location.touches_of_contains_shifted inside⟩, by omega⟩
    · left
      rw [if_neg jump]
      split
      · exact ⟨[], rfl⟩
      · obtain ⟨entry, made⟩ := named other home found
        exact ⟨[entry], Outcome.bind_ok_iff.2 ⟨entry, made, rfl⟩⟩
  · simp only [answer, PlacedNode.isLeaf, Node.isLeaf_ofChildren, Bool.false_eq_true, if_false]
    have facing (o : Octant) (near : o ∈ r.reverse.adjacentOctants tree.grid.dim) :=
      facing_leaf_or_jump fits block valid refined proper domain winds step near
    have listed (o : Octant) (leaf : Nat) (ends : f o = .leaf leaf) : ∃ entry,
        (facingLeaf gid ⟨target, .ofChildren f⟩ o >>= entryFor ranks destn) = .ok entry := by
      obtain ⟨entry, made⟩ := named leaf _ (location?_child proper refined ends)
      exact ⟨entry, Outcome.bind_ok_iff.2 ⟨_, facingLeaf_ok_iff.2 ⟨leaf, ends, rfl⟩, made⟩⟩
    cases run : (r.reverse.adjacentOctants tree.grid.dim).mapM fun o =>
        facingLeaf gid ⟨target, .ofChildren f⟩ o >>= entryFor ranks destn with
    | ok entries => exact .inl ⟨entries, rfl⟩
    | error failure =>
        obtain ⟨o, near, failed⟩ := Outcome.exists_of_mapM_error run
        rcases facing o near with ⟨leaf, ends⟩ | ⟨⟨g, deep⟩, jumps⟩
        · obtain ⟨entry, made⟩ := listed o leaf ends
          rw [made] at failed
          cases failed
        · rw [facingLeaf_refined deep] at failed
          cases failed
          exact .inr ⟨⟨_, rfl⟩, jumps⟩
  · exact .inl ⟨[], by simp only [answer]⟩

theorem length_neighborsAcross_le {entries : List NeighborEntry} (outward : r ≠ .central)
    (valid : r.isValidFor tree.grid.dim = true)
    (run : tree.neighborsAcross ranks gid loc r destn = .ok entries) :
    entries.length ≤ Slot.width tree.grid.dim := by
  have room := Slot.width_pos tree.grid.dim
  have outwardReverse : r.reverse ≠ .central := by
    intro same
    apply outward
    rw [← Region.reverse_reverse r, same]
    rfl
  unfold neighborsAcross at run
  split at run
  · cases run
  · cases run
    exact Nat.zero_le _
  · split at run
    · split at run
      · cases run
      · split at run
        · cases run
          exact Nat.zero_le _
        · obtain ⟨entry, _, same⟩ := Outcome.bind_ok_iff.1 run
          cases same
          exact room
    · rw [← (Outcome.mapM_ok_iff.1 run).length_eq]
      exact Slot.length_adjacentOctants_le tree.grid.one_le_dim tree.grid.dim_le_three outwardReverse
        (Region.isValidFor_reverse valid)

def slotOf (tree : BlockTree) (row : List NeighborEntry) (slot : Nat) : List NeighborEntry :=
  (row.drop (slot * Slot.width tree.grid.dim)).take (Slot.width tree.grid.dim)

/-- What a slot holds for a direction: entries for the listing of the direction, then empty ones. -/
def SlotHolds (tree : BlockTree) (ranks : Array Nat) (loc : Location) (r : Region) (destn : Nat)
    (held : List NeighborEntry) : Prop :=
  ∃ listed entries, tree.Listing loc r listed ∧
    List.Forall₂ (NeighborEntry.Describes ranks destn) listed entries ∧
    held = entries ++ List.replicate (Slot.width tree.grid.dim - entries.length) .empty

theorem slotEntries_ok_iff {entries : List NeighborEntry}
    (reciprocal : Slot.index? r.reverse = some destn) :
    tree.slotEntries ranks gid loc r = .ok entries ↔
      ∃ found, tree.neighborsAcross ranks gid loc r destn = .ok found ∧
        entries = found ++ List.replicate (Slot.width tree.grid.dim - found.length) .empty := by
  simp only [slotEntries, Slot.reciprocal?, reciprocal, Outcome.bind_ok_iff, Outcome.pure_ok_iff]
  exact exists_congr fun found => and_congr_right fun _ => eq_comm

theorem rowAt_even {slots : List (List NeighborEntry)} (run : tree.rowAt ranks gid loc = .ok slots) :
    slots.length = Slot.count tree.grid.dim ∧
      ∀ part ∈ slots, part.length = Slot.width tree.grid.dim := by
  have positive := tree.grid.one_le_dim
  have bounded := tree.grid.dim_le_three
  have paired := Outcome.mapM_ok_iff.1 run
  constructor
  · rw [← paired.length_eq, Slot.length_regions positive bounded]
  · intro part member
    obtain ⟨r, listed, made⟩ := Outcome.exists_left_of_mem paired member
    obtain ⟨slot, listed⟩ := List.getElem?_of_mem listed
    obtain ⟨outward, valid, destn, reciprocal⟩ := Slot.outward_of_regions positive bounded listed
    obtain ⟨found, across, rfl⟩ := (slotEntries_ok_iff reciprocal).1 made
    have room := length_neighborsAcross_le outward valid across
    rw [List.length_append, List.length_replicate]
    omega

theorem length_flatten_rowAt {slots : List (List NeighborEntry)}
    (run : tree.rowAt ranks gid loc = .ok slots) : slots.flatten.length = tree.rowLength := by
  obtain ⟨length, even⟩ := rowAt_even run
  rw [length_flatten_even even, length, rowLength]

theorem row_slots {row : List NeighborEntry} (fits : tree.Fits)
    (block : tree.location? gid = some loc) (run : tree.row? ranks gid = some (.ok row)) :
    row.length = tree.rowLength ∧ ∀ slot < Slot.count tree.grid.dim, ∃ r destn,
      (Slot.regions tree.grid.dim)[slot]? = some r ∧ Slot.index? r.reverse = some destn ∧
        tree.SlotHolds ranks loc r destn (tree.slotOf row slot) := by
  have positive := tree.grid.one_le_dim
  have bounded := tree.grid.dim_le_three
  rw [row?, block, Option.map_some, Option.some.injEq, Outcome.map_ok_iff] at run
  obtain ⟨slots, run, rfl⟩ := run
  have paired := Outcome.mapM_ok_iff.1 run
  obtain ⟨length, even⟩ := rowAt_even run
  refine ⟨length_flatten_rowAt run, fun slot bound => ?_⟩
  have here : slot < slots.length := by omega
  have there : slot < (Slot.regions tree.grid.dim).length := by
    rw [Slot.length_regions positive bounded]
    exact bound
  obtain ⟨_, valid, destn, reciprocal⟩ :=
    Slot.outward_of_regions positive bounded (List.getElem?_eq_getElem there)
  have made := paired.get there here
  obtain ⟨found, across, same⟩ := (slotEntries_ok_iff reciprocal).1 made
  obtain ⟨listed, listing, described, _⟩ := neighborsAcross_listed fits block valid across
  refine ⟨_, destn, List.getElem?_eq_getElem there, reciprocal, listed, found, listing,
    described.imp fun image entry => NeighborEntry.describes_of_resolve, ?_⟩
  rw [← same]
  exact flatten_part even (List.getElem?_eq_getElem here)

/-- A block has a row, or touches another block across a level jump and is refused for that. -/
theorem row_ok_or_jump (fits : tree.Fits) (few : tree.numLeaves ≤ 2147483648)
    (covered : ranks.size = tree.numLeaves) (small : ∀ rank ∈ ranks, rank < 2147483648)
    (block : tree.location? gid = some loc) :
    (∃ row, tree.row? ranks gid = some (.ok row)) ∨
      ((∃ neighbor, tree.row? ranks gid = some (.error (.levelJump gid neighbor))) ∧
        tree.Jumps loc) := by
  have named {destn : Nat} (slot : destn < 26) (other : Nat) (home : Location)
      (found : tree.location? other = some home) :
      ∃ entry, NeighborEntry.resolve ranks other home.level destn = .ok entry := by
    have bound := location?_lt found
    have level := (fits.level found).level_lt
    have inside : other < ranks.size := by omega
    have known : ranks[other]? = some ranks[other] := Array.getElem?_eq_getElem inside
    have rank := small ranks[other] (Array.getElem_mem inside)
    exact ⟨_, NeighborEntry.resolve_ok_iff.2 ⟨_, known, ⟨by omega, by omega, rank, by omega⟩, rfl⟩⟩
  rw [row?, block, Option.map_some]
  cases run : tree.rowAt ranks gid loc with
  | ok slots => exact .inl ⟨slots.flatten, rfl⟩
  | error failure =>
      obtain ⟨r, listed, failed⟩ := Outcome.exists_of_mapM_error run
      obtain ⟨slot, listed⟩ := List.getElem?_of_mem listed
      obtain ⟨index, valid⟩ :=
        Slot.index?_of_regions tree.grid.one_le_dim tree.grid.dim_le_three listed
      obtain ⟨destn, reciprocal, bound⟩ := Slot.index?_reverse_lt index
      simp only [slotEntries, Slot.reciprocal?, reciprocal] at failed
      rcases neighborsAcross_ok_or_jump fits block valid (named bound) with
        ⟨entries, across⟩ | ⟨⟨neighbor, across⟩, jumps⟩
      · rw [across] at failed
        cases failed
      · rw [across] at failed
        cases failed
        exact .inr ⟨⟨neighbor, rfl⟩, jumps⟩

theorem exists_row (fits : tree.Fits) (balanced : tree.Balanced)
    (few : tree.numLeaves ≤ 2147483648) (covered : ranks.size = tree.numLeaves)
    (small : ∀ rank ∈ ranks, rank < 2147483648) (block : tree.location? gid = some loc) :
    ∃ row, tree.row? ranks gid = some (.ok row) := by
  cases row_ok_or_jump fits few covered small block with
  | inl made => exact made
  | inr refused => exact absurd refused.2 (balanced_iff.1 balanced loc (mem_locations_iff.2 ⟨gid, block⟩))

/-- In a balanced tree every block has a row, and the slot of a direction holds exactly the images of
blocks that touch the block and lie in that direction: each once, in octant order, with its level and
rank, and followed by empty entries only. -/
theorem row_exact (fits : tree.Fits) (balanced : tree.Balanced)
    (few : tree.numLeaves ≤ 2147483648) (covered : ranks.size = tree.numLeaves)
    (small : ∀ rank ∈ ranks, rank < 2147483648) (block : tree.location? gid = some loc) :
    ∃ row, tree.row? ranks gid = some (.ok row) ∧ row.length = tree.rowLength ∧
      ∀ r, r ≠ .central → r.isValidFor tree.grid.dim = true →
        ∃ slot destn, Slot.index? r = some slot ∧ Slot.index? r.reverse = some destn ∧
          tree.SlotHolds ranks loc r destn (tree.slotOf row slot) := by
  obtain ⟨row, run⟩ := exists_row fits balanced few covered small block
  obtain ⟨length, slots⟩ := row_slots fits block run
  refine ⟨row, run, length, fun r outward valid => ?_⟩
  obtain ⟨slot, index, bound, listed⟩ :=
    Slot.exists_index tree.grid.one_le_dim tree.grid.dim_le_three outward valid
  obtain ⟨same, destn, again, reciprocal, holds⟩ := slots slot bound
  cases listed.symm.trans again
  exact ⟨slot, destn, index, reciprocal, holds⟩

/-- Two by two root blocks, periodic along the first axis. -/
def squareGrid : RootGrid where
  dim := 2
  blocks := ⟨2, 2, 1⟩
  periodic := ⟨true, false, false⟩
  one_le_dim := oblongGrid.one_le_dim
  dim_le_three := oblongGrid.dim_le_three
  blocks_pos := by decide
  blocks_degenerate := by decide
  active_of_periodic := by decide

def squareLeaves : List Location :=
  squareGrid.children ⟨1, ⟨0, 0, 0⟩⟩ ++ [⟨1, ⟨1, 0, 0⟩⟩, ⟨1, ⟨0, 1, 0⟩⟩, ⟨1, ⟨1, 1, 0⟩⟩]

private theorem exists_square : ∃ tree, ofLeaves squareGrid squareLeaves = .ok tree ∧
    tree.grid = squareGrid ∧ tree.locations = squareLeaves.toArray ∧ tree.Fits ∧ tree.Balanced := by
  have built : (ofLeaves squareGrid squareLeaves).toOption.map (fun tree =>
      (tree.grid, tree.locations)) = some (squareGrid, squareLeaves.toArray) := by
    decide +kernel
  cases run : ofLeaves squareGrid squareLeaves with
  | error e => rw [run] at built; cases built
  | ok tree =>
      rw [run] at built
      obtain ⟨grid, locations⟩ := Prod.mk.inj (Option.some.inj built)
      refine ⟨tree, rfl, grid, locations, ?_, ?_⟩
      · rw [Fits, grid, locations]
        decide
      · have levels : ∀ loc ∈ tree.locations, 1 ≤ loc.level ∧ loc.level ≤ 1 + 1 := by
          rw [locations]
          decide
        exact balanced_of_levels levels

/-- The unrefined block beside the corner, which meets two finer blocks on both sides. -/
theorem row_exact_square : ∃ tree row, ofLeaves squareGrid squareLeaves = .ok tree ∧
    tree.row? #[0, 0, 1, 1, 2, 2, 3] 4 = some (.ok row) ∧ row.length = tree.rowLength ∧
      ∀ r, r ≠ .central → r.isValidFor 2 = true →
        ∃ slot destn, Slot.index? r = some slot ∧ Slot.index? r.reverse = some destn ∧
          tree.SlotHolds #[0, 0, 1, 1, 2, 2, 3] ⟨1, ⟨1, 0, 0⟩⟩ r destn (tree.slotOf row slot) := by
  obtain ⟨tree, built, grid, locations, fits, balanced⟩ := exists_square
  have count : tree.numLeaves = 7 := by rw [numLeaves, locations]; rfl
  have block : tree.location? 4 = some ⟨1, ⟨1, 0, 0⟩⟩ := by rw [location?, locations]; rfl
  obtain ⟨row, run, length, slots⟩ := row_exact fits balanced (by omega) (by rw [count]; rfl)
    (by decide : ∀ rank ∈ #[0, 0, 1, 1, 2, 2, 3], rank < 2147483648) block
  exact ⟨tree, row, built, run, length, fun r outward valid => slots r outward (by rwa [grid])⟩

theorem slot_lt_of_mem {row : List NeighborEntry} {slot : Nat} {entry : NeighborEntry}
    (length : row.length = tree.rowLength) (member : entry ∈ tree.slotOf row slot) :
    slot < Slot.count tree.grid.dim := by
  by_contra beyond
  have outside : row.length ≤ slot * Slot.width tree.grid.dim := by
    rw [length, rowLength]
    exact Nat.mul_le_mul_right _ (not_lt.1 beyond)
  rw [slotOf, List.drop_eq_nil_of_le outside, List.take_nil] at member
  cases member

theorem SlotHolds.names {held : List NeighborEntry} {entry : NeighborEntry}
    (holds : tree.SlotHolds ranks loc r destn held) (member : entry ∈ held)
    (present : entry.isPresent = true) :
    ∃ other home rank, tree.location? other = some home ∧ ranks[other]? = some rank ∧
      entry = ⟨other, home.level, rank, destn⟩ := by
  obtain ⟨listed, entries, listing, described, rfl⟩ := holds
  rcases List.mem_append.1 member with inside | blank
  · obtain ⟨⟨other, place⟩, among, rank, known, rfl⟩ :=
      Outcome.exists_left_of_mem described inside
    obtain ⟨⟨home, turns, found, _, rfl⟩, _⟩ := (listing.exact _ _).1 among
    exact ⟨other, home, rank, found, known, rfl⟩
  · rw [(List.mem_replicate.1 blank).2] at present
    cases present

/-- An entry for a block in the slot of a direction is answered by an entry of that block, in its slot
of the reversed direction. -/
theorem SlotHolds.answered {slot : Nat} {held answers : List NeighborEntry} {entry : NeighborEntry}
    (fits : tree.Fits) (block : tree.location? gid = some loc)
    (found : tree.location? other = some home) (holds : tree.SlotHolds ranks loc r destn held)
    (answering : tree.SlotHolds ranks home r.reverse slot answers) (member : entry ∈ held)
    (names : entry.gid = other) :
    entry.destn = destn ∧ ∃ rank, ranks[gid]? = some rank ∧
      (⟨gid, loc.level, rank, slot⟩ : NeighborEntry) ∈ answers := by
  obtain ⟨listed, entries, listing, described, rfl⟩ := holds
  obtain ⟨back, backEntries, backListing, backDescribed, rfl⟩ := answering
  have present : entry ∈ entries := by
    refine (List.mem_append.1 member).resolve_right fun blank => ?_
    rw [(List.mem_replicate.1 blank).2] at names
    cases names
  obtain ⟨⟨third, place⟩, inside, rank, known, rfl⟩ :=
    Outcome.exists_left_of_mem described present
  have same : third = other := Int.ofNat_inj.1 names
  subst same
  obtain ⟨⟨around, turns, again, winds, rfl⟩, faces⟩ := (listing.exact _ _).1 inside
  cases found.symm.trans again
  have returned := (RootGrid.faces_image_comm winds (fits.level block) (fits.level found)
    (rootLevel_le_level block) (rootLevel_le_level found)).1 faces
  have listedBack := (backListing.exact gid _).2 ⟨⟨loc, _, block, winds.back, rfl⟩, returned⟩
  obtain ⟨answer, answerInside, rankBack, knownBack, rfl⟩ :=
    Outcome.exists_right_of_mem backDescribed listedBack
  exact ⟨rfl, rankBack, knownBack, List.mem_append_left _ answerInside⟩

theorem exists_reverse_slots {row answers : List NeighborEntry} {slot : Nat} (fits : tree.Fits)
    (block : tree.location? gid = some loc) (found : tree.location? other = some home)
    (run : tree.row? ranks gid = some (.ok row)) (runBack : tree.row? ranks other = some (.ok answers))
    (bound : slot < Slot.count tree.grid.dim) :
    ∃ r destn, Slot.index? r = some slot ∧ Slot.index? r.reverse = some destn ∧
      tree.SlotHolds ranks loc r destn (tree.slotOf row slot) ∧
      tree.SlotHolds ranks home r.reverse slot (tree.slotOf answers destn) := by
  have positive := tree.grid.one_le_dim
  have bounded := tree.grid.dim_le_three
  obtain ⟨r, destn, listed, reciprocal, holds⟩ := (row_slots fits block run).2 slot bound
  obtain ⟨index, valid⟩ := Slot.index?_of_regions positive bounded listed
  obtain ⟨place, indexBack, boundBack, listedBack⟩ := Slot.exists_index positive bounded
    (Slot.ne_central_of_index reciprocal) (Region.isValidFor_reverse valid)
  obtain ⟨again, origin, listedAgain, reciprocalBack, answering⟩ :=
    (row_slots fits found runBack).2 place boundBack
  cases listedBack.symm.trans listedAgain
  cases reciprocal.symm.trans indexBack
  rw [Region.reverse_reverse, index] at reciprocalBack
  cases reciprocalBack
  exact ⟨r, destn, index, reciprocal, holds, answering⟩

/-- Whatever the tree, if two blocks have rows, then the entry of one for the other names the slot of
the reversed direction, and there the other keeps an entry for the first, with its level and rank. -/
theorem rows_reciprocal {row answers : List NeighborEntry} {slot : Nat} {entry : NeighborEntry}
    (fits : tree.Fits) (block : tree.location? gid = some loc)
    (run : tree.row? ranks gid = some (.ok row)) (runBack : tree.row? ranks other = some (.ok answers))
    (member : entry ∈ tree.slotOf row slot) (names : entry.gid = other) :
    ∃ r destn rank, Slot.index? r = some slot ∧ Slot.index? r.reverse = some destn ∧
      entry.destn = destn ∧ ranks[gid]? = some rank ∧
      (⟨gid, loc.level, rank, slot⟩ : NeighborEntry) ∈ tree.slotOf answers destn := by
  have bound := slot_lt_of_mem (row_slots fits block run).1 member
  obtain ⟨home, found⟩ : ∃ home, tree.location? other = some home := by
    rw [row?] at runBack
    obtain ⟨home, found, _⟩ := Option.map_eq_some_iff.1 runBack
    exact ⟨home, found⟩
  obtain ⟨r, destn, index, reciprocal, holds, answering⟩ :=
    exists_reverse_slots fits block found run runBack bound
  obtain ⟨named, rank, known, answer⟩ := holds.answered fits block found answering member names
  exact ⟨r, destn, rank, index, reciprocal, named, known, answer⟩

/-- A finer block in the corner keeps the block across the periodic end in its slot for the lower
side, and is kept by it for the upper side. -/
theorem rows_reciprocal_square : ∃ tree row answers r destn rank,
    ofLeaves squareGrid squareLeaves = .ok tree ∧
    tree.row? #[0, 0, 1, 1, 2, 2, 3] 0 = some (.ok row) ∧
    tree.row? #[0, 0, 1, 1, 2, 2, 3] 4 = some (.ok answers) ∧
    (⟨4, 1, 2, 1⟩ : NeighborEntry) ∈ tree.slotOf row 0 ∧
    Slot.index? r = some 0 ∧ Slot.index? r.reverse = some destn ∧
    (1 : Int) = destn ∧ #[0, 0, 1, 1, 2, 2, 3][0]? = some rank ∧
    (⟨0, 2, (rank : Nat), 0⟩ : NeighborEntry) ∈ tree.slotOf answers destn := by
  obtain ⟨tree, built, grid, locations, fits, balanced⟩ := exists_square
  have count : tree.numLeaves = 7 := by rw [numLeaves, locations]; rfl
  have corner : tree.location? 0 = some ⟨2, ⟨0, 0, 0⟩⟩ := by rw [location?, locations]; rfl
  have beside : tree.location? 4 = some ⟨1, ⟨1, 0, 0⟩⟩ := by rw [location?, locations]; rfl
  have small : ∀ rank ∈ #[0, 0, 1, 1, 2, 2, 3], rank < 2147483648 := by decide
  obtain ⟨row, run⟩ := exists_row fits balanced (by omega) (by rw [count]; rfl) small corner
  obtain ⟨answers, runBack⟩ := exists_row fits balanced (by omega) (by rw [count]; rfl) small beside
  have computed : ((ofLeaves squareGrid squareLeaves).toOption.all fun tree =>
      (tree.row? #[0, 0, 1, 1, 2, 2, 3] 0).all fun run =>
        run.toOption.all fun row => ⟨4, 1, 2, 1⟩ ∈ tree.slotOf row 0) = true := by
    decide +kernel
  rw [built] at computed
  simp only [Except.toOption, Option.all_some, run, decide_eq_true_eq] at computed
  obtain ⟨r, destn, rank, index, reciprocal, named, known, answer⟩ :=
    rows_reciprocal fits corner run runBack computed rfl
  exact ⟨tree, row, answers, r, destn, rank, built, run, runBack, computed, index, reciprocal,
    named, known, answer⟩

end BlockTree

end AdaptiveMesh
