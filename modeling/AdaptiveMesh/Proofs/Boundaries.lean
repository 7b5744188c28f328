import AdaptiveMesh.Proofs.Life
import AdaptiveMesh.Proofs.Steps

/-!
# Boundaries

Where the domain ends is decided twice: the flags of a block compare its coordinates with the extents,
and the entries for its neighbours come from steps through the tree. The two agree about every face. A
step across a face stays in the domain exactly where the flag says so; from an edge of the domain it
leads around the ring, if the axis is periodic, to blocks on the opposite edge, and to nothing otherwise.
-/

namespace AdaptiveMesh

set_option autoImplicit false

namespace Region

variable {face : Face}

@[simp] theorem side_ofFace (face : Face) (axis : Axis) : (ofFace face).side axis =
    if axis = face.axis then if face.outer then .right else .left else .middle := by
  simp [ofFace, side]

theorem ofFace_ne_central (face : Face) : ofFace face ≠ .central := by
  intro same
  have middle : (ofFace face).side face.axis = .middle := by
    rw [same, side, central, Triple.get_fill]
  rw [side_ofFace, if_pos rfl] at middle
  split at middle <;> cases middle

theorem isValidFor_ofFace {dim : Nat} (active : face.axis.val < dim) :
    (ofFace face).isValidFor dim = true := by
  rw [isValidFor_iff]
  intro axis degenerate
  have other : axis ≠ face.axis := by
    intro same
    rw [same] at degenerate
    omega
  rw [side_ofFace, if_neg other]

end Region

namespace MeshConfig

variable {config : MeshConfig} {grid : RootGrid}

/-- What a consistent configuration says about the faces of its root grid. -/
structure Describes (config : MeshConfig) (grid : RootGrid) : Prop where
  dim : grid.dim = config.dim
  noBlock : ∀ face, config.boundary face ≠ .block
  periodic : ∀ face : Face, face.axis.val < grid.dim →
    (config.boundary face).isPeriodic = grid.periodic face.axis

theorem describes_of_rootGrid (described : config.rootGrid = .ok grid) : config.Describes grid := by
  unfold rootGrid at described
  split at described
  · cases described
  · rename_i conditions
    obtain ⟨periodic, decided, made⟩ := Outcome.bind_ok_iff.1 described
    have paired : periodic = .ofFn (fun axis => config.isPeriodicAt axis false) ∧
        ∀ axis, config.isPeriodicAt axis false = config.isPeriodicAt axis true := by
      unfold periodicity at decided
      split at decided
      · cases decided
      · rename_i alike
        cases decided
        refine ⟨rfl, fun axis => ?_⟩
        simpa using List.find?_eq_none.1 alike axis axis.mem_all
    unfold RootGrid.create at made
    split at made
    · rename_i grid' created
      split at created
      · split at created
        · cases created
        · cases created
          cases made
          refine ⟨rfl, fun face same => ?_, fun face active => ?_⟩
          · exact List.find?_eq_none.1 conditions face face.mem_all (decide_eq_true same)
          · obtain ⟨axis, outer⟩ := face
            have inner : periodic axis = config.isPeriodicAt axis false := by
              rw [paired.1, Triple.get_ofFn]
            have within : axis.val < config.dim := active
            simp only [Triple.get_ofFn, within, decide_true, Bool.true_and, inner]
            cases outer with
            | false => rfl
            | true => exact (paired.2 axis).symm
      · cases created
    · cases made

end MeshConfig

theorem Location.faces_ofFace {loc place : Location} {face : Face}
    (inside : place.contains (loc.shifted (.ofFace face)) = true)
    (outside : place.contains loc ≠ true) : loc.Faces (.ofFace face) place := by
  obtain ⟨coarser, axes⟩ := contains_iff.1 inside
  have coarser : place.level ≤ loc.level := coarser
  have positive : (0 : Int) < 2 ^ (loc.level - place.level) := by positivity
  have spans (axis : Axis) := (Int.ediv_eq_iff_of_pos positive).1 (axes axis)
  simp only [lx_shifted, Region.side_ofFace] at spans
  -- along the other axes the place spans the block, so it misses the block along the axis of the face
  have beyond : ¬(place.lx face.axis * 2 ^ (loc.level - place.level) ≤ loc.lx face.axis ∧
      loc.lx face.axis < (place.lx face.axis + 1) * 2 ^ (loc.level - place.level)) := by
    intro bounds
    apply outside
    rw [contains_iff]
    refine ⟨coarser, fun axis => (Int.ediv_eq_iff_of_pos positive).2 ?_⟩
    by_cases across : axis = face.axis
    · rw [across]
      have next := add_one_mul (place.lx face.axis) ((2 : Int) ^ (loc.level - place.level))
      constructor <;> omega
    · have bounds := spans axis
      rw [if_neg across] at bounds
      simpa [Side.offset] using bounds
  rw [faces_iff_axes]
  intro axis
  refine ⟨touches_of_contains_shifted inside axis, ?_⟩
  have bounds := spans axis
  simp only [sideOf, lowerAt, upperAt, max_eq_left coarser, Nat.sub_self, pow_zero, mul_one,
    add_one_mul, Region.side_ofFace] at bounds beyond ⊢
  by_cases across : axis = face.axis
  · subst across
    generalize place.lx face.axis * 2 ^ (loc.level - place.level) = start at *
    generalize (2 : Int) ^ (loc.level - place.level) = size at *
    cases outer : face.outer <;> simp only [outer, if_true, Bool.false_eq_true, if_false,
      Side.offset] at bounds ⊢ <;> split_ifs <;> first | rfl | omega
  · rw [if_neg across] at bounds ⊢
    generalize place.lx axis * 2 ^ (loc.level - place.level) = start at *
    generalize (2 : Int) ^ (loc.level - place.level) = size at *
    simp only [Side.offset] at bounds
    split_ifs <;> first | rfl | omega

theorem Location.ends_of_faces {loc place : Location} {face : Face}
    (faces : loc.Faces (.ofFace face) place) :
    if face.outer then loc.upperAt (max loc.level place.level) face.axis =
      place.lowerAt (max loc.level place.level) face.axis
    else place.upperAt (max loc.level place.level) face.axis =
      loc.lowerAt (max loc.level place.level) face.axis := by
  obtain ⟨⟨left, right⟩, beside⟩ := faces_iff_axes.1 faces face.axis
  rw [sideOf, Region.side_ofFace, if_pos rfl] at beside
  cases outer : face.outer <;> simp only [outer, if_true, Bool.false_eq_true, if_false] at beside ⊢
  · split_ifs at beside with below
    exact le_antisymm below left
  · split_ifs at beside with below beyond
    exact le_antisymm beyond right

namespace RootGrid

variable {grid : RootGrid} {loc : Location} {face : Face}

section

variable (inside : grid.Holds loc) (active : face.axis.val < grid.dim)

include inside

theorem holds_ofFace_iff : grid.Holds (loc.shifted (.ofFace face)) ↔
    0 ≤ (loc.shifted (.ofFace face)).lx face.axis ∧
      (loc.shifted (.ofFace face)).lx face.axis < grid.cells loc.level face.axis := by
  constructor
  · exact fun holds => holds face.axis
  · intro across axis
    by_cases same : axis = face.axis
    · rw [same]
      exact across
    · have bounds := inside axis
      rw [Location.lx_shifted, Region.side_ofFace, if_neg same, Side.offset, add_zero]
      exact bounds

include active

theorem exits_ofFace_iff : grid.Exits (loc.shifted (.ofFace face)) ↔
    ¬grid.Holds (loc.shifted (.ofFace face)) ∧ grid.periodic face.axis = false := by
  constructor
  · intro exits
    obtain ⟨axis, _, still, outside⟩ := exits
    by_cases same : axis = face.axis
    · rw [same] at still
      exact ⟨fun holds => outside (holds axis), still⟩
    · have bounds := inside axis
      rw [Location.lx_shifted, Region.side_ofFace, if_neg same, Side.offset, add_zero] at outside
      exact absurd bounds outside
  · intro left
    obtain ⟨outside, still⟩ := left
    rw [holds_ofFace_iff inside] at outside
    exact ⟨face.axis, active, still, outside⟩

/-- A block's face lies on the edge of the domain if the step across it leaves the domain. -/
theorem onDomainEdge_iff (fits : grid.LevelFits loc.level) (fine : grid.rootLevel ≤ loc.level) :
    grid.onDomainEdge loc face = true ↔ ¬grid.Holds (loc.shifted (.ofFace face)) := by
  have bounds := inside face.axis
  rw [holds_ofFace_iff inside, Location.lx_shifted, Region.side_ofFace, if_pos rfl, onDomainEdge,
    if_neg (Nat.not_le.2 active), extent_eq_cells fits fine]
  cases face.outer <;> simp only [if_true, Bool.false_eq_true, if_false, Side.offset,
    decide_eq_true_eq] <;> omega

end

theorem eq_extent_of_whole {distance extent turn : Int} (positive : 0 < distance)
    (bounded : distance ≤ extent) (whole : distance = extent * turn) : distance = extent :=
  le_antisymm bounded (Int.le_of_dvd positive ⟨turn, whole⟩)

section

variable {fine : Nat} (fits : grid.LevelFits fine) (coarse : grid.rootLevel ≤ loc.level)
  (above : loc.level ≤ fine) (active : face.axis.val < grid.dim)

include fits coarse above active

theorem extent_eq_of_le : grid.extent fine face.axis =
    grid.extent loc.level face.axis * 2 ^ (fine - loc.level) := by
  have deeper : fine = loc.level + (fine - loc.level) := by omega
  have doubled := extent_add (fine - loc.level) (deeper ▸ fits) coarse active
  rwa [← deeper] at doubled

theorem ends_inside (inside : grid.contains loc = true) : 0 ≤ loc.lowerAt fine face.axis ∧
    loc.upperAt fine face.axis ≤ grid.extent fine face.axis := by
  obtain ⟨lower, upper⟩ := contains_iff.1 inside face.axis
  rw [extent_eq_of_le fits coarse above active]
  constructor
  · exact mul_nonneg lower (by positivity)
  · exact mul_le_mul_of_nonneg_right (Int.add_one_le_of_lt upper) (by positivity)

theorem onDomainEdge_iff_ends : grid.onDomainEdge loc face = true ↔
    if face.outer then loc.upperAt fine face.axis = grid.extent fine face.axis
    else loc.lowerAt fine face.axis = 0 := by
  have positive : (2 : Int) ^ (fine - loc.level) ≠ 0 := by positivity
  rw [onDomainEdge, if_neg (Nat.not_le.2 active), extent_eq_of_le fits coarse above active,
    Location.upperAt, Location.lowerAt, mul_left_inj' positive, mul_eq_zero]
  cases face.outer with
  | true => simp [eq_sub_iff_add_eq]
  | false => simp

end

end RootGrid

namespace BlockTree

variable {tree : BlockTree} {gid other : Nat} {loc home : Location} {face : Face}
  {turns : Triple Int}

/-- A leaf around the cell across a face lies across the face, since it is not around the block. -/
theorem faces_of_around (fits : tree.Fits) (block : tree.location? gid = some loc)
    (found : tree.location? other = some home)
    (within : (tree.grid.image home turns).contains (loc.shifted (.ofFace face)) = true) :
    loc.Faces (.ofFace face) (tree.grid.image home turns) := by
  apply Location.faces_ofFace within
  intro back
  have same := (eq_of_contains_block found block
    (contains_of_image_contains fits found (fits.level block) (contains_block fits block) back)).2
  have equal := Location.eq_of_contains back (by rw [same, RootGrid.level_image])
  rw [equal] at within
  have shifted := Location.eq_of_contains within le_rfl
  have moved := congrArg (fun place : Location => place.lx face.axis) shifted
  simp only [Location.lx_shifted, Region.side_ofFace, if_true] at moved
  cases outer : face.outer <;> simp [outer, Side.offset] at moved

theorem exists_faces_of_refined {target : Location} {f : Octant → Node Nat} (fits : tree.Fits)
    (block : tree.location? gid = some loc) (winds : tree.grid.Winds turns)
    (step : loc.shifted (.ofFace face) = tree.grid.image target turns)
    (proper : Location.root.contains target = true) (inside : tree.grid.contains target = true)
    (refined : tree.root.along target.path = .ofChildren f) :
    ∃ other place, tree.IsImage other place ∧ loc.Faces (.ofFace face) place := by
  have level : target.level = loc.level := (congrArg Location.level step).symm
  have fine := rootLevel_le_level block
  have placed := Location.ofPath_path proper
  have touch : (tree.grid.image (Location.ofPath target.path) turns).Touches loc := by
    rw [placed, ← step]
    exact Location.touches_comm.1 (Location.touches_of_contains_shifted (Location.contains_refl _))
  obtain ⟨other, home, found, within, touching⟩ := exists_touching_block fits block winds refined
    (Node.ofChildren_ne_absent f) (placed.symm ▸ inside) (by rw [Location.length_path]; omega) touch
  rw [placed] at within
  have finer := Location.level_le_of_contains within
  refine ⟨other, _, ⟨home, turns, found, winds, rfl⟩, (Location.faces_iff_of_le ?_).2 ⟨?_, ?_⟩⟩
  · rw [RootGrid.level_image]
    omega
  · rw [step, RootGrid.contains_image_iff winds (fits.level found) (by omega)]
    exact within
  · exact Location.touches_comm.1 touching

/-- Across a face lies a block, unless the step across it leaves the domain for good. -/
theorem exists_faces_iff (fits : tree.Fits) (block : tree.location? gid = some loc)
    (active : face.axis.val < tree.grid.dim) :
    (∃ other place, tree.IsImage other place ∧ loc.Faces (.ofFace face) place) ↔
      ¬tree.grid.Exits (loc.shifted (.ofFace face)) := by
  have fine := rootLevel_le_level block
  have valid := Region.isValidFor_ofFace active
  have fitsLoc := fits.level block
  have fitsStep : tree.grid.LevelFits (loc.shifted (.ofFace face)).level := fitsLoc
  have flat (axis : Axis) (degenerate : tree.grid.dim ≤ axis.val) :
      (loc.shifted (.ofFace face)).lx axis = 0 :=
    lx_shifted_eq_zero (contains_block fits block) valid degenerate
  constructor
  · intro found exits
    obtain ⟨other, place, image, lies⟩ := found
    cases RootGrid.wrap_eq fitsStep fine flat with
    | inl left =>
        have empty := listing_none fits block valid (findNeighbor_none valid left.2)
        exact nomatch (empty.exact other place).2 ⟨image, lies⟩
    | inr stays => exact stays.1 exits
  · intro stays
    have near : tree.grid.rootLevel ≤ (loc.shifted (.ofFace face)).level + 62 :=
      fine.trans (Nat.le_add_right _ 62)
    have arrived := RootGrid.wrap_cases fitsStep near flat
    simp only [RootGrid.extent_eq_cells fitsStep fine] at arrived
    obtain ⟨target, turns, inside, winds, step⟩ := arrived.resolve_right fun left => stays left.1
    have level : target.level = loc.level := (congrArg Location.level step).symm
    have fitsTarget : tree.grid.LevelFits target.level := level ▸ fitsLoc
    have proper := RootGrid.root_contains fitsTarget (by omega) inside
    cases exists_cover fitsTarget (by omega) inside with
    | inl covered =>
        obtain ⟨other, home, found, around⟩ := covered
        refine ⟨other, _, ⟨home, turns, found, winds, rfl⟩, faces_of_around fits block found ?_⟩
        rw [step, RootGrid.contains_image_iff winds fitsTarget (rootLevel_le_level found)]
        exact around
    | inr refined =>
        obtain ⟨f, refined⟩ := refined
        exact exists_faces_of_refined fits block winds step proper inside refined

theorem Fits.common (fits : tree.Fits) (block : tree.location? gid = some loc)
    (found : tree.location? other = some home) : tree.grid.LevelFits (max loc.level home.level) := by
  cases Nat.le_total loc.level home.level with
  | inl finer =>
      rw [Nat.max_eq_right finer]
      exact fits.level found
  | inr coarser =>
      rw [Nat.max_eq_left coarser]
      exact fits.level block

/-- From an edge of the domain a block is seen across a face only around the ring, so that it lies on
the opposite edge. -/
theorem onDomainEdge_of_faces (fits : tree.Fits) (block : tree.location? gid = some loc)
    (found : tree.location? other = some home) (winds : tree.grid.Winds turns)
    (active : face.axis.val < tree.grid.dim) (edge : tree.grid.onDomainEdge loc face = true)
    (faces : loc.Faces (.ofFace face) (tree.grid.image home turns)) :
    tree.grid.onDomainEdge home face.reversed = true := by
  have opposite : face.reversed.axis.val < tree.grid.dim := active
  have fitsFine := fits.common block found
  have met := Location.ends_of_faces faces
  rw [RootGrid.level_image] at met
  generalize fine_eq : max loc.level home.level = fine at fitsFine met
  have coarseHome := rootLevel_le_level found
  have aboveHome : home.level ≤ fine := by omega
  rw [RootGrid.onDomainEdge_iff_ends fitsFine (rootLevel_le_level block) (by omega) active] at edge
  rw [RootGrid.onDomainEdge_iff_ends fitsFine coarseHome aboveHome opposite]
  rw [RootGrid.lowerAt_image winds fitsFine coarseHome aboveHome,
    RootGrid.upperAt_image winds fitsFine coarseHome aboveHome] at met
  obtain ⟨lower, upper⟩ := RootGrid.ends_inside fitsFine coarseHome aboveHome active
    (contains_block fits found)
  have width := Location.lowerAt_lt_upperAt home fine face.axis
  change if face.reversed.outer then home.upperAt fine face.axis = tree.grid.extent fine face.axis
    else home.lowerAt fine face.axis = 0
  generalize tree.grid.extent fine face.axis = extent at edge met upper ⊢
  -- from the other end of the domain to the block's end it is a whole number of turns
  by_cases outer : face.outer = true
  · have inner : ¬face.reversed.outer = true := by simp [Face.reversed, outer]
    rw [if_pos outer] at edge met
    rw [if_neg inner]
    have whole : extent - home.lowerAt fine face.axis = extent * turns face.axis := by
      rw [mul_comm]
      omega
    have rest := RootGrid.eq_extent_of_whole (by omega) (by omega) whole
    omega
  · have reversed : face.reversed.outer = true := by simpa [Face.reversed] using outer
    rw [if_neg outer] at edge met
    rw [if_pos reversed]
    have whole : home.upperAt fine face.axis = extent * -turns face.axis := by
      rw [mul_comm, neg_mul]
      omega
    exact RootGrid.eq_extent_of_whole (by omega) upper whole

namespace SlotHolds

variable {r : Region} {ranks : Array Nat} {destn : Nat} {held : List NeighborEntry}
  {entry : NeighborEntry} (holds : tree.SlotHolds ranks loc r destn held)

include holds

theorem empty_or_faces (member : entry ∈ held) : entry = .empty ∨
    ∃ (other : Nat) (home : Location) (turns : Triple Int), entry.gid = other ∧
      tree.location? other = some home ∧ tree.grid.Winds turns ∧
      loc.Faces r (tree.grid.image home turns) := by
  obtain ⟨listed, entries, listing, described, whole⟩ := holds
  rw [whole] at member
  cases List.mem_append.1 member with
  | inl inside =>
      obtain ⟨image, among, rank, _, named⟩ := Outcome.exists_left_of_mem described inside
      obtain ⟨⟨home, turns, found, winds, turned⟩, lies⟩ := (listing.exact image.1 image.2).1 among
      rw [turned] at lies
      exact .inr ⟨image.1, home, turns, by rw [named], found, winds, lies⟩
  | inr blank => exact .inl (List.mem_replicate.1 blank).2

theorem exists_present (across : ∃ other place, tree.IsImage other place ∧ loc.Faces r place) :
    ∃ entry ∈ held, entry.isPresent = true := by
  obtain ⟨listed, entries, listing, described, whole⟩ := holds
  obtain ⟨other, place, image⟩ := across
  obtain ⟨entry, inside, rank, _, named⟩ :=
    Outcome.exists_right_of_mem described ((listing.exact other place).2 image)
  refine ⟨entry, ?_, ?_⟩
  · rw [whole]
    exact List.mem_append_left _ inside
  · rw [named]
    rfl

/-- A slot is empty exactly if no block lies in its direction. -/
theorem empty_iff : (∀ entry ∈ held, entry = .empty) ↔
    ¬∃ other place, tree.IsImage other place ∧ loc.Faces r place := by
  constructor
  · intro empty across
    obtain ⟨entry, member, present⟩ := holds.exists_present across
    rw [empty entry member] at present
    cases present
  · intro nothing entry member
    apply (holds.empty_or_faces member).resolve_right
    intro named
    obtain ⟨other, home, turns, _, found, winds, lies⟩ := named
    exact nothing ⟨other, _, ⟨home, turns, found, winds, rfl⟩, lies⟩

end SlotHolds

end BlockTree

theorem FaceMap.getElem?_toList {β : Type} (m : FaceMap β) (face : Face) :
    m.toList[face.linear]? = some (m face) := by
  have listed : ∀ face : Face, Face.all[face.linear]? = some face := by
    intro face
    obtain ⟨axis, outer⟩ := face
    revert axis outer
    decide
  rw [toList, List.getElem?_map, listed]
  rfl

namespace Topology

variable {α : Type} [CostNumber α] {tree : BlockTree} {conds : BoundaryConds} {blocks : Span}
  {ranks : Array Nat} {topology : Topology α} {position : Nat} {loc : Location}

theorem flags_of_build (built : build tree conds blocks ranks = .ok topology)
    (bound : position < blocks.size) (block : tree.location? (blocks.start + position) = some loc) :
    topology.boundary? position = some (tree.grid.classify conds loc) ∧ ∀ face,
      topology.isPhysical? position face = some (tree.grid.classify conds loc face).isPhysical := by
  obtain ⟨_, inside, _, gids, rows, _, _, same⟩ := build_ok_iff.1 built
  generalize parts_eq : (blocks.slice tree.locations).toList.map
    (fun loc => (tree.grid.classify conds loc).toList) = parts
  have even (part : List BoundaryFlag) (member : part ∈ parts) : part.length = 6 := by
    rw [← parts_eq] at member
    obtain ⟨_, _, rfl⟩ := List.mem_map.1 member
    rfl
  have here : parts[position]? = some (tree.grid.classify conds loc).toList := by
    rw [← parts_eq, List.getElem?_map, getElem?_slice_locations inside bound, block]
    rfl
  constructor
  · rw [boundary?, same, device_publishedTable, List.flatMap_def, parts_eq, Nat.mul_comm,
      extract_flatten even here]
    exact FaceMap.ofList?_toList _
  · intro face
    have part := flatten_part even here
    have listed := (tree.grid.classify conds loc).getElem?_toList face
    rw [isPhysical?, same, List.getElem?_toArray, List.getElem?_map, List.flatMap_def, parts_eq,
      Nat.mul_comm]
    rw [← part, List.getElem?_take_of_lt face.linear_lt, List.getElem?_drop] at listed
    rw [listed]
    rfl

theorem lt_of_gid? {gid : Nat} (built : build tree conds blocks ranks = .ok topology)
    (shown : topology.gid? position = some gid) : position < blocks.size := by
  obtain ⟨_, _, _, gids, _, numbered, _, same⟩ := build_ok_iff.1 built
  obtain ⟨word, there, _⟩ := Option.map_eq_some_iff.1 shown
  rw [same, device_publishedTable, List.getElem?_toArray] at there
  have inside := (List.getElem?_eq_some_iff.1 there).1
  rwa [← (Outcome.mapM_ok_iff.1 numbered).length_eq, Span.length_toList] at inside

end Topology

namespace Mesh

variable {α : Type} [CostNumber α] {mesh start : Mesh α} {config : MeshConfig} {workers rank : Nat}
  {position gid : Nat} {loc : Location} {face : Face}

/-- The flags of a block. They follow from the tree and the configuration, so they are the same
whichever worker keeps the block. -/
def flags? (mesh : Mesh α) (gid : Nat) : Option (FaceMap BoundaryFlag) :=
  (mesh.tree.location? gid).map (mesh.tree.grid.classify mesh.config.boundary)

/-- Whether the flag of a block's face and the entries of the face's slot agree. -/
structure FaceAgrees (mesh : Mesh α) (loc : Location) (face : Face) (flag : BoundaryFlag)
    (held : Array NeighborEntry) : Prop where
  block_iff : flag = .block ↔ mesh.tree.grid.Holds (loc.shifted (.ofFace face))
  condition : flag ≠ .block → flag = mesh.config.boundary face
  physical_iff : flag.isPhysical = true ↔ ∀ entry ∈ held, entry = .empty
  filled : flag.isPeriodic = true → ∃ entry ∈ held, entry.isPresent = true
  opposite : flag.isPeriodic = true → ∀ entry ∈ held, entry.isPresent = true →
    ∃ (other : Nat) (flags : FaceMap BoundaryFlag), entry.gid = other ∧
      mesh.flags? other = some flags ∧ (flags face.reversed).isPeriodic = true

theorem Derived.exists_flags (derived : mesh.Derived)
    (bound : position < mesh.topology.numBlocks) :
    ∃ gid loc row, mesh.tree.location? gid = some loc ∧
      mesh.topology.Shows mesh.tree mesh.decomposition.ranks position gid loc row ∧
      mesh.topology.boundary? position =
        some (mesh.tree.grid.classify mesh.config.boundary loc) ∧
      ∀ face, mesh.topology.isPhysical? position face =
        some (mesh.tree.grid.classify mesh.config.boundary loc face).isPhysical := by
  obtain ⟨built, _, building, shown⟩ := derived.exists_built
  rw [shown] at bound ⊢
  have inside : position < (mesh.decomposition.range mesh.rank).size := by
    rw [← Topology.blocks_of_build building]
    exact bound
  obtain ⟨loc, row, block, shows⟩ := Topology.shows_of_build building inside
  obtain ⟨flags, physical⟩ := Topology.flags_of_build building inside block
  exact ⟨_, loc, row, block, ⟨shows.run, shows.gidShown, shows.levelShown, shows.rowShown,
    shows.slotShown⟩, flags, physical⟩

theorem Derived.boundary?_eq (derived : mesh.Derived)
    (shown : mesh.topology.gid? position = some gid) :
    mesh.topology.boundary? position = mesh.flags? gid := by
  have bound : position < mesh.topology.numBlocks := by
    obtain ⟨built, _, building, same⟩ := derived.exists_built
    rw [same] at shown ⊢
    have inside := Topology.lt_of_gid? building shown
    rwa [← Topology.blocks_of_build building] at inside
  obtain ⟨other, loc, row, block, shows, flags, _⟩ := derived.exists_flags bound
  cases shown.symm.trans shows.gidShown
  rw [flags, flags?, block]
  rfl

section

variable {ranks : Array Nat} {destn : Nat} {held : List NeighborEntry}
  (described : mesh.config.Describes mesh.tree.grid) (fits : mesh.tree.Fits)
  (block : mesh.tree.location? gid = some loc) (active : face.axis.val < mesh.tree.grid.dim)
  (holds : mesh.tree.SlotHolds ranks loc (.ofFace face) destn held)

include described fits block active holds

omit [CostNumber α] in
/-- A face on the edge of the domain has the condition of that edge. Around the ring lie blocks, and
across an open edge nothing. -/
theorem faceAgrees_of_edge (edge : mesh.tree.grid.onDomainEdge loc face = true)
    (outside : ¬mesh.tree.grid.Holds (loc.shifted (.ofFace face)))
    (across_iff : (∃ other place, mesh.tree.IsImage other place ∧ loc.Faces (.ofFace face) place) ↔
      mesh.tree.grid.periodic face.axis = true) :
    mesh.FaceAgrees loc face (mesh.config.boundary face) held.toArray := by
  have periodic := described.periodic face active
  rw [← periodic] at across_iff
  constructor
  case block_iff => exact iff_of_false (described.noBlock face) outside
  case condition => exact fun _ => rfl
  case physical_iff =>
    simp only [List.mem_toArray, holds.empty_iff, across_iff]
    simp [BoundaryFlag.isPhysical, described.noBlock face]
  case filled =>
    intro ring
    simpa using holds.exists_present (across_iff.2 ring)
  case opposite =>
    intro ring entry member present
    have named := (holds.empty_or_faces (List.mem_toArray.1 member)).resolve_left fun blank => by
      rw [blank] at present
      cases present
    obtain ⟨other, home, turns, names, found, winds, lies⟩ := named
    refine ⟨other, _, names, by rw [flags?, found]; rfl, ?_⟩
    have far := BlockTree.onDomainEdge_of_faces fits block found winds active edge lies
    rw [RootGrid.classify, FaceMap.get_ofFn, if_pos far, described.periodic face.reversed active]
    exact periodic.symm.trans ring

omit [CostNumber α] in
theorem faceAgrees_of_slotHolds :
    mesh.FaceAgrees loc face (mesh.tree.grid.classify mesh.config.boundary loc face)
      held.toArray := by
  have fitsLoc := fits.level block
  have fine := BlockTree.rootLevel_le_level block
  have inside := (RootGrid.contains_iff_holds fitsLoc fine).1 (BlockTree.contains_block fits block)
  have edge_iff := RootGrid.onDomainEdge_iff inside active fitsLoc fine
  have across_iff := BlockTree.exists_faces_iff fits block active
  rw [RootGrid.exits_ofFace_iff inside active] at across_iff
  by_cases edge : mesh.tree.grid.onDomainEdge loc face = true
  · have outside := edge_iff.1 edge
    rw [RootGrid.classify, FaceMap.get_ofFn, if_pos edge]
    apply faceAgrees_of_edge described fits block active holds edge outside
    rw [across_iff]
    simp [outside]
  · have within : mesh.tree.grid.Holds (loc.shifted (.ofFace face)) := by
      by_contra outside
      exact edge (edge_iff.2 outside)
    have across := across_iff.2 fun left => left.1 within
    rw [RootGrid.classify, FaceMap.get_ofFn, if_neg edge]
    constructor
    case block_iff => exact iff_of_true rfl within
    case condition => exact fun other => absurd rfl other
    case physical_iff =>
      simp only [List.mem_toArray, holds.empty_iff]
      exact iff_of_false (by decide) fun nothing => nothing across
    case filled => exact fun ring => nomatch ring
    case opposite => exact fun ring => nomatch ring

end

/-- Whatever is done with a mesh, the flags of a worker's blocks and the entries for their neighbours
agree about every face along an active axis, and the faces along a degenerate axis have the conditions
of the domain. Whoever keeps a block shows the same flags for it. -/
theorem boundaries_agree (made : create config workers rank = .ok start)
    (words : ∀ axis, config.rootBlocks axis < 2 ^ 64) (actions : List (Action α))
    (bound : position < (start.run actions).topology.numBlocks) :
    ∃ gid loc flags, (start.run actions).topology.gid? position = some gid ∧
      (start.run actions).tree.location? gid = some loc ∧
      (start.run actions).topology.boundary? position = some flags ∧
      (start.run actions).flags? gid = some flags ∧
      (∀ face, (start.run actions).topology.isPhysical? position face =
        some (flags face).isPhysical) ∧
      (∀ face : Face, config.dim ≤ face.axis.val → flags face = config.boundary face) ∧
      (∀ face : Face, face.axis.val < config.dim → ∃ slot held,
        Slot.index? (.ofFace face) = some slot ∧
        (start.run actions).topology.slot? position slot = some held ∧
        (start.run actions).FaceAgrees loc face (flags face) held) ∧
      ∀ peer : Mesh α, peer.Derived → peer.config = config → peer.tree = (start.run actions).tree →
        ∀ place other, peer.topology.gid? place = some other →
          peer.topology.boundary? place = (start.run actions).flags? other := by
  obtain ⟨_, _, _, _, restored⟩ := create_ok_iff.1 made
  have configured := (place_of_restore restored).1
  obtain ⟨derived, place⟩ := (derived_of_restore restored).run actions
  have same : (start.run actions).config = config := place.config.trans configured
  have wide := derived.words (by rwa [same])
  have fits := BlockTree.fits_of_words wide
  have described := MeshConfig.describes_of_rootGrid derived.described
  have dim : (start.run actions).tree.grid.dim = config.dim := by rw [described.dim, same]
  obtain ⟨gid, loc, row, block, shows, flags, physical⟩ := derived.exists_flags bound
  refine ⟨gid, loc, _, shows.gidShown, block, flags, by rw [flags?, block]; rfl, physical, ?_, ?_, ?_⟩
  · intro face degenerate
    have edge : (start.run actions).tree.grid.onDomainEdge loc face = true := by
      rw [RootGrid.onDomainEdge, dim, if_pos degenerate]
    rw [RootGrid.classify, FaceMap.get_ofFn, if_pos edge, same]
  · intro face active
    rw [← dim] at active
    have valid := Region.isValidFor_ofFace active
    obtain ⟨slot, index, few, listed⟩ := Slot.exists_index
      (start.run actions).tree.grid.one_le_dim (start.run actions).tree.grid.dim_le_three
      (Region.ofFace_ne_central face) valid
    obtain ⟨r, destn, again, _, holds⟩ := (BlockTree.row_slots fits block shows.run).2 slot few
    cases listed.symm.trans again
    exact ⟨slot, _, index, shows.slotShown slot few,
      faceAgrees_of_slotHolds described fits block active holds⟩
  · intro peer derivedPeer configuredPeer alike place other shown
    rw [derivedPeer.boundary?_eq shown, flags?, flags?, alike, configuredPeer, same]

/-- The first worker keeps the refined corner: across its lower side along the first axis lies a block
of the opposite edge, and across its lower side along the second axis nothing does. -/
theorem boundaries_agree_square : ∃ start : Mesh Rat, create squareConfig 2 0 = .ok start ∧
    ∃ gid loc flags, (start.run (squareActions.take 3)).topology.gid? 0 = some gid ∧
      (start.run (squareActions.take 3)).tree.location? gid = some loc ∧
      (start.run (squareActions.take 3)).topology.boundary? 0 = some flags ∧
      flags ⟨Axis.x3, true⟩ = .reflect ∧
      ∀ face : Face, face.axis.val < 2 → ∃ slot held, Slot.index? (.ofFace face) = some slot ∧
        (start.run (squareActions.take 3)).topology.slot? 0 slot = some held ∧
        (start.run (squareActions.take 3)).FaceAgrees loc face (flags face) held := by
  have computed : ((create squareConfig 2 0 : Except (MeshError Rat) (Mesh Rat)).toOption.any
      fun start => 0 < (start.run (squareActions.take 3)).topology.numBlocks) = true := by
    decide +kernel
  obtain ⟨start, made, owned⟩ := Outcome.exists_ok_of_any computed
  obtain ⟨gid, loc, flags, gidShown, block, shown, _, _, degenerate, faces, _⟩ :=
    boundaries_agree made (by decide) (squareActions.take 3) (of_decide_eq_true owned)
  exact ⟨start, made, gid, loc, flags, gidShown, block, shown,
    degenerate ⟨Axis.x3, true⟩ (by decide), faces⟩

end Mesh

end AdaptiveMesh
