import AdaptiveMesh.Report
import AdaptiveMesh.Proofs.Ancestry
import AdaptiveMesh.Proofs.Refusals

/-!
# Lookup

A leaf is looked up by the path of its location, which shows the lowest bits of the coordinates and not
where the coordinates lie. The search therefore ends at the location modulo the number of cells of its
level. For the places inside the root, those of all leaves and of the whole domain among them, this is the
location itself; a place outside of the root is taken for another one inside.
-/

namespace AdaptiveMesh

set_option autoImplicit false

namespace PlacedNode

theorem descend?_eq_some_iff {place : Location} {n : Node Nat} {path : List Octant}
    {found : PlacedNode} (there : n ≠ .absent) : (⟨place, n⟩ : PlacedNode).descend? path = some found ↔
      n.along path ≠ .absent ∧ found = ⟨path.foldl Location.child place, n.along path⟩ := by
  induction path generalizing place n with
  | nil =>
      change some _ = some found ↔ _
      rw [Option.some.injEq, Node.along_nil, List.foldl_nil, and_iff_right there]
      exact eq_comm
  | cons o rest ih =>
      change ((⟨place, n⟩ : PlacedNode).child? o).bind (fun below => below.descend? rest) = _ ↔ _
      rw [Node.along_cons, List.foldl_cons]
      by_cases gone : n.child o = .absent
      · simp [child?, gone, Node.isAbsent]
      · rw [child?, if_neg (by rwa [Node.isAbsent_iff]), Option.bind_some]
        exact ih gone

end PlacedNode

namespace BlockTree

variable {tree : BlockTree} {gid : Nat} {loc : Location} {node : PlacedNode}

theorem location?_wrapped_iff :
    tree.location? gid = some loc.wrapped ↔ tree.root.along loc.path = .leaf gid := by
  constructor
  · intro block
    rw [← loc.path_wrapped]
    exact along_path block
  · intro ends
    exact location?_iff.2 ⟨loc.path, ends, loc.ofPath_path_eq_wrapped⟩

/-- The search finds the leaf at the place inside the root that has the path of the location. -/
theorem findLeaf?_eq_some_iff : tree.findLeaf? loc = some node ↔
    ∃ gid, tree.location? gid = some loc.wrapped ∧ node = ⟨loc.wrapped, .leaf gid⟩ := by
  rw [findLeaf?, Option.filter_eq_some_iff, rootNode, PlacedNode.descend?_eq_some_iff tree.root_ne_absent]
  change (_ ∧ node = ⟨Location.ofPath loc.path, tree.root.along loc.path⟩) ∧ _ ↔ _
  rw [loc.ofPath_path_eq_wrapped]
  constructor
  · intro found
    obtain ⟨⟨there, rfl⟩, leaf⟩ := found
    rcases (tree.root.along loc.path).absent_or_leaf_or_children with gone | ⟨gid, ends⟩ | ⟨f, refined⟩
    · exact absurd gone there
    · exact ⟨gid, location?_wrapped_iff.2 ends, by rw [ends]⟩
    · rw [PlacedNode.isLeaf, refined, Node.isLeaf_ofChildren] at leaf
      cases leaf
  · intro found
    obtain ⟨gid, block, rfl⟩ := found
    have ends := location?_wrapped_iff.1 block
    rw [ends]
    refine ⟨⟨fun gone => ?_, rfl⟩, rfl⟩
    cases gone

/-- Whether the search for a location gives the leaf that lies there, and nothing if none does. -/
def FindsExactly (tree : BlockTree) (loc : Location) : Prop :=
  ∀ node, tree.findLeaf? loc = some node ↔
    ∃ gid, tree.location? gid = some loc ∧ node = ⟨loc, .leaf gid⟩

theorem findsExactly_iff : tree.FindsExactly loc ↔
    Location.root.contains loc = true ∨ loc.wrapped ∉ tree.locations := by
  constructor
  · intro exactly
    by_contra aliased
    obtain ⟨outside, listed⟩ := not_or.1 aliased
    obtain ⟨gid, block⟩ := mem_locations_iff.1 (not_not.1 listed)
    obtain ⟨_, here, _⟩ := (exactly _).1 (findLeaf?_eq_some_iff.2 ⟨gid, block, rfl⟩)
    exact outside (root_contains_block here)
  · intro clear node
    rw [findLeaf?_eq_some_iff]
    cases clear with
    | inl proper => rw [Location.wrapped_of_proper proper]
    | inr vacant =>
        constructor
        · intro found
          obtain ⟨gid, block, _⟩ := found
          exact absurd (mem_locations_iff.2 ⟨gid, block⟩) vacant
        · intro found
          obtain ⟨gid, block, _⟩ := found
          rw [Location.wrapped_of_proper (root_contains_block block)] at vacant
          exact absurd (mem_locations_iff.2 ⟨gid, block⟩) vacant

/-- Places of the domain are found exactly, at all levels whose cells can be counted. -/
theorem findsExactly_of_contains (fits : tree.grid.LevelFits loc.level)
    (inside : tree.grid.contains loc = true) : tree.FindsExactly loc := by
  rw [findsExactly_iff]
  rcases Nat.lt_or_ge loc.level tree.grid.rootLevel with coarse | fine
  · refine .inr fun listed => ?_
    obtain ⟨gid, block⟩ := mem_locations_iff.1 listed
    have level := rootLevel_le_level block
    rw [Location.level_wrapped] at level
    omega
  · exact .inl (RootGrid.root_contains fits (fits.near (.inr fine)) inside)

end BlockTree

namespace RunConfig

theorem gidAt_cases (mesh : Mesh) (loc : Location) (missing : RunError) :
    (∃ gid, gidAt mesh loc missing = .ok gid ∧ mesh.tree.location? gid = some loc.wrapped) ∨
      (gidAt mesh loc missing = .error missing ∧ loc.wrapped ∉ mesh.tree.locations) := by
  rw [gidAt]
  cases found : mesh.tree.findLeaf? loc with
  | some node =>
      obtain ⟨gid, block, rfl⟩ := BlockTree.findLeaf?_eq_some_iff.1 found
      exact .inl ⟨gid, rfl, block⟩
  | none =>
      refine .inr ⟨rfl, fun listed => ?_⟩
      obtain ⟨gid, block⟩ := BlockTree.mem_locations_iff.1 listed
      rw [BlockTree.findLeaf?_eq_some_iff.2 ⟨gid, block, rfl⟩] at found
      cases found

end RunConfig

namespace BlockTree

/-- A search counts coordinates modulo the cells of the level. It is exact unless the location lies outside
of the root and is taken for a leaf, so places of the domain are found exactly. A run acts on the block that
the search finds. -/
theorem findLeaf?_modulo (tree : BlockTree) (loc : Location) :
    (∀ node, tree.findLeaf? loc = some node ↔
      ∃ gid, tree.location? gid = some loc.wrapped ∧ node = ⟨loc.wrapped, .leaf gid⟩) ∧
    (tree.FindsExactly loc ↔
      (∀ axis, 0 ≤ loc.lx axis ∧ loc.lx axis < 2 ^ loc.level) ∨ loc.wrapped ∉ tree.locations) ∧
    (tree.grid.LevelFits loc.level → tree.grid.contains loc = true → tree.FindsExactly loc) ∧
    ∀ (mesh : Mesh) (missing : RunError),
      (∃ gid, RunConfig.gidAt mesh loc missing = .ok gid ∧
        mesh.tree.location? gid = some loc.wrapped) ∨
      (RunConfig.gidAt mesh loc missing = .error missing ∧ loc.wrapped ∉ mesh.tree.locations) := by
  refine ⟨fun node => findLeaf?_eq_some_iff, ?_, findsExactly_of_contains, fun mesh missing => ?_⟩
  · rw [findsExactly_iff, Location.root_contains_iff]
  · exact RunConfig.gidAt_cases mesh loc missing

private theorem exists_line : ∃ tree, uniform Mesh.lineGrid = .ok tree ∧ tree.grid = Mesh.lineGrid ∧
    tree.location? 0 = some ⟨1, ⟨0, 0, 0⟩⟩ ∧ tree.location? 1 = some ⟨1, ⟨1, 0, 0⟩⟩ := by
  have computed : (uniform Mesh.lineGrid).toOption.any (fun tree => tree.grid = Mesh.lineGrid &&
      tree.location? 0 = some ⟨1, ⟨0, 0, 0⟩⟩ && tree.location? 1 = some ⟨1, ⟨1, 0, 0⟩⟩) = true := by
    decide +kernel
  obtain ⟨tree, built, computed⟩ := Outcome.exists_ok_of_any computed
  simp only [Bool.and_eq_true, decide_eq_true_eq] at computed
  obtain ⟨⟨grid, first⟩, second⟩ := computed
  exact ⟨tree, built, grid, first, second⟩

/-- The second of two blocks in a row is found at its own place. -/
theorem findLeaf?_modulo_line : ∃ tree, uniform Mesh.lineGrid = .ok tree ∧
    tree.grid.contains ⟨1, ⟨1, 0, 0⟩⟩ = true ∧ tree.FindsExactly ⟨1, ⟨1, 0, 0⟩⟩ ∧
    tree.findLeaf? ⟨1, ⟨1, 0, 0⟩⟩ = some ⟨⟨1, ⟨1, 0, 0⟩⟩, .leaf 1⟩ := by
  obtain ⟨tree, built, grid, _, second⟩ := exists_line
  have fits : tree.grid.LevelFits 1 := by
    rw [grid]
    decide
  have inside : tree.grid.contains ⟨1, ⟨1, 0, 0⟩⟩ = true := by
    rw [grid]
    decide
  obtain ⟨_, _, exactly, _⟩ := findLeaf?_modulo tree ⟨1, ⟨1, 0, 0⟩⟩
  exact ⟨tree, built, inside, exactly fits inside, (exactly fits inside _).2 ⟨1, second, rfl⟩⟩

/-- One place beyond the second of two blocks in a row the first one is found. -/
theorem findLeaf?_mistakes_outside : ∃ tree, uniform Mesh.lineGrid = .ok tree ∧
    tree.grid.contains ⟨1, ⟨2, 0, 0⟩⟩ = false ∧ ⟨1, ⟨2, 0, 0⟩⟩ ∉ tree.locations ∧
    tree.findLeaf? ⟨1, ⟨2, 0, 0⟩⟩ = some ⟨⟨1, ⟨0, 0, 0⟩⟩, .leaf 0⟩ ∧
    ¬∀ loc : Location, loc.level ≤ 64 → tree.FindsExactly loc := by
  obtain ⟨tree, built, grid, first, _⟩ := exists_line
  have found : tree.findLeaf? ⟨1, ⟨2, 0, 0⟩⟩ = some ⟨⟨1, ⟨0, 0, 0⟩⟩, .leaf 0⟩ :=
    findLeaf?_eq_some_iff.2 ⟨0, first, rfl⟩
  have vacant : ⟨1, ⟨2, 0, 0⟩⟩ ∉ tree.locations := by
    intro listed
    obtain ⟨gid, block⟩ := mem_locations_iff.1 listed
    have proper := root_contains_block block
    revert proper
    decide
  refine ⟨tree, built, ?_, vacant, found, fun exactly => ?_⟩
  · rw [grid]
    decide
  · obtain ⟨gid, block, _⟩ := (exactly ⟨1, ⟨2, 0, 0⟩⟩ (by decide) _).1 found
    exact vacant (mem_locations_iff.2 ⟨gid, block⟩)

end BlockTree

end AdaptiveMesh
