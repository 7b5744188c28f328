import AdaptiveMesh.Proofs.Acceptance
import AdaptiveMesh.Proofs.Neighborhood

/-!
# Steps

A step from a place of the domain either crosses an open end of it, or leads to a cell of the domain,
counted around the ring along periodic axes. In the second case exactly one node of the tree covers
that cell: the node that is the cell, or a coarser leaf around it. The neighbour search answers with
that node, and with none in the first case. The place need not be a block: it may be a node that has
been refined, or lie inside a leaf.
-/

namespace AdaptiveMesh

set_option autoImplicit false

namespace RootGrid

variable {grid : RootGrid} {place target : Location} {turns : Triple Int}

/-- Whether a place lies beyond an open end of the domain. -/
def Exits (grid : RootGrid) (place : Location) : Prop :=
  ∃ axis : Axis, axis.val < grid.dim ∧ grid.periodic axis = false ∧
    ¬(0 ≤ place.lx axis ∧ place.lx axis < grid.cells place.level axis)

instance (grid : RootGrid) (place : Location) : Decidable (grid.Exits place) :=
  inferInstanceAs (Decidable (∃ _, _))

/-- The cell of the domain at which a place arrives, counted around the ring along periodic axes. -/
def wrapped (grid : RootGrid) (place : Location) : Location :=
  ⟨place.level, .ofFn fun axis =>
    if grid.periodic axis then place.lx axis % grid.cells place.level axis else place.lx axis⟩

section

variable (fits : grid.LevelFits target.level) (fine : grid.rootLevel ≤ target.level)
  (winds : grid.Winds turns) (inside : grid.contains target = true)

include fits fine winds inside

theorem not_exits_image : ¬grid.Exits (grid.image target turns) := by
  intro exits
  obtain ⟨axis, active, still, outside⟩ := exits
  apply outside
  rw [lx_image, winds axis still, zero_mul, add_zero]
  exact (contains_iff_holds fits fine).1 inside axis

theorem wrapped_image : grid.wrapped (grid.image target turns) = target := by
  apply Location.eq_of_axes
  · rfl
  intro axis
  have bounds := (contains_iff_holds fits fine).1 inside axis
  simp only [wrapped, Triple.get_ofFn, lx_image, level_image, extent_eq_cells fits fine]
  cases periodic : grid.periodic axis with
  | false => simp [winds axis periodic]
  | true =>
      rw [if_pos rfl, Int.add_mul_emod_self_right]
      exact Int.emod_eq_of_lt bounds.1 bounds.2

end

/-- Wrapping brings a place to its cell of the domain, unless it lies beyond an open end. -/
theorem wrap_eq (fits : grid.LevelFits place.level) (fine : grid.rootLevel ≤ place.level)
    (flat : ∀ axis : Axis, grid.dim ≤ axis.val → place.lx axis = 0) :
    (grid.Exits place ∧ grid.wrap place = .ok none) ∨
      (¬grid.Exits place ∧ grid.contains (grid.wrapped place) = true ∧
        grid.wrap place = .ok (some (grid.wrapped place))) := by
  have near := fine.trans (Nat.le_add_right _ 62)
  cases wrap_cases fits near flat with
  | inl found =>
      obtain ⟨target, turns, inside, winds, rfl⟩ := found
      have fitsTarget : grid.LevelFits target.level := fits
      right
      rw [wrapped_image fitsTarget fine winds inside]
      exact ⟨not_exits_image fitsTarget fine winds inside, inside,
        wrap_image fitsTarget near winds inside⟩
  | inr left =>
      simp only [extent_eq_cells fits fine] at left
      exact .inl left

end RootGrid

namespace PlacedNode

theorem eq_of_parts {a b : PlacedNode} (place : a.loc = b.loc) (same : a.node = b.node) : a = b := by
  cases a
  cases b
  cases place
  cases same
  rfl

theorem preorder_ofChildren (loc : Location) (f : Octant → Node Nat) :
    (⟨loc, .ofChildren f⟩ : PlacedNode).preorder = ⟨loc, .ofChildren f⟩ ::
      Octant.all.flatMap fun o => (⟨loc.child o, f o⟩ : PlacedNode).preorder := by
  have listed : Octant.all = [.ofLinear 0, .ofLinear 1, .ofLinear 2, .ofLinear 3, .ofLinear 4,
    .ofLinear 5, .ofLinear 6, .ofLinear 7] := rfl
  rw [listed]
  simp only [List.flatMap_cons, List.flatMap_nil, List.append_nil, preorder]
  simp only [Node.ofChildren, preorder.go, List.append_assoc]

theorem mem_preorder_iff {n : Node Nat} {loc : Location} {node : PlacedNode} :
    node ∈ (⟨loc, n⟩ : PlacedNode).preorder ↔
      ∃ path, n.along path = node.node ∧ path.foldl Location.child loc = node.loc ∧
        node.node ≠ .absent := by
  induction n using Node.inductionOn generalizing loc with
  | absent =>
      simp only [preorder, preorder.go, List.not_mem_nil, Node.along_absent, false_iff]
      intro found
      obtain ⟨path, gone, _, there⟩ := found
      exact there gone.symm
  | leaf gid =>
      have listed : node ∈ (⟨loc, .leaf gid⟩ : PlacedNode).preorder ↔ node = ⟨loc, .leaf gid⟩ :=
        List.mem_singleton
      rw [listed]
      constructor
      · intro same
        rw [same]
        exact ⟨[], rfl, rfl, fun same => nomatch same⟩
      · intro found
        obtain ⟨path, ends, placed, there⟩ := found
        cases path with
        | nil => exact eq_of_parts placed.symm ends.symm
        | cons o rest =>
            rw [Node.along_leaf_cons] at ends
            exact absurd ends.symm there
  | internal f ih =>
      rw [preorder_ofChildren, List.mem_cons, List.mem_flatMap]
      constructor
      · intro member
        cases member with
        | inl same =>
            rw [same]
            exact ⟨[], rfl, rfl, Node.ofChildren_ne_absent f⟩
        | inr below =>
            obtain ⟨o, _, member⟩ := below
            obtain ⟨path, ends, placed, there⟩ := (ih o).1 member
            exact ⟨o :: path, by simpa using ends, placed, there⟩
      · intro found
        obtain ⟨path, ends, placed, there⟩ := found
        cases path with
        | nil => exact .inl (eq_of_parts placed.symm ends.symm)
        | cons o rest =>
            exact .inr ⟨o, o.mem_all, (ih o).2 ⟨rest, by simpa using ends, placed, there⟩⟩

/-- Whether a node is a place, or a coarser leaf around it. -/
def Covers (node : PlacedNode) (target : Location) : Prop :=
  node.loc = target ∨
    node.isLeaf = true ∧ node.loc.level < target.level ∧ node.loc.contains target = true

instance (node : PlacedNode) (target : Location) : Decidable (node.Covers target) :=
  inferInstanceAs (Decidable (_ ∨ _))

theorem Covers.contains {node : PlacedNode} {target : Location} (covers : node.Covers target) :
    node.loc.contains target = true := by
  cases covers with
  | inl same =>
      rw [same]
      exact Location.contains_refl target
  | inr around => exact around.2.2

end PlacedNode

namespace BlockTree

variable {tree : BlockTree} {target : Location} {a b node : PlacedNode}

theorem mem_nodes_iff : node ∈ tree.nodes ↔ Location.root.contains node.loc = true ∧
    tree.root.along node.loc.path = node.node ∧ node.node ≠ .absent := by
  rw [nodes, rootNode, PlacedNode.mem_preorder_iff]
  constructor
  · intro found
    obtain ⟨path, ends, placed, there⟩ := found
    have whole : Location.ofPath path = node.loc := placed
    rw [← whole, Location.path_ofPath]
    exact ⟨Location.root_contains_ofPath path, ends, there⟩
  · intro found
    obtain ⟨proper, ends, there⟩ := found
    exact ⟨node.loc.path, ends, Location.ofPath_path proper, there⟩

theorem eq_of_contains_node (memberA : a ∈ tree.nodes) (memberB : b ∈ tree.nodes)
    (inside : a.loc.contains b.loc = true) (leaf : a.isLeaf = true ∨ a.loc = b.loc) : a = b := by
  obtain ⟨properA, endsA, thereA⟩ := mem_nodes_iff.1 memberA
  obtain ⟨properB, endsB, thereB⟩ := mem_nodes_iff.1 memberB
  have equal (same : a.loc = b.loc) : a = b := by
    apply PlacedNode.eq_of_parts same
    rw [← endsA, ← endsB, same]
  cases leaf with
  | inr same => exact equal same
  | inl leaf =>
      obtain ⟨rest, whole⟩ := (Location.contains_iff_prefix properA properB).1 inside
      cases rest with
      | nil =>
          rw [List.append_nil] at whole
          exact equal (Location.path_injective properA properB whole)
      | cons o rest =>
          rw [← whole, Node.along_append, endsA] at endsB
          cases kind : a.node with
          | leaf gid =>
              rw [kind, Node.along_leaf_cons] at endsB
              exact absurd endsB.symm thereB
          | absent => exact absurd kind thereA
          | internal =>
              rw [PlacedNode.isLeaf, kind] at leaf
              cases leaf

theorem eq_of_covers (memberA : a ∈ tree.nodes) (memberB : b ∈ tree.nodes)
    (coversA : a.Covers target) (coversB : b.Covers target) : a = b := by
  have ordered (first second : PlacedNode) (memberFirst : first ∈ tree.nodes)
      (memberSecond : second ∈ tree.nodes) (coversFirst : first.Covers target)
      (coversSecond : second.Covers target) (coarser : first.loc.level ≤ second.loc.level) :
      first = second := by
    have inside :=
      Location.contains_of_common coversFirst.contains coversSecond.contains coarser
    apply eq_of_contains_node memberFirst memberSecond inside
    cases coversFirst with
    | inr around => exact .inl around.1
    | inl same =>
        -- the place itself is at least as fine as whatever covers it
        right
        have finer := Location.level_le_of_contains coversSecond.contains
        exact Location.eq_of_contains inside (by rw [same]; exact finer)
  cases Nat.le_total a.loc.level b.loc.level with
  | inl coarser => exact ordered a b memberA memberB coversA coversB coarser
  | inr finer => exact (ordered b a memberB memberA coversB coversA finer).symm

/-- A descent towards a cell of the domain ends at a node that covers it. -/
theorem exists_reach (fits : tree.grid.LevelFits target.level)
    (near : tree.grid.rootLevel ≤ target.level + 62) (inside : tree.grid.contains target = true) :
    ∃ node ∈ tree.nodes, tree.rootNode.reach target.path = .ok node ∧ node.Covers target := by
  have proper := RootGrid.root_contains fits near inside
  cases exists_cover fits near inside with
  | inl found =>
      obtain ⟨gid, home, block, around⟩ := found
      refine ⟨⟨home, .leaf gid⟩, ?_, reach_block block proper around, ?_⟩
      · exact mem_nodes_iff.2 ⟨root_contains_block block, along_path block, fun same => nomatch same⟩
      · cases (Location.level_le_of_contains around).lt_or_eq with
        | inl coarser => exact .inr ⟨rfl, coarser, around⟩
        | inr same => exact .inl (Location.eq_of_contains around same.ge)
  | inr found =>
      obtain ⟨f, refined⟩ := found
      refine ⟨⟨target, .ofChildren f⟩, ?_, reach_refined proper refined, .inl rfl⟩
      exact mem_nodes_iff.2 ⟨proper, refined, Node.ofChildren_ne_absent f⟩

/-- A step from a place of the domain finds nothing exactly if it crosses an open end, and otherwise
finds the one node that covers the cell it leads to. -/
theorem findNeighbor_geometric (tree : BlockTree) (loc : Location) (r : Region)
    (fine : tree.grid.rootLevel ≤ loc.level) (fits : tree.grid.LevelFits loc.level)
    (inside : tree.grid.Holds loc) (valid : r.isValidFor tree.grid.dim = true) :
    (tree.findNeighbor loc r = .ok none ↔ tree.grid.Exits (loc.shifted r)) ∧
    (¬tree.grid.Exits (loc.shifted r) → ∃ node ∈ tree.nodes,
      tree.findNeighbor loc r = .ok (some node) ∧
      node.Covers (tree.grid.wrapped (loc.shifted r)) ∧
      ∀ other ∈ tree.nodes, other.Covers (tree.grid.wrapped (loc.shifted r)) → other = node) := by
  have domain := (RootGrid.contains_iff_holds fits fine).2 inside
  have flat (axis : Axis) (degenerate : tree.grid.dim ≤ axis.val) : (loc.shifted r).lx axis = 0 :=
    lx_shifted_eq_zero domain valid degenerate
  have fitsStep : tree.grid.LevelFits (loc.shifted r).level := fits
  cases RootGrid.wrap_eq fitsStep fine flat with
  | inl left =>
      obtain ⟨exits, outside⟩ := left
      rw [findNeighbor_none valid outside]
      exact ⟨iff_of_true rfl exits, fun stays => absurd exits stays⟩
  | inr arrived =>
      obtain ⟨stays, domainTarget, wrapped⟩ := arrived
      have fitsTarget : tree.grid.LevelFits (tree.grid.wrapped (loc.shifted r)).level := fits
      obtain ⟨node, member, reached, covers⟩ :=
        exists_reach fitsTarget (fine.trans (Nat.le_add_right _ 62)) domainTarget
      have answer := findNeighbor_of_wrap valid wrapped reached
      rw [answer]
      constructor
      · exact iff_of_false (fun same => nomatch same) stays
      · intro _
        refine ⟨node, member, rfl, covers, fun other listed coversOther => ?_⟩
        exact eq_of_covers listed member coversOther covers

def tubeGrid : RootGrid :=
  { oblongGrid with periodic := ⟨true, false, false⟩, active_of_periodic := by decide }

/-- From a place inside the corner leaf a step back leads around the tube, and a step down and back
leads out of it. -/
theorem findNeighbor_geometric_tube : ∃ tree, ofLeaves tubeGrid oblongLeaves = .ok tree ∧
    tree.findNeighbor ⟨4, ⟨0, 0, 0⟩⟩ ⟨⟨.left, .left, .middle⟩⟩ = .ok none ∧
    ∃ node ∈ tree.nodes,
      tree.findNeighbor ⟨4, ⟨0, 0, 0⟩⟩ ⟨⟨.left, .middle, .middle⟩⟩ = .ok (some node) ∧
      node.Covers ⟨4, ⟨11, 0, 0⟩⟩ ∧
      ∀ other ∈ tree.nodes, other.Covers ⟨4, ⟨11, 0, 0⟩⟩ → other = node := by
  have computed : (ofLeaves tubeGrid oblongLeaves).isOk = true := by decide +kernel
  obtain ⟨tree, built⟩ := Outcome.exists_ok_of_isOk computed
  have grid : tree.grid = tubeGrid := (ofLeaves_spec built).1
  have step (r : Region) (valid : r.isValidFor 2 = true) :=
    findNeighbor_geometric tree ⟨4, ⟨0, 0, 0⟩⟩ r
      (by rw [grid]; decide) (by rw [grid]; decide) (by rw [grid]; decide) (by rw [grid]; exact valid)
  simp only [grid] at step
  refine ⟨tree, built, (step _ (by decide)).1.2 (by decide), ?_⟩
  exact (step ⟨⟨.left, .middle, .middle⟩⟩ (by decide)).2 (by decide)

end BlockTree

end AdaptiveMesh
