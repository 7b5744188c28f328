import Mathlib.Data.List.Nodup
import AdaptiveMesh.Proofs.Numbering
import AdaptiveMesh.Proofs.Visits

/-!
# Arenas of trees

An arena is built from a list of leaves exactly when a tree is, and is refused with the same error
otherwise (`agree_ofLeaves`). When it is built it lays out the tree: its nodes are linked, each is of the
kind that the tree has at its place, and the leaves have the gids that the tree gives them.
-/

namespace AdaptiveMesh

set_option autoImplicit false

namespace Node

variable {α : Type} {n : Node α}

theorem count_numberFrom (n : Node α) (start : Nat) : (n.numberFrom start).count = n.count := by
  induction n generalizing start with
  | absent => rfl
  | leaf a => rfl
  | internal c0 c1 c2 c3 c4 c5 c6 c7 h0 h1 h2 h3 h4 h5 h6 h7 =>
      simp only [numberFrom, count, h0, h1, h2, h3, h4, h5, h6, h7]

theorem shape?_along_numberFrom (n : Node α) (start : Nat) (path : List Octant) :
    ((n.numberFrom start).along path).shape? = (n.along path).shape? := by
  obtain ⟨later, same⟩ := along_numberFrom n start path
  rw [same]
  cases n.along path <;> rfl

theorem exists_leaf_of_shape (leaf : n.shape? = some true) : ∃ a, n = .leaf a := by
  cases n with
  | absent => cases leaf
  | leaf a => exact ⟨a, rfl⟩
  | internal => cases leaf

end Node

namespace Arena

variable {arena : Arena} {tree : BlockTree} {nodes : Array ArenaNode} {node : ArenaNode}
  {index gid : Nat} {path : List Octant} {grid : RootGrid} {leaves : List Location} {loc : Location}

/-- Whether an arena lays out a tree. -/
structure LaysOut (arena : Arena) (tree : BlockTree) : Prop where
  grid : arena.grid = tree.grid
  linked : Linked arena.nodes
  holds : ∀ path, shapeAt arena.nodes path = (tree.root.along path).shape?
  size : arena.nodes.size = tree.numNodes
  leaves : arena.leaves.toList.map arena.place? = tree.locations.toList.map some
  numbered : ∀ gid index : Nat, arena.leaves[gid]? = some index →
    ∃ node, arena.nodes[index]? = some node ∧ node.kind = .leaf (some gid) ∧
      tree.location? gid = some node.loc
  listed : ∀ (index : Nat) (node : ArenaNode), arena.nodes[index]? = some node →
    node.isLeaf = true → ∃ gid : Nat, arena.leaves[gid]? = some index

def numberedBy (grid : RootGrid) (nodes : Array ArenaNode) (indices : List Nat) : Arena :=
  indices.foldl numberLeaf ⟨grid, nodes, #[]⟩

section

variable {placed : Node Unit} {indices : List Nat}

theorem getElem?_leaves_numberedBy (grid : RootGrid) (nodes : Array ArenaNode) (indices : List Nat)
    (gid : Nat) : (numberedBy grid nodes indices).leaves[gid]? = indices[gid]? := by
  rw [← Array.getElem?_toList, numberedBy, leaves_foldl_numberLeaf]
  rfl

section

variable (order : indices.map (leafAt? nodes) = tree.locations.toList.map some)

include order

theorem kept_numberedBy (grid : RootGrid) : Kept nodes (numberedBy grid nodes indices).nodes :=
  Kept.foldl_numberLeaf (Kept.refl nodes) (isSome_of_listed order)

theorem leafAt?_turn (gid : Nat) : indices[gid]?.map (leafAt? nodes) = (tree.location? gid).map some := by
  rw [← List.getElem?_map, order, List.getElem?_map, BlockTree.location?, Array.getElem?_toList]

theorem nodup_of_order : indices.Nodup := by
  apply List.Nodup.of_map (leafAt? nodes)
  rw [order]
  exact tree.nodup_locations.map (Option.some_injective _)

theorem exists_numbered (grid : RootGrid) (turn : indices[gid]? = some index) :
    ∃ node, (numberedBy grid nodes indices).nodes[index]? = some node ∧
      node.kind = .leaf (some gid) ∧ tree.location? gid = some node.loc := by
  have place := leafAt?_turn order gid
  rw [turn, Option.map_some, eq_comm, Option.map_eq_some_iff] at place
  obtain ⟨loc, block, found⟩ := place
  obtain ⟨node, here, _, same⟩ := leafAt?_eq_some_iff.1 found.symm
  refine ⟨node.withGid gid, ?_, rfl, ?_⟩
  · rw [numberedBy, getElem?_foldl_numberLeaf (nodup_of_order order) turn, here, Option.map_some,
      Array.size_empty, Nat.zero_add]
  · rw [block, ← same]
    rfl

theorem laysOut_numberedBy (stands : Stands nodes placed) (there : placed ≠ .absent)
    (root : tree.root = placed.numberFrom 0) :
    (numberedBy tree.grid nodes indices).LaysOut tree := by
  have holds := stands.holds
  have size := stands.size
  rw [Node.rooted_of_ne_absent there] at holds size
  have kept := kept_numberedBy order tree.grid
  have linked := kept.linked stands.linked
  have outlined (path : List Octant) : shapeAt (numberedBy tree.grid nodes indices).nodes path =
      (tree.root.along path).shape? := by
    have before := holds path
    rw [List.nil_append, shapeAt] at before
    rw [root, Node.shape?_along_numberFrom, ← before, shapeAt, kept.outline_eq]
  constructor
  case grid => rw [numberedBy, grid_foldl_numberLeaf]
  case linked => exact linked
  case holds => exact outlined
  case size => rw [kept.size_eq, size, BlockTree.numNodes, root, Node.count_numberFrom]
  case leaves =>
    have turns : (numberedBy tree.grid nodes indices).leaves.toList = indices :=
      leaves_foldl_numberLeaf indices _
    rw [turns, ← order]
    apply List.map_congr_left
    intro index member
    obtain ⟨loc, found⟩ := Option.isSome_iff_exists.1 (isSome_of_listed order index member)
    rw [found]
    rw [← kept.leafAt?_eq] at found
    obtain ⟨node, here, _, place⟩ := leafAt?_eq_some_iff.1 found
    rw [place?, here, Option.map_some, place]
  case numbered =>
    intro gid index called
    rw [getElem?_leaves_numberedBy] at called
    exact exists_numbered order tree.grid called
  case listed =>
    intro index node here kind
    have proper := linked.root_contains here
    have shape := linked.shapeAt_iff.2 ⟨index, node, here, (Location.ofPath_path proper).symm, kind⟩
    rw [outlined] at shape
    obtain ⟨gid, ends⟩ := Node.exists_leaf_of_shape shape
    have block := BlockTree.leaf_along_iff.1 ends
    rw [Location.ofPath_path proper] at block
    -- the leaf whose turn this is has the same place, so it is the same
    have place := leafAt?_turn order gid
    rw [block, Option.map_some, Option.map_eq_some_iff] at place
    obtain ⟨other, turn, found⟩ := place
    rw [← kept.leafAt?_eq] at found
    obtain ⟨twin, met, _, same⟩ := leafAt?_eq_some_iff.1 found
    refine ⟨gid, ?_⟩
    rw [getElem?_leaves_numberedBy, turn, linked.eq_of_loc here met same.symm]

end

theorem agree_number (stands : Stands nodes placed) (there : placed ≠ .absent)
    (root : tree.root = placed.numberFrom 0) :
    Agree (fun tree arena => arena.LaysOut tree) (.ok tree)
      (number nodes.size [0] ⟨tree.grid, nodes, #[]⟩) := by
  have holds := stands.holds
  have size := stands.size
  rw [Node.rooted_of_ne_absent there] at holds size
  obtain ⟨top, here, place, _⟩ := stands.linked.root
  obtain ⟨indices, listed, visit⟩ := visits_below stands.linked holds here place
  have order : indices.map (leafAt? nodes) = tree.locations.toList.map some := by
    have entries := placed.entries_numberFrom 0 .root
    rw [← root, tree.entries_eq] at entries
    have places := congrArg (List.map Prod.fst) entries
    rw [List.zipIdx_map_fst, List.zipIdx_map_fst] at places
    rw [listed, places]
    rfl
  have run := visit ⟨tree.grid, nodes, #[]⟩ 0 [] (Kept.refl nodes)
  rw [Nat.add_zero, ← size] at run
  rw [show [0] = [0] ++ [] from rfl, run]
  exact .made (laysOut_numberedBy order stands there root)

end

theorem gap?_eq_firstGap {placed : Node Unit} (run : placeLeaves grid leaves = .ok nodes)
    (linked : Linked nodes) (holds : Holds nodes [] placed) (occupied : leaves ≠ [])
    (incomplete : placed.isComplete grid .root = false) :
    gap? grid nodes = some (BlockTree.firstGap grid placed leaves) := by
  have first : gap? grid nodes = leaves.findSome? fun loc => placed.gapAlong? grid loc.path .root := by
    rw [gap?_eq linked holds, find?_placeLeaves run, findSome?_gapAlong? occupied]
  cases gap : gap? grid nodes with
  | none =>
      rw [(gap?_eq_none_iff linked holds).1 gap] at incomplete
      cases incomplete
  | some loc => rw [BlockTree.firstGap, ← first, gap, Option.getD_some]

theorem ofLeaves_of_placeLeaves (run : placeLeaves grid leaves = .ok nodes) :
    ofLeaves grid leaves =
      if leaves.isEmpty then .error (.tree .empty)
      else match gap? grid nodes with
        | some loc => .error (.tree (.incomplete loc))
        | none => number nodes.size [0] ⟨grid, nodes, #[]⟩ := by
  rw [ofLeaves, run]
  by_cases vacant : leaves.isEmpty = true
  · rw [if_pos vacant]
    simp only [vacant, if_true]
    rfl
  · rw [if_neg vacant]
    simp only [vacant]
    rfl

theorem ne_absent_of_placed {placed : Node Unit} (placing : BlockTree.placeLeaves grid leaves = .ok placed)
    (occupied : leaves ≠ []) : placed ≠ .absent := by
  intro gone
  have grown := BlockTree.size_of_foldlM placing
  rw [gone] at grown
  apply occupied
  rw [← List.length_eq_zero_iff]
  exact (Nat.zero_add _).symm.trans grown.symm

/-- An arena is built from a list of leaves exactly when a tree is, and otherwise the list is refused
for the same reason. The arena that is built lays out the tree. -/
theorem agree_ofLeaves (grid : RootGrid) (leaves : List Location) :
    Agree (fun tree arena => arena.LaysOut tree) (BlockTree.ofLeaves grid leaves)
      (ofLeaves grid leaves) := by
  have agree := agree_placeLeaves grid leaves
  unfold BlockTree.ofLeaves
  split
  · rename_i error failed
    rw [failed] at agree
    rw [ofLeaves, agree.eq_of_error]
    exact .refused error
  · rename_i placed placing
    rw [placing] at agree
    obtain ⟨nodes, run, stands⟩ := agree.exists_of_ok
    rw [ofLeaves_of_placeLeaves run]
    split
    · exact .refused .empty
    · rename_i occupied
      rw [List.isEmpty_iff] at occupied
      have there := ne_absent_of_placed placing occupied
      have holds := stands.holds
      rw [Node.rooted_of_ne_absent there] at holds
      split
      · rename_i complete
        rw [(gap?_eq_none_iff stands.linked holds).2 complete]
        exact agree_number stands there rfl
      · rename_i incomplete
        rw [gap?_eq_firstGap run stands.linked holds occupied (Bool.eq_false_iff.2 incomplete)]
        exact .refused _

end Arena

end AdaptiveMesh
