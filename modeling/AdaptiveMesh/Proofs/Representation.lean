import AdaptiveMesh.Mesh.Adapt
import AdaptiveMesh.Proofs.Acceptance
import AdaptiveMesh.Proofs.Arenas
import AdaptiveMesh.Proofs.Steps

/-!
# Representation

What holds of every arena that is built. Its nodes form one tree, linked both ways, in which every place
occurs once and every internal node has a child exactly where its part of the domain is; the leaves are
numbered one to one. And it stores the tree that is built from the same leaves: at every place both have
a leaf with the same gid, an internal node with children in the same octants, or nothing.
-/

namespace AdaptiveMesh

set_option autoImplicit false

/-- Whether a place has a cell of the domain in it, where cells are as fine as the place and not coarser
than the root blocks. -/
def RootGrid.Overlaps (grid : RootGrid) (place : Location) : Prop :=
  ∃ cell : Location, cell.level = max grid.rootLevel place.level ∧ grid.Holds cell ∧
    place.contains cell = true

theorem RootGrid.contains_iff_overlaps {grid : RootGrid} {place : Location}
    (fits : grid.LevelFits (max grid.rootLevel place.level))
    (near : grid.rootLevel ≤ place.level + 62) :
    grid.contains place = true ↔ grid.Overlaps place := by
  constructor
  · intro inside
    have fine := Nat.le_max_left grid.rootLevel place.level
    have below := Nat.le_max_right grid.rootLevel place.level
    have corner := contains_cornerAt fits near below inside
    have level := place.level_cornerAt (max grid.rootLevel place.level)
    rw [← level] at fits fine
    exact ⟨_, level, (contains_iff_holds fits fine).1 corner, Location.contains_cornerAt below⟩
  · intro found
    obtain ⟨cell, level, holds, inside⟩ := found
    rw [← level] at fits
    have fine : grid.rootLevel ≤ cell.level := by omega
    exact contains_of_contains fits near inside ((contains_iff_holds fits fine).2 holds)

/-- What can be seen of a node apart from where it is stored: its gid, if it is a leaf with one, and the
places of its children, octant by octant. -/
structure NodeView where
  leaf : Bool
  gid? : Option Nat
  children : List (Option Location)
deriving DecidableEq, Repr

def PlacedNode.view (n : PlacedNode) : NodeView where
  leaf := n.isLeaf
  gid? := n.gid?
  children := Octant.all.map fun o => (n.child? o).map PlacedNode.loc

def BlockTree.view? (tree : BlockTree) (loc : Location) : Option NodeView :=
  (tree.nodes.find? fun n => n.loc = loc).map PlacedNode.view

theorem Links.length_present {links : Links} {dim : Nat} (positive : 1 ≤ dim) (bounded : dim ≤ 3)
    (present : ∀ o, (links.at? o).isSome = o.isValidFor dim) :
    links.present.length = 2 ^ dim := by
  rw [Links.present, List.length_filterMap_eq_countP]
  simp only [present]
  interval_cases dim <;> decide

namespace Arena

def childPlace? (arena : Arena) (node : ArenaNode) (o : Octant) : Option Location :=
  (node.child? o).bind arena.place?

def view (arena : Arena) (node : ArenaNode) : NodeView where
  leaf := node.isLeaf
  gid? := node.gid?
  children := Octant.all.map (arena.childPlace? node)

def view? (arena : Arena) (loc : Location) : Option NodeView :=
  (arena.nodes.toList.find? fun node => node.loc = loc).map arena.view

/-- Whether an arena has the nodes of a tree, the same leaves in the order of their gids, and the same
neighbours. -/
structure Stores (arena : Arena) (tree : BlockTree) : Prop where
  grid : arena.grid = tree.grid
  size : arena.nodes.size = tree.numNodes
  nodes : ∀ loc, arena.view? loc = tree.view? loc
  leaves : arena.leaves.toList.map arena.place? = tree.locations.toList.map some
  neighbors : ∀ loc region,
    Agree (fun found index? => index?.map arena.place? = found.map fun n : PlacedNode => some n.loc)
      (tree.findNeighbor loc region) (arena.findNeighbor loc region)

/-- Whether the nodes of an arena form a tree over the domain with numbered leaves. -/
structure WellFormed (arena : Arena) : Prop where
  root : ∃ node, arena.nodes[0]? = some node ∧ node.loc = .root ∧ node.parent = none
  parent : ∀ (index : Nat) (node : ArenaNode), arena.nodes[index]? = some node → index ≠ 0 →
    ∃ (above : Nat) (up : ArenaNode) (links : Links), node.parent = some above ∧
      arena.nodes[above]? = some up ∧ up.kind = .internal links ∧
      links.at? node.loc.octant = some index ∧ node.loc = up.loc.child node.loc.octant
  child : ∀ (above : Nat) (up : ArenaNode) (links : Links) (o : Octant) (index : Nat),
    arena.nodes[above]? = some up → up.kind = .internal links → links.at? o = some index →
    ∃ node, arena.nodes[index]? = some node ∧ node.parent = some above ∧ node.loc = up.loc.child o
  distinct : ∀ (i j : Nat) (a b : ArenaNode), arena.nodes[i]? = some a → arena.nodes[j]? = some b →
    a.loc = b.loc → i = j
  /-- An internal node has a child in exactly the octants of the dimension that meet the domain. -/
  covers : ∀ (index : Nat) (node : ArenaNode) (links : Links) (o : Octant),
    arena.nodes[index]? = some node → node.kind = .internal links →
    ((links.at? o).isSome = true ↔
      o.isValidFor arena.grid.dim = true ∧ arena.grid.Overlaps (node.loc.child o))
  /-- From the root level on these are all octants of the dimension. -/
  whole : ∀ (index : Nat) (node : ArenaNode) (links : Links), arena.nodes[index]? = some node →
    node.kind = .internal links → arena.grid.rootLevel ≤ node.loc.level →
    (∀ o : Octant, o.isValidFor arena.grid.dim = true → (links.at? o).isSome = true) ∧
      links.present.length = 2 ^ arena.grid.dim
  numbered : ∀ gid index : Nat, arena.leaves[gid]? = some index →
    ∃ node, arena.nodes[index]? = some node ∧ node.kind = .leaf (some gid)
  listed : ∀ (index : Nat) (node : ArenaNode) (gid? : Option Nat), arena.nodes[index]? = some node →
    node.kind = .leaf gid? → ∃ gid, gid? = some gid ∧ arena.leaves[gid]? = some index
  once : ∀ gid other index : Nat, arena.leaves[gid]? = some index →
    arena.leaves[other]? = some index → gid = other

namespace LaysOut

variable {arena : Arena} {tree : BlockTree} {node : ArenaNode} {index : Nat} {o : Octant}
  {links : Links} {loc : Location} {seen : NodeView} (lays : arena.LaysOut tree)

include lays

theorem shape (here : arena.nodes[index]? = some node) :
    (tree.root.along node.loc.path).shape? = some node.isLeaf := by
  have proper := lays.linked.root_contains here
  rw [← lays.holds, lays.linked.shapeAt_iff]
  exact ⟨index, node, here, (Location.ofPath_path proper).symm, rfl⟩

theorem child?_isSome (here : arena.nodes[index]? = some node) (o : Octant) :
    (node.child? o).isSome = !((tree.root.along node.loc.path).child o).isAbsent := by
  have proper := lays.linked.root_contains here
  rw [lays.linked.child?_isSome_iff here (Location.ofPath_path proper).symm, lays.holds,
    Node.along_append, Node.along_cons, Node.along_nil]
  cases (tree.root.along node.loc.path).child o <;> rfl

theorem childPlace?_eq (here : arena.nodes[index]? = some node) (o : Octant) :
    arena.childPlace? node o =
      if ((tree.root.along node.loc.path).child o).isAbsent then none else some (node.loc.child o) := by
  have present := lays.child?_isSome here o
  rw [childPlace?]
  cases below : node.child? o with
  | none =>
      rw [below] at present
      rw [if_pos (by simpa using present)]
      rfl
  | some child =>
      obtain ⟨under, there, place⟩ := (lays.linked.child?_iff here).1 below
      rw [below] at present
      rw [if_neg (by simpa using present), Option.bind_some, place?, there, Option.map_some, place]

theorem exists_gid (here : arena.nodes[index]? = some node) (leaf : node.isLeaf = true) :
    ∃ gid : Nat, arena.leaves[gid]? = some index ∧ node.kind = .leaf (some gid) ∧
      tree.location? gid = some node.loc := by
  obtain ⟨gid, called⟩ := lays.listed index node here leaf
  obtain ⟨twin, there, kind, block⟩ := lays.numbered gid index called
  cases here.symm.trans there
  exact ⟨gid, called, kind, block⟩

theorem gid?_eq (here : arena.nodes[index]? = some node) :
    node.gid? = (tree.root.along node.loc.path).value? := by
  have shape := lays.shape here
  cases kind : node.isLeaf with
  | true =>
      obtain ⟨gid, _, same, block⟩ := lays.exists_gid here kind
      rw [ArenaNode.gid?, same, BlockTree.along_path block]
      rfl
  | false =>
      rw [kind] at shape
      obtain ⟨f, refined⟩ := Node.exists_children_of_shape shape
      obtain ⟨links, same, _⟩ := ArenaNode.exists_links kind
      rw [ArenaNode.gid?, same, refined]
      rfl

theorem view_eq (here : arena.nodes[index]? = some node) :
    arena.view node = (⟨node.loc, tree.root.along node.loc.path⟩ : PlacedNode).view := by
  have shape := lays.shape here
  have leaf : node.isLeaf = (tree.root.along node.loc.path).isLeaf := by
    cases kind : tree.root.along node.loc.path with
    | absent =>
        rw [kind] at shape
        cases shape
    | leaf gid =>
        rw [kind] at shape
        exact (Option.some.inj shape).symm
    | internal =>
        rw [kind] at shape
        exact (Option.some.inj shape).symm
  have children (o : Octant) : arena.childPlace? node o =
      ((⟨node.loc, tree.root.along node.loc.path⟩ : PlacedNode).child? o).map PlacedNode.loc := by
    rw [lays.childPlace?_eq here, PlacedNode.child?]
    split <;> rfl
  rw [view, PlacedNode.view, PlacedNode.isLeaf, PlacedNode.gid?, leaf, lays.gid?_eq here,
    funext children]

theorem view?_eq_some_iff : arena.view? loc = some seen ↔
    ∃ (index : Nat) (node : ArenaNode), arena.nodes[index]? = some node ∧ node.loc = loc ∧
      arena.view node = seen := by
  have among {node : ArenaNode} (member : node ∈ arena.nodes.toList) :
      ∃ index : Nat, arena.nodes[index]? = some node :=
    Array.getElem?_of_mem (Array.mem_toList_iff.1 member)
  rw [view?, Option.map_eq_some_iff]
  constructor
  · intro found
    obtain ⟨node, first, same⟩ := found
    obtain ⟨index, here⟩ := among (List.mem_of_find?_eq_some first)
    have place := List.find?_some first
    exact ⟨index, node, here, by simpa using place, same⟩
  · intro there
    obtain ⟨index, node, here, place, same⟩ := there
    cases first : arena.nodes.toList.find? fun node => node.loc = loc with
    | none =>
        have missed := List.find?_eq_none.1 first node
          (Array.mem_toList_iff.2 (Array.mem_of_getElem? here))
        exact absurd (decide_eq_true place) missed
    | some other =>
        obtain ⟨position, met⟩ := among (List.mem_of_find?_eq_some first)
        have placeOther : other.loc = loc := by simpa using List.find?_some first
        have equal := lays.linked.eq_of_loc here met (place.trans placeOther.symm)
        rw [equal] at here
        cases here.symm.trans met
        exact ⟨node, rfl, same⟩

end LaysOut

end Arena

theorem BlockTree.view?_eq_some_iff {tree : BlockTree} {loc : Location} {seen : NodeView} :
    tree.view? loc = some seen ↔ Location.root.contains loc = true ∧
      tree.root.along loc.path ≠ .absent ∧
      (⟨loc, tree.root.along loc.path⟩ : PlacedNode).view = seen := by
  rw [view?, Option.map_eq_some_iff]
  have known {n : PlacedNode} (first : tree.nodes.find? (fun n => n.loc = loc) = some n) :
      Location.root.contains loc = true ∧ tree.root.along loc.path ≠ .absent ∧
        (⟨loc, tree.root.along loc.path⟩ : PlacedNode) = n := by
    have place : n.loc = loc := by simpa using List.find?_some first
    obtain ⟨proper, ends, there⟩ := mem_nodes_iff.1 (List.mem_of_find?_eq_some first)
    rw [place] at proper ends
    exact ⟨proper, by rw [ends]; exact there, PlacedNode.eq_of_parts place.symm ends⟩
  constructor
  · intro found
    obtain ⟨n, first, same⟩ := found
    obtain ⟨proper, there, whole⟩ := known first
    exact ⟨proper, there, by rw [whole, same]⟩
  · intro here
    obtain ⟨proper, there, same⟩ := here
    have member : (⟨loc, tree.root.along loc.path⟩ : PlacedNode) ∈ tree.nodes :=
      mem_nodes_iff.2 ⟨proper, rfl, there⟩
    cases first : tree.nodes.find? (fun n => n.loc = loc) with
    | none => exact absurd (decide_eq_true rfl) (List.find?_eq_none.1 first _ member)
    | some n => exact ⟨n, rfl, by rw [← (known first).2.2, same]⟩

namespace Arena

namespace LaysOut

variable {arena : Arena} {tree : BlockTree} {node : ArenaNode} {index : Nat} {o : Octant}
  {links : Links} {loc : Location} {seen : NodeView} (lays : arena.LaysOut tree)

include lays

/-- Going down a path ends at the same place, or fails at the same place, as in the tree. -/
theorem agree_reach {path : List Octant} (here : arena.nodes[index]? = some node) :
    Agree (fun n index => arena.place? index = some n.loc)
      ((⟨node.loc, tree.root.along node.loc.path⟩ : PlacedNode).reach path)
      (reach arena.nodes path index) := by
  induction path generalizing index node with
  | nil => exact .made (by rw [place?, here, Option.map_some])
  | cons o rest ih =>
      have shape := lays.shape here
      have present := lays.child?_isSome here o
      cases kind : node.kind with
      | leaf gid =>
          rw [ArenaNode.isLeaf, kind] at shape
          obtain ⟨g, ends⟩ := Node.exists_leaf_of_shape shape
          simp only [PlacedNode.reach, PlacedNode.isLeaf, ends, Node.isLeaf, if_true, reach, here, kind]
          exact .made (by rw [place?, here, Option.map_some])
      | internal links =>
          have internal : node.isLeaf = false := by rw [ArenaNode.isLeaf, kind]
          have children : node.child? o = links.at? o := by rw [ArenaNode.child?, kind]
          rw [internal] at shape
          obtain ⟨f, refined⟩ := Node.exists_children_of_shape shape
          simp only [PlacedNode.reach, PlacedNode.isLeaf, refined, Node.isLeaf_ofChildren,
            Bool.false_eq_true, if_false, PlacedNode.child?, Node.child_ofChildren, reach, here, kind]
          rw [refined, Node.child_ofChildren, children] at present
          cases below : links.at? o with
          | none =>
              rw [below] at present
              rw [if_pos (by simpa using present)]
              exact .refused _
          | some child =>
              rw [below] at present
              obtain ⟨under, there, place⟩ := (lays.linked.child?_iff here).1 (children.trans below)
              have inside : f o = tree.root.along under.loc.path := by
                rw [place, Location.path_child, Node.along_append, refined, Node.along_cons,
                  Node.child_ofChildren, Node.along_nil]
              rw [if_neg (by simpa using present), inside, ← place]
              exact ih there

theorem agree_findNeighbor (loc : Location) (region : Region) :
    Agree (fun found index? => index?.map arena.place? = found.map fun n : PlacedNode => some n.loc)
      (tree.findNeighbor loc region) (arena.findNeighbor loc region) := by
  unfold BlockTree.findNeighbor findNeighbor
  rw [lays.grid]
  by_cases wrong : (!region.isValidFor tree.grid.dim) = true
  · rw [if_pos wrong, if_pos wrong]
    exact .refused _
  · rw [if_neg wrong, if_neg wrong]
    cases wrapped : tree.grid.wrap (loc.shifted region) with
    | error e => exact .refused e
    | ok inside =>
        cases inside with
        | none => exact .made rfl
        | some target =>
            obtain ⟨top, here, place, _⟩ := lays.linked.root
            have agree : Agree _ _ (reach arena.nodes target.path 0) := lays.agree_reach here
            rw [place] at agree
            have whole : tree.root.along Location.root.path = tree.root := rfl
            rw [whole] at agree
            show Agree _ (tree.rootNode.reach target.path >>= fun n => .ok (some n)) _
            dsimp only
            rw [BlockTree.rootNode]
            cases reached : (⟨.root, tree.root⟩ : PlacedNode).reach target.path with
            | error e =>
                rw [reached] at agree
                rw [agree.eq_of_error]
                exact .refused e
            | ok n =>
                rw [reached] at agree
                obtain ⟨index, arrived, met⟩ := agree.exists_of_ok
                rw [arrived]
                exact .made (congrArg some met)

theorem stores : arena.Stores tree where
  grid := lays.grid
  size := lays.size
  leaves := lays.leaves
  neighbors := lays.agree_findNeighbor
  nodes := by
    intro loc
    apply Option.ext
    intro seen
    rw [lays.view?_eq_some_iff, BlockTree.view?_eq_some_iff]
    constructor
    · intro found
      obtain ⟨index, node, here, place, same⟩ := found
      have proper := lays.linked.root_contains here
      have shape := lays.shape here
      rw [lays.view_eq here] at same
      rw [place] at proper shape same
      refine ⟨proper, ?_, same⟩
      intro gone
      rw [gone] at shape
      cases shape
    · intro found
      obtain ⟨proper, there, same⟩ := found
      cases shape : (tree.root.along loc.path).shape? with
      | none => exact absurd (Node.shape?_eq_none_iff.1 shape) there
      | some leaf =>
          rw [← lays.holds, lays.linked.shapeAt_iff] at shape
          obtain ⟨index, node, here, place, _⟩ := shape
          rw [Location.ofPath_path proper] at place
          exact ⟨index, node, here, place, by rw [lays.view_eq here, place, same]⟩

theorem contains_child_iff (here : arena.nodes[index]? = some node)
    (kind : node.kind = .internal links) (o : Octant) :
    (links.at? o).isSome = true ↔ tree.grid.contains (node.loc.child o) = true := by
  have proper := lays.linked.root_contains here
  have shape := lays.shape here
  have present := lays.child?_isSome here o
  rw [ArenaNode.isLeaf, kind] at shape
  rw [ArenaNode.child?, kind] at present
  obtain ⟨f, refined⟩ := Node.exists_children_of_shape shape
  have inside := BlockTree.child_present_iff refined o
  rw [Location.ofPath_path proper] at inside
  rw [← inside]
  simp only at present
  rw [present, refined, Node.child_ofChildren, Bool.not_eq_true', ← Bool.not_eq_true, Node.isAbsent_iff]

theorem inside_of_internal (fits : tree.Fits) (here : arena.nodes[index]? = some node)
    (internal : node.isLeaf = false) :
    tree.grid.LevelFits (max tree.grid.rootLevel (node.loc.level + 1)) ∧
      (tree.grid.rootLevel ≤ node.loc.level → tree.grid.contains node.loc = true) := by
  have proper := lays.linked.root_contains here
  have shape := lays.shape here
  rw [internal] at shape
  obtain ⟨f, refined⟩ := Node.exists_children_of_shape shape
  obtain ⟨gid, home, block, around, deeper⟩ := BlockTree.exists_block_below refined
  rw [Location.ofPath_path proper] at around
  rw [Location.length_path] at deeper
  have fine := BlockTree.rootLevel_le_level block
  refine ⟨(fits.level block).mono (by omega), fun root => ?_⟩
  exact RootGrid.contains_of_contains (fits.level block) (by omega) around
    (BlockTree.contains_block fits block)

theorem isSome_at?_iff (fits : tree.Fits) (here : arena.nodes[index]? = some node)
    (kind : node.kind = .internal links) (o : Octant) : (links.at? o).isSome = true ↔
      o.isValidFor tree.grid.dim = true ∧ tree.grid.Overlaps (node.loc.child o) := by
  have internal : node.isLeaf = false := by rw [ArenaNode.isLeaf, kind]
  have fitsChild := (lays.inside_of_internal fits here internal).1
  have near := (fitsChild.mono (Nat.le_max_right _ _)).near (.inl (Nat.succ_pos _))
  have overlaps : tree.grid.contains (node.loc.child o) = true ↔ _ :=
    RootGrid.contains_iff_overlaps fitsChild near
  rw [lays.contains_child_iff here kind, ← overlaps]
  constructor
  · intro inside
    exact ⟨RootGrid.isValidFor_of_contains_child inside, inside⟩
  · intro valid
    exact valid.2

/-- From the root level on, a node is in the domain with all its children. -/
theorem isSome_at?_eq (fits : tree.Fits) (here : arena.nodes[index]? = some node)
    (kind : node.kind = .internal links) (fine : tree.grid.rootLevel ≤ node.loc.level) (o : Octant) :
    (links.at? o).isSome = o.isValidFor tree.grid.dim := by
  have internal : node.isLeaf = false := by rw [ArenaNode.isLeaf, kind]
  obtain ⟨fitsChild, inside⟩ := lays.inside_of_internal fits here internal
  rw [Bool.eq_iff_iff, lays.contains_child_iff here kind]
  constructor
  · exact RootGrid.isValidFor_of_contains_child
  · exact RootGrid.contains_child (fitsChild.mono (Nat.le_max_right _ _)) fine (inside fine)

theorem wellFormed (fits : tree.Fits) : arena.WellFormed where
  root := lays.linked.root
  child := by
    intro above up links o index here kind below
    apply lays.linked.child above up o index here
    rw [ArenaNode.child?, kind]
    exact below
  distinct := fun _ _ _ _ hereA hereB same => lays.linked.eq_of_loc hereA hereB same
  parent := by
    intro index node here apart
    obtain ⟨above, up, o, named, _, met, below, place⟩ := lays.linked.parent index node here apart
    obtain ⟨links, kind, children⟩ := ArenaNode.exists_links (ArenaNode.isLeaf_of_child? below)
    have octant : node.loc.octant = o := by rw [place, Location.octant_child]
    rw [octant]
    exact ⟨above, up, links, named, met, kind, (children o).symm.trans below, place⟩
  covers := by
    intro index node links o here kind
    rw [lays.grid]
    exact lays.isSome_at?_iff fits here kind o
  whole := by
    intro index node links here kind fine
    rw [lays.grid] at fine ⊢
    have present := lays.isSome_at?_eq fits here kind fine
    constructor
    · intro o valid
      rw [present, valid]
    · exact Links.length_present tree.grid.one_le_dim tree.grid.dim_le_three present
  numbered := by
    intro gid index called
    obtain ⟨node, here, kind, _⟩ := lays.numbered gid index called
    exact ⟨node, here, kind⟩
  listed := by
    intro index node gid? here kind
    have leaf : node.isLeaf = true := by rw [ArenaNode.isLeaf, kind]
    obtain ⟨gid, called, same, _⟩ := lays.exists_gid here leaf
    rw [kind] at same
    cases same
    exact ⟨gid, rfl, called⟩
  once := by
    intro gid other index called again
    obtain ⟨node, here, kind, _⟩ := lays.numbered gid index called
    obtain ⟨twin, there, same, _⟩ := lays.numbered other index again
    cases here.symm.trans there
    rw [kind] at same
    cases same
    rfl

end LaysOut

end Arena

namespace BlockTree

/-- The trees that are returned, with the leaves that each is built from. -/
inductive Returned : List Location → BlockTree → Prop where
  | ofLeaves {grid : RootGrid} {leaves : List Location} {tree : BlockTree}
      (built : ofLeaves grid leaves = .ok tree) : Returned leaves tree
  | uniform {grid : RootGrid} {tree : BlockTree} (built : uniform grid = .ok tree) :
      Returned grid.rootLocations tree
  | refine {tree next : BlockTree} {flags : Array Bool} {gids : List Nat}
      (refined : tree.refine flags = .ok (next, gids)) :
      Returned ((tree.withFlags flags).map (BlockTree.refined tree.grid)).flatten next
  | coarsen {tree next : BlockTree} {flags : Array Bool} {gids : List Nat}
      {pieces : List (Location × Nat)} (merging : merged tree.grid (tree.withFlags flags) 0 = .ok pieces)
      (coarsened : tree.coarsen flags = .ok (next, gids)) : Returned (pieces.map Prod.fst) next
  | restore {kept : TreeCheckpoint} {tree : BlockTree} (restored : kept.restore = .ok tree) :
      Returned kept.leaves tree

theorem ofLeaves_of_returned {leaves : List Location} {tree : BlockTree}
    (returned : Returned leaves tree) : ofLeaves tree.grid leaves = .ok tree := by
  have own {grid : RootGrid} {leaves : List Location} {tree : BlockTree}
      (built : ofLeaves grid leaves = .ok tree) : ofLeaves tree.grid leaves = .ok tree := by
    rw [(ofLeaves_spec built).1, built]
  cases returned with
  | ofLeaves built => exact own built
  | uniform built => exact own built
  | restore restored => exact own restored
  | refine refined =>
      obtain ⟨_, _, rest⟩ := Outcome.bind_ok_iff.1 refined
      obtain ⟨next, built, made⟩ := Outcome.bind_ok_iff.1 rest
      cases made
      exact own built
  | coarsen merging coarsened =>
      obtain ⟨_, _, rest⟩ := Outcome.bind_ok_iff.1 coarsened
      obtain ⟨pieces, again, rest⟩ := Outcome.bind_ok_iff.1 rest
      cases merging.symm.trans again
      obtain ⟨next, built, made⟩ := Outcome.bind_ok_iff.1 rest
      cases made
      exact own built

end BlockTree

namespace Arena

/-- A list of leaves makes an arena exactly if it makes a tree, and is refused for the same reason
otherwise. The arena is well formed and stores the tree, which is what every operation that builds its
tree from these leaves returns. -/
theorem represents_returned (grid : RootGrid) (leaves : List Location)
    (fits : ∀ loc ∈ leaves, grid.LevelFits loc.level) :
    Agree (fun tree arena => arena.WellFormed ∧ arena.Stores tree) (BlockTree.ofLeaves grid leaves)
      (ofLeaves grid leaves) ∧
    ∀ tree : BlockTree, tree.grid = grid → BlockTree.Returned leaves tree →
      BlockTree.ofLeaves grid leaves = .ok tree := by
  constructor
  · apply (agree_ofLeaves grid leaves).imp
    intro tree arena built lays
    exact ⟨lays.wellFormed (BlockTree.perm_of_ofLeaves fits built).2.2, lays.stores⟩
  · intro tree same returned
    rw [← same]
    exact BlockTree.ofLeaves_of_returned returned

/-- Leaves out of order leave their mark on where the nodes are stored, and on nothing else. -/
theorem represents_returned_oblong :
    ∃ tree arena, BlockTree.ofLeaves BlockTree.oblongGrid BlockTree.oblongLeaves = .ok tree ∧
      ofLeaves BlockTree.oblongGrid BlockTree.oblongLeaves = .ok arena ∧
      arena.nodes.size = 13 ∧ arena.leaves = #[12, 11, 10, 9, 2, 5, 6, 4, 7] ∧
      arena.WellFormed ∧ arena.Stores tree ∧
      BlockTree.Returned BlockTree.oblongLeaves tree := by
  have fits : ∀ loc ∈ BlockTree.oblongLeaves, BlockTree.oblongGrid.LevelFits loc.level := by decide
  have computed : (ofLeaves BlockTree.oblongGrid BlockTree.oblongLeaves).toOption.any (fun arena =>
      arena.nodes.size = 13 && arena.leaves = #[12, 11, 10, 9, 2, 5, 6, 4, 7]) = true := by
    decide +kernel
  obtain ⟨arena, made, looks⟩ := Outcome.exists_ok_of_any computed
  simp only [Bool.and_eq_true, decide_eq_true_eq] at looks
  have agree := (represents_returned BlockTree.oblongGrid BlockTree.oblongLeaves fits).1
  cases built : BlockTree.ofLeaves BlockTree.oblongGrid BlockTree.oblongLeaves with
  | error e =>
      rw [built] at agree
      cases made.symm.trans agree.eq_of_error
  | ok tree =>
      rw [built] at agree
      obtain ⟨same, again, wellFormed, stores⟩ := agree.exists_of_ok
      cases made.symm.trans again
      exact ⟨tree, arena, rfl, made, looks.1, looks.2, wellFormed, stores, .ofLeaves built⟩

end Arena

end AdaptiveMesh
