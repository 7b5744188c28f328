import AdaptiveMesh.Proofs.Representation

/-!
# Z order

A tree does not show in which order its leaves were given: any two orders are refused alike or make the
same tree, and arenas that look the same from the places of their nodes. The gids follow the Z curve. Of
two leaves the first is the one whose path takes the earlier octant where the two paths part, and the
leaves below a node are numbered one after another.
-/

namespace AdaptiveMesh

set_option autoImplicit false

namespace Location

variable {a b loc : Location} {depth : Nat} {o : Octant}

/-- Whether the ways down to two places part at a depth. -/
structure PartAt (a b : Location) (depth : Nat) : Prop where
  levelA : depth < a.level
  levelB : depth < b.level
  same : ∀ earlier < depth, a.octantAt earlier = b.octantAt earlier
  differ : a.octantAt depth ≠ b.octantAt depth

theorem PartAt.symm (part : a.PartAt b depth) : b.PartAt a depth where
  levelA := part.levelB
  levelB := part.levelA
  same := fun earlier before => (part.same earlier before).symm
  differ := part.differ.symm

theorem getElem?_path (below : depth < loc.level) : loc.path[depth]? = some (loc.octantAt depth) := by
  rw [path, List.getElem?_map, List.getElem?_range below, Option.map_some]

theorem octantAt_of_contains_child (proper : root.contains loc = true)
    (inside : (a.child o).contains loc = true) :
    a.level < loc.level ∧ loc.octantAt a.level = o ∧
      ∀ earlier < a.level, loc.octantAt earlier = a.octantAt earlier := by
  have deeper : a.level < loc.level := level_le_of_contains inside
  have outer : root.contains (a.child o) = true := contains_of_common proper inside (Nat.zero_le _)
  obtain ⟨rest, whole⟩ := (Location.contains_iff_prefix outer proper).1 inside
  rw [path_child, List.append_assoc] at whole
  have length : a.path.length = a.level := length_path a
  refine ⟨deeper, ?_, fun earlier before => ?_⟩
  · have here := getElem?_path deeper
    rw [← whole, List.getElem?_append_right (by omega), length, Nat.sub_self] at here
    exact (Option.some.inj here).symm
  · have here := getElem?_path (before.trans deeper)
    rw [← whole, List.getElem?_append_left (by omega), getElem?_path before] at here
    exact (Option.some.inj here).symm

theorem Precedes.exists_partAt (properA : root.contains a = true) (properB : root.contains b = true)
    (before : a.Precedes b) :
    ∃ depth, a.PartAt b depth ∧ (a.octantAt depth).linear < (b.octantAt depth).linear := by
  obtain ⟨above, o, other, ordered, aroundA, aroundB⟩ := before
  obtain ⟨deeperA, octantA, wayA⟩ := octantAt_of_contains_child properA aroundA
  obtain ⟨deeperB, octantB, wayB⟩ := octantAt_of_contains_child properB aroundB
  rw [← octantA, ← octantB] at ordered
  refine ⟨above.level, ⟨deeperA, deeperB, fun earlier before => ?_, fun same => ?_⟩, ordered⟩
  · rw [wayA earlier before, wayB earlier before]
  · rw [same] at ordered
    exact Nat.lt_irrefl _ ordered

end Location

/-- The leaves below a node follow one another among all leaves. -/
theorem Node.exists_entries_along {α : Type} (n : Node α) (loc : Location) (path : List Octant) :
    ∃ before after, n.entries loc =
      before ++ (n.along path).entries (path.foldl Location.child loc) ++ after := by
  induction path generalizing n loc with
  | nil => exact ⟨[], [], by rw [List.nil_append, List.append_nil]; rfl⟩
  | cons o rest ih =>
      have nothing (gone : n.child o = .absent) : ∃ before after, n.entries loc =
          before ++ (n.along (o :: rest)).entries ((o :: rest).foldl Location.child loc) ++ after := by
        refine ⟨n.entries loc, [], ?_⟩
        rw [along_cons, gone, along_absent, entries_absent, List.append_nil, List.append_nil]
      cases n.absent_or_leaf_or_children with
      | inl absent => exact nothing (by rw [absent, child_absent])
      | inr there =>
          cases there with
          | inl leaf =>
              obtain ⟨a, same⟩ := leaf
              exact nothing (by rw [same, child_leaf])
          | inr children =>
              obtain ⟨f, same⟩ := children
              obtain ⟨first, last, octants⟩ := List.append_of_mem o.mem_all
              obtain ⟨before, after, below⟩ := ih (f o) (loc.child o)
              refine ⟨(first.flatMap fun o => (f o).entries (loc.child o)) ++ before,
                after ++ last.flatMap fun o => (f o).entries (loc.child o), ?_⟩
              rw [same, entries_ofChildren, octants, List.flatMap_append, List.flatMap_cons, below,
                along_cons, child_ofChildren, List.foldl_cons]
              simp only [List.append_assoc]

namespace BlockTree

variable {tree : BlockTree} {grid : RootGrid} {leaves others : List Location}

/-- Whether the gids of a tree follow the Z curve. -/
structure ZOrdered (tree : BlockTree) : Prop where
  first : ∀ (gid other : Nat) (a b : Location), tree.location? gid = some a →
    tree.location? other = some b → a ≠ b →
    ∃ depth, a.PartAt b depth ∧
      (gid < other ↔ (a.octantAt depth).linear < (b.octantAt depth).linear)
  /-- The leaves below a node are numbered one after another. -/
  range : ∀ node ∈ tree.nodes, ∃ start, start + node.node.size ≤ tree.numLeaves ∧
    ∀ (gid : Nat) (loc : Location), tree.location? gid = some loc →
      (node.loc.contains loc = true ↔ start ≤ gid ∧ gid < start + node.node.size)

theorem precedes_of_lt {gid other : Nat} {a b : Location} (blockA : tree.location? gid = some a)
    (blockB : tree.location? other = some b) (ordered : gid < other) : a.Precedes b := by
  rw [location?, ← Array.getElem?_toList] at blockA blockB
  obtain ⟨boundA, same⟩ := List.getElem?_eq_some_iff.1 blockA
  obtain ⟨boundB, sameB⟩ := List.getElem?_eq_some_iff.1 blockB
  rw [← same, ← sameB]
  exact List.pairwise_iff_getElem.1 tree.locations_ordered gid other boundA boundB ordered

theorem getElem?_entries {position gid : Nat} {loc : Location} :
    (tree.root.entries .root)[position]? = some (loc, gid) ↔
      position = gid ∧ tree.location? gid = some loc := by
  rw [tree.entries_eq, List.getElem?_zipIdx, location?, ← Array.getElem?_toList, Nat.zero_add,
    Option.map_eq_some_iff]
  constructor
  · intro found
    obtain ⟨place, here, same⟩ := found
    cases same
    exact ⟨rfl, here⟩
  · intro block
    obtain ⟨same, here⟩ := block
    rw [same]
    exact ⟨loc, here, rfl⟩

theorem mem_entries_of_contains {node : PlacedNode} {gid : Nat} {loc : Location}
    (member : node ∈ tree.nodes) (block : tree.location? gid = some loc)
    (inside : node.loc.contains loc = true) : (loc, gid) ∈ node.node.entries node.loc := by
  obtain ⟨proper, here, _⟩ := mem_nodes_iff.1 member
  have properLoc := root_contains_block block
  have ends := along_path block
  obtain ⟨rest, whole⟩ := (Location.contains_iff_prefix proper properLoc).1 inside
  rw [← whole, Node.along_append, here] at ends
  refine Node.mem_entries_iff.2 ⟨rest, ends, ?_⟩
  have place : Location.ofPath loc.path = loc := Location.ofPath_path properLoc
  have above : node.loc.path.foldl Location.child .root = node.loc := Location.ofPath_path proper
  rw [← whole, Location.ofPath, List.foldl_append, above] at place
  exact place

/-- Of two leaves the one with the lesser gid takes the earlier octant where their ways part. -/
theorem exists_partAt {gid other : Nat} {a b : Location} (blockA : tree.location? gid = some a)
    (blockB : tree.location? other = some b) (apart : a ≠ b) :
    ∃ depth, a.PartAt b depth ∧
      (gid < other ↔ (a.octantAt depth).linear < (b.octantAt depth).linear) := by
  have properA := root_contains_block blockA
  have properB := root_contains_block blockB
  cases Nat.lt_trichotomy gid other with
  | inl earlier =>
      obtain ⟨depth, part, ordered⟩ :=
        (precedes_of_lt blockA blockB earlier).exists_partAt properA properB
      exact ⟨depth, part, fun _ => ordered, fun _ => earlier⟩
  | inr rest =>
      cases rest with
      | inl same =>
          rw [same, blockB] at blockA
          exact absurd (Option.some.inj blockA).symm apart
      | inr later =>
          obtain ⟨depth, part, ordered⟩ :=
            (precedes_of_lt blockB blockA later).exists_partAt properB properA
          exact ⟨depth, part.symm, fun earlier => absurd earlier later.asymm,
            fun before => absurd before ordered.asymm⟩

/-- The leaves below a node are numbered one after another. -/
theorem exists_range {node : PlacedNode} (member : node ∈ tree.nodes) :
    ∃ start, start + node.node.size ≤ tree.numLeaves ∧
      ∀ (gid : Nat) (loc : Location), tree.location? gid = some loc →
        (node.loc.contains loc = true ↔ start ≤ gid ∧ gid < start + node.node.size) := by
  obtain ⟨proper, here, _⟩ := mem_nodes_iff.1 member
  have above : node.loc.path.foldl Location.child .root = node.loc := Location.ofPath_path proper
  obtain ⟨before, after, whole⟩ := tree.root.exists_entries_along .root node.loc.path
  rw [here, above] at whole
  have total := congrArg List.length whole
  rw [tree.entries_eq, List.length_zipIdx, Array.length_toList, List.length_append,
    List.length_append, Node.length_entries] at total
  refine ⟨before.length, by rw [numLeaves]; omega, fun gid loc block => ?_⟩
  constructor
  · intro inside
    obtain ⟨position, found⟩ :=
      List.mem_iff_getElem?.1 (mem_entries_of_contains member block inside)
    have bound := (List.getElem?_eq_some_iff.1 found).1
    rw [Node.length_entries] at bound
    have among : (tree.root.entries .root)[before.length + position]? = some (loc, gid) := by
      rw [whole, List.append_assoc, List.getElem?_append_right (Nat.le_add_right _ _),
        Nat.add_sub_cancel_left, List.getElem?_append_left (by rw [Node.length_entries]; exact bound)]
      exact found
    have same := (getElem?_entries.1 among).1
    omega
  · intro within
    have listed := getElem?_entries.2 ⟨rfl, block⟩
    rw [whole, List.append_assoc, List.getElem?_append_right within.1,
      List.getElem?_append_left (by rw [Node.length_entries]; omega)] at listed
    exact Node.contains_of_mem_entries (List.mem_of_getElem? listed)

theorem zOrdered (tree : BlockTree) : tree.ZOrdered where
  first := fun _ _ _ _ blockA blockB apart => exists_partAt blockA blockB apart
  range := fun _ member => exists_range member

theorem ofLeaves_perm (same : leaves.Perm others) (fits : ∀ loc ∈ leaves, grid.LevelFits loc.level)
    (built : ofLeaves grid leaves = .ok tree) : ofLeaves grid others = .ok tree := by
  have fitsOthers (loc : Location) (member : loc ∈ others) : grid.LevelFits loc.level :=
    fits loc (same.mem_iff.2 member)
  have tiles := ((exists_ofLeaves_iff_tiles fits).1 ⟨tree, built⟩).perm same
  obtain ⟨again, rebuilt⟩ := (exists_ofLeaves_iff_tiles fitsOthers).2 tiles
  obtain ⟨gridTree, listed, _⟩ := perm_of_ofLeaves fits built
  obtain ⟨gridAgain, relisted, _⟩ := perm_of_ofLeaves fitsOthers rebuilt
  have equal : again = tree := by
    apply eq_of_locations (gridAgain.trans gridTree.symm)
    intro loc
    rw [← Array.mem_toList_iff, ← Array.mem_toList_iff, relisted.mem_iff, listed.mem_iff,
      same.mem_iff]
  rw [rebuilt, equal]

end BlockTree

namespace Arena

variable {tree : BlockTree} {arena again : Arena}

/-- Whether two arenas can be told apart only by where their nodes are stored. -/
structure LooksLike (arena again : Arena) : Prop where
  size : arena.nodes.size = again.nodes.size
  leaves : arena.leaves.toList.map arena.place? = again.leaves.toList.map again.place?
  nodes : ∀ loc, arena.view? loc = again.view? loc
  neighbors : ∀ loc region, (Option.map arena.place? <$> arena.findNeighbor loc region) =
    Option.map again.place? <$> again.findNeighbor loc region

theorem Stores.looksLike (stores : arena.Stores tree) (restores : again.Stores tree) :
    arena.LooksLike again where
  size := stores.size.trans restores.size.symm
  leaves := stores.leaves.trans restores.leaves.symm
  nodes := fun loc => (stores.nodes loc).trans (restores.nodes loc).symm
  neighbors := by
    intro loc region
    have first := stores.neighbors loc region
    have second := restores.neighbors loc region
    cases found : tree.findNeighbor loc region with
    | error error =>
        rw [found] at first second
        rw [first.eq_of_error, second.eq_of_error]
        rfl
    | ok n =>
        rw [found] at first second
        obtain ⟨index, met, place⟩ := first.exists_of_ok
        obtain ⟨position, remet, samePlace⟩ := second.exists_of_ok
        rw [met, remet]
        exact congrArg Except.ok (place.trans samePlace.symm)

end Arena

namespace BlockTree

variable {tree : BlockTree} {grid : RootGrid} {leaves others : List Location}

theorem exists_arena (built : ofLeaves grid leaves = .ok tree) :
    ∃ arena : Arena, Arena.ofLeaves grid leaves = .ok arena ∧ arena.Stores tree := by
  have agree := Arena.agree_ofLeaves grid leaves
  rw [built] at agree
  obtain ⟨arena, made, lays⟩ := agree.exists_of_ok
  exact ⟨arena, made, lays.stores⟩

/-- The order in which leaves are given does not matter: both lists are refused, or both make the same
tree, and arenas that look the same. The gids follow the Z curve, and the tree is built again from its
own leaves. -/
theorem canonical_of_perm (same : leaves.Perm others)
    (fits : ∀ loc ∈ leaves, grid.LevelFits loc.level) :
    ((∃ tree, ofLeaves grid leaves = .ok tree) ↔ ∃ tree, ofLeaves grid others = .ok tree) ∧
    ∀ tree, ofLeaves grid leaves = .ok tree → ofLeaves grid others = .ok tree ∧
      (∃ arena again, Arena.ofLeaves grid leaves = .ok arena ∧ Arena.ofLeaves grid others = .ok again ∧
        arena.Stores tree ∧ arena.LooksLike again) ∧
      tree.ZOrdered ∧ ofLeaves grid tree.locations.toList = .ok tree ∧
      tree.checkpoint.restore = .ok tree := by
  have fitsOthers (loc : Location) (member : loc ∈ others) : grid.LevelFits loc.level :=
    fits loc (same.mem_iff.2 member)
  constructor
  · constructor
    · intro built
      obtain ⟨tree, built⟩ := built
      exact ⟨tree, ofLeaves_perm same fits built⟩
    · intro built
      obtain ⟨tree, built⟩ := built
      exact ⟨tree, ofLeaves_perm same.symm fitsOthers built⟩
  · intro tree built
    have rebuilt := ofLeaves_perm same fits built
    obtain ⟨sameGrid, _, treeFits⟩ := perm_of_ofLeaves fits built
    have reloaded := ofLeaves_locations treeFits
    obtain ⟨arena, made, stores⟩ := exists_arena built
    obtain ⟨again, remade, restores⟩ := exists_arena rebuilt
    refine ⟨rebuilt, ⟨arena, again, made, remade, stores, stores.looksLike restores⟩, tree.zOrdered, ?_,
      reloaded⟩
    rw [← sameGrid]
    exact reloaded

/-- In reverse the leaves are stored elsewhere, and nothing else is different. -/
theorem canonical_of_perm_oblong :
    ∃ tree arena again, ofLeaves oblongGrid oblongLeaves = .ok tree ∧
      ofLeaves oblongGrid oblongLeaves.reverse = .ok tree ∧
      Arena.ofLeaves oblongGrid oblongLeaves = .ok arena ∧
      Arena.ofLeaves oblongGrid oblongLeaves.reverse = .ok again ∧
      arena.leaves = #[12, 11, 10, 9, 2, 5, 6, 4, 7] ∧ again.leaves = #[3, 4, 5, 6, 12, 10, 9, 11, 8] ∧
      arena.LooksLike again ∧ tree.ZOrdered := by
  have fits : ∀ loc ∈ oblongLeaves, oblongGrid.LevelFits loc.level := by decide
  have result := (canonical_of_perm oblongLeaves.reverse_perm.symm fits).2
  have computed : (ofLeaves oblongGrid oblongLeaves).isOk = true := by decide +kernel
  obtain ⟨tree, built⟩ := Outcome.exists_ok_of_isOk computed
  obtain ⟨rebuilt, ⟨arena, again, made, remade, _, looks⟩, ordered, _, _⟩ := result tree built
  have stored : (Arena.ofLeaves oblongGrid oblongLeaves).toOption.any (fun arena =>
      arena.leaves = #[12, 11, 10, 9, 2, 5, 6, 4, 7]) = true := by decide +kernel
  have restored : (Arena.ofLeaves oblongGrid oblongLeaves.reverse).toOption.any (fun arena =>
      arena.leaves = #[3, 4, 5, 6, 12, 10, 9, 11, 8]) = true := by decide +kernel
  rw [made] at stored
  rw [remade] at restored
  exact ⟨tree, arena, again, built, rebuilt, made, remade, of_decide_eq_true stored,
    of_decide_eq_true restored, looks, ordered⟩

end BlockTree

end AdaptiveMesh
