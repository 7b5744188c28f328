import AdaptiveMesh.Proofs.Families

/-!
# Recognizing families

In an arena a family is recognized at its first member: the parent is looked up, and then its children,
which must all be leaves. In the list of leaves it is recognized by the members that come next. Since the
members of a family follow one another, both ways find the same parents at the same blocks.
-/

namespace AdaptiveMesh

set_option autoImplicit false

namespace BlockTree

variable {tree : BlockTree} {parent : Location} {gid : Nat}

theorem head?_children (grid : RootGrid) (parent : Location) :
    (grid.children parent).head? = some (parent.child .empty) := by
  have nonempty : 1 <<< grid.dim ≠ 0 := by simp [Nat.one_shiftLeft]
  have first : (List.range (1 <<< grid.dim)).head? = some 0 := by
    rw [List.head?_range, if_neg nonempty]
  rw [RootGrid.children, Octant.forDim, List.head?_map, List.head?_map, first]
  rfl

/-- The leaves from a block on start with a family exactly if the block is the first of a family. -/
theorem familyParent?_drop_iff : tree.grid.familyParent?
      ((tree.locations.toList.drop gid).take tree.grid.numChildren) = some parent ↔
    tree.Family parent ∧ tree.location? gid = some (parent.child .empty) := by
  rw [RootGrid.familyParent?_iff]
  constructor
  · intro recognized
    obtain ⟨fine, run⟩ := recognized
    constructor
    · refine ⟨fine, fun member below => Array.mem_toList_iff.1 ?_⟩
      rw [← run] at below
      exact List.mem_of_mem_drop (List.mem_of_mem_take below)
    · have first := head?_children tree.grid parent
      have several : tree.grid.numChildren ≠ 0 :=
        Nat.ne_of_gt (Nat.lt_trans Nat.zero_lt_one tree.grid.one_lt_numChildren)
      rw [← run, List.head?_take, if_neg several, List.head?_drop, Array.getElem?_toList] at first
      exact first
  · intro whole
    obtain ⟨family, block⟩ := whole
    refine ⟨family.fine, ?_⟩
    obtain ⟨before, after, run⟩ := family.exists_run
    have first := head?_children tree.grid parent
    -- the run of the family starts at the block, since no leaf is listed twice
    have start : gid = before.length := by
      have here : tree.locations.toList[gid]? = some (parent.child .empty) := by
        rw [Array.getElem?_toList]
        exact block
      have there : tree.locations.toList[before.length]? = some (parent.child .empty) := by
        rw [run, List.append_assoc, List.getElem?_append_right (Nat.le_refl _), Nat.sub_self,
          ← List.head?_eq_getElem?, List.head?_append, first]
        rfl
      exact (List.getElem?_inj (List.getElem?_eq_some_iff.1 here).1 tree.nodup_locations).1
        (here.trans there.symm)
    rw [run, start, List.append_assoc, List.drop_left, ← tree.grid.length_children parent,
      List.take_left]

end BlockTree

namespace Arena

variable {arena : Arena} {tree : BlockTree} {gid index above leaf : Nat} {up node : ArenaNode}
  {links : Links} {o : Octant} {loc parent : Location}

theorem isLeafChild_iff : arena.isLeafChild links o = true ↔
    ∃ (child : Nat) (node : ArenaNode), links.at? o = some child ∧ arena.nodes[child]? = some node ∧
      node.isLeaf = true := by
  simp only [isLeafChild, Option.any_eq_true]
  constructor
  · intro found
    obtain ⟨child, linked, node, there, kind⟩ := found
    exact ⟨child, node, linked, there, kind⟩
  · intro found
    obtain ⟨child, node, linked, there, kind⟩ := found
    exact ⟨child, linked, node, there, kind⟩

theorem familyParent?_eq_some_iff : arena.familyParent? gid = some above ↔
    ∃ (leaf : Nat) (node up : ArenaNode) (links : Links), arena.leaves[gid]? = some leaf ∧
      arena.nodes[leaf]? = some node ∧ node.parent = some above ∧ arena.nodes[above]? = some up ∧
      arena.grid.rootLevel ≤ up.loc.level ∧ up.kind = .internal links ∧
      links.at? .empty = some leaf ∧
      ∀ o ∈ Octant.forDim arena.grid.dim, arena.isLeafChild links o = true := by
  simp only [familyParent?, Option.bind_eq_bind, Option.bind_eq_some_iff]
  constructor
  · intro found
    obtain ⟨leaf, called, node, here, other, named, up, there, rest⟩ := found
    split at rest
    · cases rest
    · rename_i fine
      split at rest
      · cases rest
      · rename_i links kind
        split at rest
        · cases rest
        · rename_i first
          split at rest
          · rename_i leaves
            cases rest
            exact ⟨leaf, node, up, links, called, here, named, there, Nat.not_lt.1 fine, kind,
              not_not.1 first, List.all_eq_true.1 leaves⟩
          · cases rest
  · intro found
    obtain ⟨leaf, node, up, links, called, here, named, there, fine, kind, first, leaves⟩ := found
    refine ⟨leaf, called, node, here, above, named, up, there, ?_⟩
    rw [if_neg (Nat.not_lt.2 fine), kind]
    simp only [first, ne_eq, not_true_eq_false, if_false]
    exact if_pos (List.all_eq_true.2 leaves)

namespace LaysOut

variable (lays : arena.LaysOut tree)

include lays

theorem exists_leaf (block : tree.location? gid = some loc) :
    ∃ (leaf : Nat) (node : ArenaNode), arena.leaves[gid]? = some leaf ∧
      arena.nodes[leaf]? = some node ∧ node.loc = loc ∧ node.isLeaf = true := by
  have places := congrArg (fun listed : List (Option Location) => listed[gid]?) lays.leaves
  simp only [List.getElem?_map, Array.getElem?_toList] at places
  rw [BlockTree.location?] at block
  rw [block, Option.map_some, Option.map_eq_some_iff] at places
  obtain ⟨leaf, called, _⟩ := places
  obtain ⟨node, here, kind, home⟩ := lays.numbered gid leaf called
  rw [BlockTree.location?, block] at home
  exact ⟨leaf, node, called, here, (Option.some.inj home).symm, by rw [ArenaNode.isLeaf, kind]⟩

theorem mem_locations (here : arena.nodes[index]? = some node) (kind : node.isLeaf = true) :
    node.loc ∈ tree.locations := by
  obtain ⟨gid, _, _, block⟩ := lays.exists_gid here kind
  exact BlockTree.mem_locations_iff.2 ⟨gid, block⟩

theorem family_iff (there : arena.nodes[above]? = some up) (kind : up.kind = .internal links) :
    tree.Family up.loc ↔ arena.grid.rootLevel ≤ up.loc.level ∧
      ∀ o ∈ Octant.forDim arena.grid.dim, arena.isLeafChild links o = true := by
  have children (o : Octant) : up.child? o = links.at? o := by rw [ArenaNode.child?, kind]
  rw [lays.grid]
  constructor
  · intro family
    refine ⟨family.fine, fun o valid => isLeafChild_iff.2 ?_⟩
    have member := family.members (up.loc.child o) (List.mem_map_of_mem valid)
    obtain ⟨gid, block⟩ := BlockTree.mem_locations_iff.1 member
    obtain ⟨child, node, _, here, placed, leaf⟩ := lays.exists_leaf block
    exact ⟨child, node, (children o).symm.trans ((lays.linked.child?_iff there).2
      ⟨node, here, placed⟩), here, leaf⟩
  · intro whole
    obtain ⟨fine, leaves⟩ := whole
    refine ⟨fine, fun member below => ?_⟩
    obtain ⟨o, valid, same⟩ := List.mem_map.1 below
    obtain ⟨child, node, linked, here, leaf⟩ := isLeafChild_iff.1 (leaves o valid)
    obtain ⟨again, met, _, placed⟩ := lays.linked.child above up o child there
      ((children o).trans linked)
    cases met.symm.trans here
    rw [← same, ← placed]
    exact lays.mem_locations here leaf

theorem exists_parent (family : tree.Family parent) :
    ∃ (above : Nat) (up : ArenaNode) (links : Links), arena.nodes[above]? = some up ∧
      up.loc = parent ∧ up.kind = .internal links := by
  obtain ⟨placed, f, refined⟩ := BlockTree.exists_refined_of_members family.members
  have shape : shapeAt arena.nodes parent.path = some false := by
    rw [lays.holds, refined]
    rfl
  obtain ⟨above, up, there, home, internal⟩ := lays.linked.shapeAt_iff.1 shape
  obtain ⟨links, kind, _⟩ := ArenaNode.exists_links internal
  exact ⟨above, up, links, there, home.trans placed, kind⟩

theorem familyParent?_iff (there : arena.nodes[above]? = some up) :
    arena.familyParent? gid = some above ↔
      tree.Family up.loc ∧ tree.location? gid = some (up.loc.child .empty) := by
  rw [familyParent?_eq_some_iff]
  constructor
  · intro found
    obtain ⟨leaf, node, other, links, called, here, named, met, fine, kind, first, leaves⟩ := found
    cases met.symm.trans there
    obtain ⟨again, met, _, block⟩ := lays.numbered gid leaf called
    cases met.symm.trans here
    have below : up.child? .empty = some leaf := by
      rw [ArenaNode.child?, kind]
      exact first
    obtain ⟨child, met, _, placed⟩ := lays.linked.child above up .empty leaf there below
    cases met.symm.trans here
    rw [block, placed]
    exact ⟨(lays.family_iff there kind).2 ⟨fine, leaves⟩, rfl⟩
  · intro whole
    obtain ⟨family, block⟩ := whole
    obtain ⟨index, twin, links, met, placed, kind⟩ := lays.exists_parent family
    have same := lays.linked.eq_of_loc met there placed
    rw [same] at met
    cases met.symm.trans there
    obtain ⟨fine, leaves⟩ := (lays.family_iff there kind).1 family
    obtain ⟨leaf, node, called, here, home, _⟩ := lays.exists_leaf block
    have below : up.child? .empty = some leaf := (lays.linked.child?_iff there).2 ⟨node, here, home⟩
    obtain ⟨child, met, named, _⟩ := lays.linked.child above up .empty leaf there below
    cases met.symm.trans here
    rw [ArenaNode.child?, kind] at below
    exact ⟨leaf, node, up, links, called, here, named, there, fine, kind, below, leaves⟩

theorem familyParent?_eq (gid : Nat) : (arena.familyParent? gid).map arena.place? =
    (tree.grid.familyParent?
      ((tree.locations.toList.drop gid).take tree.grid.numChildren)).map some := by
  cases listed : tree.grid.familyParent?
      ((tree.locations.toList.drop gid).take tree.grid.numChildren) with
  | some parent =>
      obtain ⟨family, block⟩ := BlockTree.familyParent?_drop_iff.1 listed
      obtain ⟨above, up, links, there, placed, kind⟩ := lays.exists_parent family
      rw [← placed] at family block
      have found := (lays.familyParent?_iff there).2 ⟨family, block⟩
      rw [found, Option.map_some, place?, there, Option.map_some, placed]
      rfl
  | none =>
      cases found : arena.familyParent? gid with
      | none => rfl
      | some above =>
          obtain ⟨_, _, up, _, _, _, _, there, _⟩ := familyParent?_eq_some_iff.1 found
          rw [BlockTree.familyParent?_drop_iff.2 ((lays.familyParent?_iff there).1 found)] at listed
          cases listed

end LaysOut

/-- In an arena and in the tree of the same leaves, `coarsen` and `balanceCoarsenFlags` meet the same
families: what they compare at a block is what the links of its node say. -/
theorem familyParent?_group {grid : RootGrid} {leaves : List Location} {flags : Array Bool}
    (made : ofLeaves grid leaves = .ok arena) (built : BlockTree.ofLeaves grid leaves = .ok tree)
    (size : flags.size = tree.numLeaves) (gid : Nat) :
    (arena.familyParent? gid).map arena.place? = (tree.grid.familyParent?
      ((((tree.withFlags flags).drop gid).take tree.grid.numChildren).map Prod.fst)).map some := by
  have agree := agree_ofLeaves grid leaves
  rw [built] at agree
  obtain ⟨again, remade, lays⟩ := agree.exists_of_ok
  cases made.symm.trans remade
  rw [List.map_take, List.map_drop, BlockTree.map_fst_withFlags size]
  exact lays.familyParent?_eq gid

end Arena

end AdaptiveMesh
