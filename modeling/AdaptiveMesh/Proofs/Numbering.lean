import AdaptiveMesh.Proofs.Tiling

/-!
# Numbering

The leaves of a tree come in Z order: of two leaves the first is the one in the earlier child of the
finest node around both. No two leaves can come in either order, so the set of leaves determines their
numbers, and as no node is there without a leaf, it determines the tree. In particular a tree is built
again from its own leaves.
-/

namespace AdaptiveMesh

set_option autoImplicit false

namespace Location

variable {a b : Location}

/-- Whether one place comes before another in Z order: some node has both in it, the first in an
earlier child. -/
def Precedes (a b : Location) : Prop :=
  ∃ (above : Location) (o other : Octant), o.linear < other.linear ∧
    (above.child o).contains a = true ∧ (above.child other).contains b = true

theorem eq_of_child_contains {above : Location} {o other : Octant}
    (inside : (above.child o).contains a = true) (again : (above.child other).contains a = true) :
    o = other := by
  rw [← (contains_child_iff.1 inside).2.2, (contains_child_iff.1 again).2.2]

theorem Precedes.asymm (before : a.Precedes b) : ¬b.Precedes a := by
  intro after
  obtain ⟨upper, o, other, ordered, aroundA, aroundB⟩ := before
  obtain ⟨lower, p, next, orderedBack, backB, backA⟩ := after
  have outer {first second : Location} {x y z w : Octant} (differ : x ≠ y)
      (xA : (first.child x).contains a = true) (yB : (first.child y).contains b = true)
      (zA : (second.child z).contains a = true) (wB : (second.child w).contains b = true) :
      ¬first.level < second.level := by
    intro above
    -- a finer node around both would lie in two children
    have inside := contains_of_common xA (contains_child_iff.1 zA).1 (by rwa [level_child])
    have both := contains_trans inside (contains_child_iff.1 wB).1
    exact differ (eq_of_child_contains both yB)
  have differ : o ≠ other := by
    intro same
    rw [same] at ordered
    exact Nat.lt_irrefl _ ordered
  have differBack : next ≠ p := by
    intro same
    rw [same] at orderedBack
    exact Nat.lt_irrefl _ orderedBack
  have level : upper.level = lower.level := by
    have first := outer differ aroundA aroundB backA backB
    have second := outer differBack backA backB aroundA aroundB
    omega
  have same : upper = lower := by
    apply eq_of_contains _ level.ge
    exact contains_of_common (contains_child_iff.1 aroundA).1 (contains_child_iff.1 backA).1 level.le
  rw [← same] at backA backB
  rw [eq_of_child_contains aroundA backA, eq_of_child_contains aroundB backB] at ordered
  exact Nat.lt_asymm ordered orderedBack

end Location

theorem Octant.all_ordered : Octant.all.Pairwise fun a b => a.linear < b.linear := by decide

namespace Node

variable {α : Type} {n m : Node α}

theorem contains_of_mem_entries {loc : Location} {e : Location × α} (member : e ∈ n.entries loc) :
    loc.contains e.1 = true := by
  obtain ⟨place, a⟩ := e
  obtain ⟨path, _, rfl⟩ := mem_entries_iff.1 member
  exact Location.contains_foldl_child path loc

theorem entries_ordered (n : Node α) (loc : Location) :
    (n.entries loc).Pairwise fun a b => a.1.Precedes b.1 := by
  induction n using inductionOn generalizing loc with
  | absent => exact .nil
  | leaf a => exact List.pairwise_singleton _ _
  | internal f ih =>
      rw [entries_ofChildren, List.pairwise_flatMap]
      constructor
      · intro o _
        exact ih o (loc.child o)
      · apply Octant.all_ordered.imp
        intro o other ordered a memberA b memberB
        exact ⟨loc, o, other, ordered, contains_of_mem_entries memberA,
          contains_of_mem_entries memberB⟩

/-- Nodes without dead ends are the same if they have the same leaves at the ends of the same paths. -/
theorem eq_of_leaves (prunedN : n.Pruned) (prunedM : m.Pruned)
    (same : ∀ path a, n.along path = leaf a ↔ m.along path = leaf a) : n = m := by
  have gone {x y : Node α} (prunedY : y.Pruned)
      (leaves : ∀ path a, y.along path = leaf a → x.along path = leaf a) (absentX : x = absent) :
      y = absent := by
    by_contra there
    obtain ⟨path, a, ends⟩ := exists_leaf_of_ne_absent prunedY there
    have found := leaves path a ends
    rw [absentX, along_absent] at found
    cases found
  induction n using inductionOn generalizing m with
  | absent => exact (gone prunedM (fun path a => (same path a).2) rfl).symm
  | leaf a => exact ((same [] a).1 rfl).symm
  | internal f ih =>
      rcases m.absent_or_leaf_or_children with absentM | ⟨a, leafM⟩ | ⟨g, rfl⟩
      · exact absurd (gone prunedN (fun path a => (same path a).1) absentM) (ofChildren_ne_absent f)
      · exact absurd ((same [] a).2 leafM) (ofChildren_ne_leaf f a)
      · congr 1
        funext o
        apply ih o (fun path => ?_) (fun path => ?_) fun path a => ?_
        · have below := prunedN (o :: path)
          rwa [along_cons, child_ofChildren] at below
        · have below := prunedM (o :: path)
          rwa [along_cons, child_ofChildren] at below
        · have below := same (o :: path) a
          rwa [along_cons, along_cons, child_ofChildren, child_ofChildren] at below

end Node

namespace BlockTree

variable {a b : BlockTree}

theorem toList_locations (tree : BlockTree) :
    tree.locations.toList = (tree.root.entries .root).map Prod.fst := by
  rw [tree.entries_eq, List.zipIdx_map_fst]

theorem locations_ordered (tree : BlockTree) : tree.locations.toList.Pairwise Location.Precedes := by
  rw [tree.toList_locations, List.pairwise_map]
  exact tree.root.entries_ordered .root

theorem leaf_along_iff {tree : BlockTree} {path : List Octant} {gid : Nat} :
    tree.root.along path = .leaf gid ↔ tree.location? gid = some (Location.ofPath path) := by
  constructor
  · intro ends
    exact location?_iff.2 ⟨path, ends, rfl⟩
  · intro block
    rw [← Location.path_ofPath path]
    exact along_path block

theorem nodup_locations (tree : BlockTree) : tree.locations.toList.Nodup := by
  apply tree.locations_ordered.imp
  intro first second before same
  rw [same] at before
  exact before.asymm before

/-- A tree is determined by its grid and the set of its leaves. -/
theorem eq_of_locations (grid : a.grid = b.grid)
    (same : ∀ loc, loc ∈ a.locations ↔ loc ∈ b.locations) : a = b := by
  have listed : a.locations.toList.Perm b.locations.toList := by
    rw [List.perm_ext_iff_of_nodup a.nodup_locations b.nodup_locations]
    intro loc
    rw [Array.mem_toList_iff, Array.mem_toList_iff]
    exact same loc
  have locations : a.locations = b.locations := by
    apply Array.toList_inj.1
    apply listed.eq_of_pairwise _ a.locations_ordered b.locations_ordered
    intro first second _ _ before after
    exact absurd after before.asymm
  have root : a.root = b.root := by
    apply Node.eq_of_leaves a.pruned b.pruned
    intro path gid
    rw [leaf_along_iff, leaf_along_iff, location?, location?, locations]
  cases a
  cases b
  cases grid
  cases locations
  cases root
  rfl

theorem ofLeaves_locations {tree : BlockTree} (fits : tree.Fits) :
    ofLeaves tree.grid tree.locations.toList = .ok tree := by
  have levels (loc : Location) (member : loc ∈ tree.locations.toList) :
      tree.grid.LevelFits loc.level := fits loc (Array.mem_toList_iff.1 member)
  obtain ⟨again, built, grid, _, members⟩ := ofLeaves_of_tiles (tiles_locations fits) levels
  have same : again = tree := by
    apply eq_of_locations grid
    intro loc
    rw [members, Array.mem_toList_iff]
  rwa [same] at built

end BlockTree

end AdaptiveMesh
