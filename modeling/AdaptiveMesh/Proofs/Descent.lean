import AdaptiveMesh.Proofs.Domain

/-!
# Descent

A path leads from the root of a tree to a node. The leaves of a tree are the leaves at the ends of
paths (`location?_iff`), so no leaf lies inside another one, and completeness says that a node is
there exactly where the path leads into the domain. A descent towards a place of the domain therefore
never gets lost: it ends at a leaf that contains the place, or at a refined node that is the place
(`exists_cover`).
-/

namespace AdaptiveMesh

set_option autoImplicit false

namespace Node

variable {α : Type} {n : Node α} {grid : RootGrid} {loc : Location}

theorem along_leaf_cons (a : α) (o : Octant) (rest : List Octant) :
    (leaf a).along (o :: rest) = absent := along_absent rest

theorem absent_or_leaf_or_children (n : Node α) :
    n = absent ∨ (∃ a, n = leaf a) ∨ ∃ f, n = ofChildren f := by
  cases n with
  | absent => exact .inl rfl
  | leaf a => exact .inr (.inl ⟨a, rfl⟩)
  | internal c0 c1 c2 c3 c4 c5 c6 c7 => exact .inr (.inr ⟨_, (ofChildren_child ..).symm⟩)

@[simp] theorem isLeaf_ofChildren (f : Octant → Node α) : (ofChildren f).isLeaf = false := rfl

theorem ofChildren_ne_leaf (f : Octant → Node α) (a : α) : ofChildren f ≠ leaf a :=
  fun same => nomatch same

theorem ofChildren_ne_absent (f : Octant → Node α) : ofChildren f ≠ absent :=
  fun same => nomatch same

theorem mem_entries_iff {place : Location} {a : α} : (place, a) ∈ n.entries loc ↔
    ∃ path, n.along path = leaf a ∧ path.foldl Location.child loc = place := by
  induction n using inductionOn generalizing loc with
  | absent => simp
  | leaf b =>
      simp only [entries_leaf, List.mem_singleton, Prod.mk.injEq]
      constructor
      · rintro ⟨rfl, rfl⟩
        exact ⟨[], rfl, rfl⟩
      · rintro ⟨path, ends, rfl⟩
        cases path with
        | nil =>
            cases ends
            exact ⟨rfl, rfl⟩
        | cons o rest =>
            rw [along_leaf_cons] at ends
            cases ends
  | internal f ih =>
      rw [mem_entries_ofChildren]
      constructor
      · rintro ⟨o, member⟩
        obtain ⟨path, ends, placed⟩ := (ih o).1 member
        exact ⟨o :: path, by simpa using ends, placed⟩
      · rintro ⟨path, ends, placed⟩
        cases path with
        | nil => exact absurd ends (ofChildren_ne_leaf f a)
        | cons o rest => exact ⟨o, (ih o).2 ⟨rest, by simpa using ends, placed⟩⟩

theorem along_ne_absent_iff (pruned : n.Pruned) {path : List Octant} :
    n.along path ≠ absent ↔ ∃ rest a, n.along (path ++ rest) = leaf a := by
  constructor
  · intro there
    have occupied := pruned path there
    rw [← length_entries _ .root] at occupied
    obtain ⟨⟨loc, a⟩, member⟩ := List.exists_mem_of_length_pos occupied
    obtain ⟨rest, ends, _⟩ := mem_entries_iff.1 member
    exact ⟨rest, a, by rw [along_append, ends]⟩
  · rintro ⟨rest, a, ends⟩ gone
    rw [along_append, gone, along_absent] at ends
    cases ends

theorem exists_leaf_of_ne_absent (pruned : n.Pruned) (there : n ≠ absent) :
    ∃ path a, n.along path = leaf a :=
  (along_ne_absent_iff pruned).1 (by exact there : n.along [] ≠ absent)

theorem isComplete_ofChildren (f : Octant → Node α) :
    (ofChildren f).isComplete grid loc = true ↔
      (ofChildren f).coversDomain grid loc = true ∧
        ∀ o, (f o).isComplete grid (loc.child o) = true := by
  have every (p : Octant → Prop) : (∀ o, p o) ↔ p (.ofLinear 0) ∧ p (.ofLinear 1) ∧
      p (.ofLinear 2) ∧ p (.ofLinear 3) ∧ p (.ofLinear 4) ∧ p (.ofLinear 5) ∧ p (.ofLinear 6) ∧
      p (.ofLinear 7) := by
    constructor
    · exact fun all => ⟨all _, all _, all _, all _, all _, all _, all _, all _⟩
    · rintro ⟨h0, h1, h2, h3, h4, h5, h6, h7⟩ ⟨⟨a, b, c⟩⟩
      cases a <;> cases b <;> cases c <;> assumption
  rw [every]
  simp only [ofChildren, isComplete, Bool.and_eq_true, and_assoc]

theorem isComplete_child (complete : n.isComplete grid loc = true) (o : Octant) :
    (n.child o).isComplete grid (loc.child o) = true := by
  rcases n.absent_or_leaf_or_children with rfl | ⟨a, rfl⟩ | ⟨f, rfl⟩
  · rfl
  · rfl
  · rw [child_ofChildren]
    exact ((isComplete_ofChildren f).1 complete).2 o

theorem isComplete_along (complete : n.isComplete grid loc = true) (path : List Octant) :
    (n.along path).isComplete grid (path.foldl Location.child loc) = true := by
  induction path generalizing n loc with
  | nil => exact complete
  | cons o rest ih => exact ih (isComplete_child complete o)

theorem isComplete_of_covers (covers : ∀ path f, n.along path = ofChildren f →
    (ofChildren f).coversDomain grid (path.foldl Location.child loc) = true) :
    n.isComplete grid loc = true := by
  induction n using inductionOn generalizing loc with
  | absent => rfl
  | leaf a => rfl
  | internal f ih =>
      rw [isComplete_ofChildren]
      refine ⟨covers [] f rfl, fun o => ih o fun path g ends => ?_⟩
      exact covers (o :: path) g (by simpa using ends)

theorem coversDomain_iff : n.coversDomain grid loc = true ↔
    ∀ o, n.child o ≠ absent ↔ grid.contains (loc.child o) = true := by
  have present (o : Octant) : (!(n.child o).isAbsent) = true ↔ n.child o ≠ absent := by
    rw [Bool.not_eq_true', ← Bool.not_eq_true, isAbsent_iff]
  have inside (o : Octant) : (o.isValidFor grid.dim && grid.contains (loc.child o)) = true ↔
      grid.contains (loc.child o) = true := by
    rw [Bool.and_eq_true]
    exact ⟨And.right, fun inside => ⟨RootGrid.isValidFor_of_contains_child inside, inside⟩⟩
  simp only [coversDomain, List.all_eq_true, beq_iff_eq]
  constructor
  · intro covers o
    rw [← present, ← covers o o.mem_all, inside]
  · intro covers o _
    rw [Bool.eq_iff_iff, inside, present, covers o]

end Node

namespace PlacedNode

theorem reach_append (loc : Location) {n : Node Nat} {path : List Octant} (rest : List Octant)
    (there : n.along path ≠ .absent) :
    (⟨loc, n⟩ : PlacedNode).reach (path ++ rest) =
      (⟨path.foldl Location.child loc, n.along path⟩ : PlacedNode).reach rest := by
  induction path generalizing loc n with
  | nil => rfl
  | cons o path ih =>
      have here : n.child o ≠ .absent := by
        intro gone
        rw [Node.along_cons, gone, Node.along_absent] at there
        exact there rfl
      have leafless : n.isLeaf = false := by
        cases n with
        | absent => rfl
        | leaf gid => exact absurd rfl here
        | internal c0 c1 c2 c3 c4 c5 c6 c7 => rfl
      have stepped : (⟨loc, n⟩ : PlacedNode).child? o = some ⟨loc.child o, n.child o⟩ := by
        simp only [child?, Node.isAbsent_iff, here, if_false]
      rw [List.cons_append, reach, isLeaf, leafless, stepped]
      exact ih _ there

theorem reach_leaf (loc : Location) (gid : Nat) (rest : List Octant) :
    (⟨loc, .leaf gid⟩ : PlacedNode).reach rest = .ok ⟨loc, .leaf gid⟩ := by
  cases rest <;> rfl

end PlacedNode

namespace BlockTree

variable {tree : BlockTree} {gid other : Nat} {a b loc target : Location}

/-- Whether the extents of all levels that hold leaves are words. -/
def Fits (tree : BlockTree) : Prop := ∀ loc ∈ tree.locations, tree.grid.LevelFits loc.level

instance (tree : BlockTree) : Decidable tree.Fits := inferInstanceAs (Decidable (∀ _ ∈ _, _))

theorem mem_locations_iff : loc ∈ tree.locations ↔ ∃ gid, tree.location? gid = some loc :=
  Array.mem_iff_getElem?

theorem location?_lt (block : tree.location? gid = some loc) : gid < tree.numLeaves :=
  (Array.getElem?_eq_some_iff.1 block).1

theorem exists_location? (bound : gid < tree.locations.size) :
    ∃ loc, tree.location? gid = some loc :=
  ⟨tree.locations[gid], Array.getElem?_eq_getElem bound⟩

theorem Fits.level (fits : tree.Fits) (block : tree.location? gid = some loc) :
    tree.grid.LevelFits loc.level := fits loc (mem_locations_iff.2 ⟨gid, block⟩)

theorem rootLevel_le_level (block : tree.location? gid = some loc) :
    tree.grid.rootLevel ≤ loc.level :=
  tree.rootLevel_le loc (mem_locations_iff.2 ⟨gid, block⟩)

theorem location?_iff : tree.location? gid = some loc ↔
    ∃ path, tree.root.along path = .leaf gid ∧ Location.ofPath path = loc := by
  have listed : tree.location? gid = some loc ↔ (loc, gid) ∈ tree.root.entries .root := by
    rw [tree.entries_eq, List.mem_zipIdx_iff_getElem?, location?, Array.getElem?_toList]
  rw [listed, Node.mem_entries_iff]
  rfl

theorem along_path (block : tree.location? gid = some loc) :
    tree.root.along loc.path = .leaf gid := by
  obtain ⟨path, ends, rfl⟩ := location?_iff.1 block
  rwa [Location.path_ofPath]

theorem root_contains_block (block : tree.location? gid = some loc) :
    Location.root.contains loc = true := by
  obtain ⟨path, _, rfl⟩ := location?_iff.1 block
  exact Location.root_contains_ofPath path

theorem eq_of_contains_block (blockA : tree.location? gid = some a)
    (blockB : tree.location? other = some b) (inside : a.contains b = true) :
    gid = other ∧ a = b := by
  obtain ⟨rest, whole⟩ := (Location.contains_iff_prefix (root_contains_block blockA)
    (root_contains_block blockB)).1 inside
  have ends := along_path blockB
  rw [← whole, Node.along_append, along_path blockA] at ends
  cases rest with
  | nil =>
      cases ends
      rw [List.append_nil] at whole
      exact ⟨rfl, Location.path_injective (root_contains_block blockA)
        (root_contains_block blockB) whole⟩
  | cons o rest =>
      rw [Node.along_leaf_cons] at ends
      cases ends

/-- Along a path of nodes, a child is there exactly where it lies in the domain. -/
theorem child_present_iff {path : List Octant} {f : Octant → Node Nat}
    (refined : tree.root.along path = .ofChildren f) (o : Octant) :
    f o ≠ .absent ↔ tree.grid.contains ((Location.ofPath path).child o) = true := by
  have complete := Node.isComplete_along tree.complete path
  rw [refined] at complete
  have covers := ((Node.isComplete_ofChildren f).1 complete).1
  have present := Node.coversDomain_iff.1 covers o
  rwa [Node.child_ofChildren] at present

theorem root_ne_absent (tree : BlockTree) : tree.root ≠ .absent := by
  intro gone
  obtain ⟨loc, block⟩ := exists_location? tree.nonempty
  have ends := along_path block
  rw [gone, Node.along_absent] at ends
  cases ends

theorem contains_of_along {path : List Octant} {o : Octant}
    (there : tree.root.along (path ++ [o]) ≠ .absent) :
    tree.grid.contains (Location.ofPath (path ++ [o])) = true := by
  rw [Node.along_append] at there
  rcases (tree.root.along path).absent_or_leaf_or_children with gone | ⟨gid, ends⟩ | ⟨f, refined⟩
  · rw [gone, Node.along_absent] at there
    exact absurd rfl there
  · rw [ends, Node.along_leaf_cons] at there
    exact absurd rfl there
  · rw [refined, Node.along_cons, Node.child_ofChildren, Node.along_nil] at there
    rw [Location.ofPath_append_singleton]
    exact (child_present_iff refined o).1 there

/-- A tree has no leaves where the cells of a level can no longer be counted, since the domain
vanishes there. -/
theorem fits_of_words (words : tree.grid.Words) : tree.Fits := by
  intro loc member
  obtain ⟨gid, block⟩ := mem_locations_iff.1 member
  by_contra wide
  obtain ⟨first, axis, positive, above, vanished⟩ :=
    RootGrid.exists_vanished words (rootLevel_le_level block) wide
  have proper := root_contains_block block
  have length : (loc.path.take first).length = first := by
    rw [List.length_take, Location.length_path]
    omega
  -- the path of such a leaf would pass a node of the vanished level, outside of the domain
  rcases List.eq_nil_or_concat (loc.path.take first) with top | ⟨path, o, deep⟩
  · rw [top, List.length_nil] at length
    omega
  · rw [List.concat_eq_append] at deep
    have there : tree.root.along (path ++ [o]) ≠ .absent := by
      intro gone
      have ends := along_path block
      rw [← List.take_append_drop first loc.path, deep, Node.along_append, gone,
        Node.along_absent] at ends
      cases ends
    obtain ⟨lower, upper⟩ := RootGrid.contains_iff.1 (contains_of_along there) axis
    rw [← deep, Location.level_ofPath, length] at upper
    rw [← deep] at lower
    omega

theorem contains_block (fits : tree.Fits) (block : tree.location? gid = some loc) :
    tree.grid.contains loc = true := by
  have proper := root_contains_block block
  have ends := along_path block
  rcases List.eq_nil_or_concat loc.path with top | ⟨path, o, deep⟩
  · have rooted : loc = .root := by rw [← Location.ofPath_path proper, top]; rfl
    subst rooted
    have levelFits := fits.level block
    have fine := rootLevel_le_level block
    rw [RootGrid.contains_iff]
    intro axis
    have positive := RootGrid.extent_pos levelFits (levelFits.near (.inr fine)) axis
    simpa [Location.root] using positive
  · rw [List.concat_eq_append] at deep
    have there : tree.root.along (path ++ [o]) ≠ .absent := by
      rw [← deep, ends]
      intro same
      cases same
    have inside := contains_of_along there
    rwa [← deep, Location.ofPath_path proper] at inside

theorem lx_block_eq_zero (fits : tree.Fits) (block : tree.location? gid = some loc) {axis : Axis}
    (degenerate : tree.grid.dim ≤ axis.val) : loc.lx axis = 0 :=
  RootGrid.lx_eq_zero (contains_block fits block) degenerate

theorem exists_block_below {path : List Octant} {f : Octant → Node Nat}
    (refined : tree.root.along path = .ofChildren f) :
    ∃ gid loc, tree.location? gid = some loc ∧ (Location.ofPath path).contains loc = true ∧
      path.length < loc.level := by
  have there : tree.root.along path ≠ .absent := by
    rw [refined]
    exact Node.ofChildren_ne_absent f
  obtain ⟨rest, gid, whole⟩ := (Node.along_ne_absent_iff tree.pruned).1 there
  refine ⟨gid, _, location?_iff.2 ⟨path ++ rest, whole, rfl⟩, ?_, ?_⟩
  · rw [Location.contains_ofPath_iff (Location.root_contains_ofPath _), Location.path_ofPath]
    exact List.prefix_append _ _
  · cases rest with
    | nil =>
        rw [List.append_nil, refined] at whole
        exact absurd whole (Node.ofChildren_ne_leaf f gid)
    | cons o rest => simp

theorem lt_level_of_refined {path : List Octant} {f : Octant → Node Nat}
    (refined : tree.root.along path = .ofChildren f) (block : tree.location? gid = some loc)
    (inside : (Location.ofPath path).contains loc = true) : path.length < loc.level := by
  have deeper := Location.level_le_of_contains inside
  rw [Location.level_ofPath] at deeper
  refine deeper.lt_of_ne fun same => ?_
  have equal : Location.ofPath path = loc := Location.eq_of_contains inside (by simp [same])
  have ends := along_path block
  rw [← equal, Location.path_ofPath, refined] at ends
  exact Node.ofChildren_ne_leaf f gid ends

/-- A descent towards a leaf, or to a place inside it, ends at the leaf. -/
theorem reach_block (block : tree.location? gid = some loc)
    (proper : Location.root.contains target = true) (inside : loc.contains target = true) :
    tree.rootNode.reach target.path = .ok ⟨loc, .leaf gid⟩ := by
  obtain ⟨rest, whole⟩ :=
    (Location.contains_iff_prefix (root_contains_block block) proper).1 inside
  have ends := along_path block
  rw [← whole, rootNode, PlacedNode.reach_append .root rest (by rw [ends]; exact fun same => nomatch same),
    ends]
  have placed : loc.path.foldl Location.child .root = loc :=
    Location.ofPath_path (root_contains_block block)
  rw [placed]
  exact PlacedNode.reach_leaf loc gid rest

theorem reach_refined {f : Octant → Node Nat} (proper : Location.root.contains target = true)
    (refined : tree.root.along target.path = .ofChildren f) :
    tree.rootNode.reach target.path = .ok ⟨target, .ofChildren f⟩ := by
  have there : tree.root.along target.path ≠ .absent := by
    rw [refined]
    exact Node.ofChildren_ne_absent f
  have reached := PlacedNode.reach_append .root [] there
  rw [List.append_nil, refined] at reached
  have placed : target.path.foldl Location.child .root = target := Location.ofPath_path proper
  rw [rootNode, reached, placed]
  rfl

/-- A place of the domain lies in a leaf, or is a refined node. -/
theorem exists_cover (fits : tree.grid.LevelFits target.level)
    (near : tree.grid.rootLevel ≤ target.level + 62) (inside : tree.grid.contains target = true) :
    (∃ gid loc, tree.location? gid = some loc ∧ loc.contains target = true) ∨
      ∃ f, tree.root.along target.path = .ofChildren f := by
  have proper := RootGrid.root_contains fits near inside
  -- going down from the root, either a leaf has been met or the node here is refined
  have step (steps : Nat) (bound : steps ≤ target.level) :
      (∃ gid loc, tree.location? gid = some loc ∧ loc.contains target = true) ∨
        ∃ f, tree.root.along (target.path.take steps) = .ofChildren f := by
    have ended {gid : Nat} {path : List Octant} (ends : tree.root.along path = .leaf gid)
        (before : path <+: target.path) :
        ∃ gid loc, tree.location? gid = some loc ∧ loc.contains target = true :=
      ⟨gid, _, location?_iff.2 ⟨path, ends, rfl⟩, (Location.contains_ofPath_iff proper path).2 before⟩
    induction steps with
    | zero =>
        rcases tree.root.absent_or_leaf_or_children with gone | ⟨gid, ends⟩ | refined
        · exact absurd gone tree.root_ne_absent
        · exact .inl (ended (tree.root.along_nil.trans ends) List.nil_prefix)
        · exact .inr refined
    | succ steps ih =>
        rcases ih (by omega) with found | ⟨f, refined⟩
        · exact .inl found
        · obtain ⟨o, next⟩ : ∃ o, target.path.take (steps + 1) = target.path.take steps ++ [o] :=
            ⟨_, List.take_succ_eq_append_getElem (by rw [Location.length_path]; omega)⟩
          have before : target.path.take (steps + 1) <+: target.path := List.take_prefix _ _
          have outer := (Location.contains_ofPath_iff proper _).2 before
          have length : (Location.ofPath (target.path.take (steps + 1))).level = steps + 1 := by
            simpa using bound
          have rootLevel := fits.rootLevel_le
          have domain := RootGrid.contains_of_contains fits (by omega) outer inside
          rw [next, Location.ofPath_append_singleton] at domain
          have here := (child_present_iff refined o).2 domain
          have child : tree.root.along (target.path.take (steps + 1)) = f o := by
            rw [next, Node.along_append, refined, Node.along_cons, Node.child_ofChildren,
              Node.along_nil]
          rcases (f o).absent_or_leaf_or_children with gone | ⟨gid, ends⟩ | ⟨g, deeper⟩
          · exact absurd gone here
          · exact .inl (ended (child.trans ends) before)
          · exact .inr ⟨g, child.trans deeper⟩
  have whole := step target.level le_rfl
  rwa [← Location.length_path target, List.take_length] at whole

end BlockTree

end AdaptiveMesh
