import AdaptiveMesh.Proofs.Families
import AdaptiveMesh.Proofs.LevelJumps
import AdaptiveMesh.Proofs.Renumbering

/-!
# Contact

A step leads from a block to a place of the same size, while the blocks it touches have all sizes. The
directions are enough nevertheless: a coarser block that touches covers one of these places, and a finer one
that touches lies in one of them, which then has been refined. So the steps find all coarser blocks, and a
family knows whether it touches a finer one, in any tree. Nothing has to be balanced for that, and a block
may well touch relatives of its own across a periodic end.
-/

namespace AdaptiveMesh

set_option autoImplicit false

namespace BlockTree

variable {tree : BlockTree} {gid : Nat} {loc parent : Location} {gids : List Nat} {places : List Location}

section

variable (tree : BlockTree)

def coarseNeighborhood? (gid : Nat) : Option (Except TreeError (List Nat)) :=
  (tree.location? gid).map tree.coarseNeighbors

/-- Whether a step ends at a refined node. The first such step decides, and no other is taken after it. -/
def stepsToFiner (loc : Location) : Except TreeError Bool :=
  (Region.directions tree.grid.dim).anyM fun r =>
    return (← tree.findNeighbor loc r).any fun n => !n.isLeaf

def anyStepsToFiner? : List Nat → Option (Except TreeError Bool)
  | [] => some (.ok false)
  | gid :: rest => do
      match tree.stepsToFiner (← tree.location? gid) with
      | .ok false => anyStepsToFiner? rest
      | answer => some answer

/-- Whether a block of the family that starts at a block touches a finer block. -/
def familyBordersFiner? (gid : Nat) : Option (Except TreeError Bool) :=
  tree.anyStepsToFiner? (List.range' gid tree.grid.numChildren)

end

def TouchesFiner (tree : BlockTree) (loc : Location) : Prop :=
  ∃ other home, tree.location? other = some home ∧ loc.level < home.level ∧
    tree.grid.Adjacent loc home

theorem forall₂_children (members : ∀ member ∈ tree.grid.children parent, member ∈ tree.locations)
    (start : tree.location? gid = some (parent.child (.ofLinear 0))) :
    List.Forall₂ (fun gid loc => tree.location? gid = some loc)
      (List.range' gid tree.grid.numChildren) (tree.grid.children parent) := by
  obtain ⟨before, after, run⟩ := exists_run_of_members members
  have listed (k : Nat) (bound : k < tree.grid.numChildren) :
      tree.location? (before.length + k) = some (parent.child (.ofLinear k)) := by
    have length := tree.grid.length_children parent
    rw [location?, ← Array.getElem?_toList, run, List.append_assoc,
      List.getElem?_append_right (Nat.le_add_right _ _), Nat.add_sub_cancel_left,
      List.getElem?_append_left (by omega), tree.grid.getElem?_children parent bound]
  have first := listed 0 (Nat.zero_lt_of_lt tree.grid.one_lt_numChildren)
  have here := (eq_of_contains_block start first (Location.contains_refl _)).1
  rw [here, Nat.add_zero, List.range'_eq_map_range, RootGrid.children, Octant.forDim, List.map_map,
    ← RootGrid.numChildren, List.forall₂_map_left_iff, List.forall₂_map_right_iff, List.forall₂_same]
  intro k below
  exact listed k (List.mem_range.1 below)

/-- Stopping at the first refined node makes no difference where all steps succeed. -/
theorem stepsToFiner_eq (fits : tree.Fits) (block : tree.location? gid = some loc) :
    tree.stepsToFiner loc = tree.bordersFiner loc := by
  obtain ⟨found, run, members⟩ := neighbors_ok fits block
  have each (r : Region) (direction : r ∈ Region.directions tree.grid.dim) : ∃ answer,
      (do return (← tree.findNeighbor loc r).any fun n : PlacedNode => !n.isLeaf) = .ok answer ∧
        (answer = true ↔ ∃ n, tree.findNeighbor loc r = .ok (some n) ∧ (!n.isLeaf) = true) := by
    obtain ⟨node, answer⟩ := exists_findNeighbor fits block direction
    refine ⟨node.any fun n => !n.isLeaf, by rw [answer]; rfl, ?_⟩
    rw [answer, Option.any_eq_true]
    simp only [Except.ok.injEq]
  obtain ⟨answer, steps, means⟩ := Outcome.exists_anyM_ok_iff each
  rw [stepsToFiner, steps, bordersFiner, run]
  congr 1
  rw [Bool.eq_iff_iff, means, List.any_eq_true]
  constructor
  · intro stepped
    obtain ⟨r, direction, n, answer, refined⟩ := stepped
    exact ⟨n, (members n).2 ⟨r, direction, answer⟩, refined⟩
  · intro refined
    obtain ⟨n, member, refined⟩ := refined
    obtain ⟨r, direction, answer⟩ := (members n).1 member
    exact ⟨r, direction, n, answer, refined⟩

theorem anyStepsToFiner?_eq (fits : tree.Fits)
    (located : List.Forall₂ (fun gid loc => tree.location? gid = some loc) gids places) :
    tree.anyStepsToFiner? gids = some (places.anyM tree.bordersFiner) := by
  induction located with
  | nil => rfl
  | cons block _ ih =>
      rw [anyStepsToFiner?, block, List.anyM]
      change (match tree.stepsToFiner _ with
        | .ok false => tree.anyStepsToFiner? _
        | answer => some answer) = _
      rw [stepsToFiner_eq fits block, ih]
      cases tree.bordersFiner _ with
      | error e => rfl
      | ok answer => cases answer <;> rfl

theorem familyBordersFiner?_ok (fits : tree.Fits)
    (members : ∀ member ∈ tree.grid.children parent, member ∈ tree.locations)
    (start : tree.location? gid = some (parent.child (.ofLinear 0))) :
    ∃ answer, tree.familyBordersFiner? gid = some (.ok answer) ∧
      tree.mayMerge parent = .ok (!answer) ∧
      (answer = true ↔ ∃ member ∈ tree.grid.children parent, tree.TouchesFiner member) := by
  have each (member : Location) (listed : member ∈ tree.grid.children parent) :
      ∃ answer, tree.bordersFiner member = .ok answer ∧
        (answer = true ↔ tree.TouchesFiner member) := by
    obtain ⟨gid, block⟩ := mem_locations_iff.1 (members member listed)
    exact bordersFiner_ok fits block
  obtain ⟨answer, run, means⟩ := Outcome.exists_anyM_ok_iff each
  refine ⟨answer, ?_, ?_, means⟩
  · rw [familyBordersFiner?, anyStepsToFiner?_eq fits (forall₂_children members start), run]
  · rw [mayMerge, Outcome.allM_not, run]
    rfl

/-- One step in each direction finds exactly the coarser blocks that touch a block, and tells whether a
finer block touches a family, whatever the levels of the blocks are. -/
theorem steps_find_contact (fits : tree.Fits) :
    (∀ gid loc, tree.location? gid = some loc →
      ∃ gids, tree.coarseNeighborhood? gid = some (.ok gids) ∧ ∀ other, other ∈ gids ↔
        ∃ home, tree.location? other = some home ∧ home.level < loc.level ∧
          tree.grid.Adjacent loc home) ∧
    ∀ gid parent, (∀ member ∈ tree.grid.children parent, member ∈ tree.locations) →
      tree.location? gid = some (parent.child (.ofLinear 0)) →
        ∃ answer, tree.familyBordersFiner? gid = some (.ok answer) ∧
          tree.mayMerge parent = .ok (!answer) ∧
          (answer = true ↔ ∃ member ∈ tree.grid.children parent, tree.TouchesFiner member) := by
  constructor
  · intro gid loc block
    obtain ⟨gids, run, exact⟩ := coarseNeighbors_ok fits block
    refine ⟨gids, ?_, exact⟩
    rw [coarseNeighborhood?, block, Option.map_some, run]
  · intro gid parent members start
    exact familyBordersFiner?_ok fits members start

/-- The leaves of a tree on `squareGrid` whose corner is refined three times, and the root block beside it
once. The finest leaves touch that block across the end of the ring, where they are two levels apart. -/
def curledLeaves : List Location :=
  squareGrid.children ⟨3, ⟨0, 0, 0⟩⟩ ++ (squareGrid.children ⟨2, ⟨0, 0, 0⟩⟩).tail ++
    (squareGrid.children ⟨1, ⟨0, 0, 0⟩⟩).tail ++ squareGrid.children ⟨1, ⟨1, 0, 0⟩⟩ ++
      [⟨1, ⟨0, 1, 0⟩⟩, ⟨1, ⟨1, 1, 0⟩⟩]

/-- The corner finds the coarser block at the other end of the ring, whose family is told of the finer one.
The finest family touches nothing finer. -/
theorem steps_find_contact_curled : ∃ tree, ofLeaves squareGrid curledLeaves = .ok tree ∧
    ¬tree.Balanced ∧
    (∃ gids, tree.coarseNeighborhood? 0 = some (.ok gids) ∧ 11 ∈ gids ∧ 1 ∉ gids) ∧
    tree.familyBordersFiner? 10 = some (.ok true) ∧ tree.familyBordersFiner? 0 = some (.ok false) := by
  have computed : (ofLeaves squareGrid curledLeaves).toOption.any (fun tree =>
      tree.grid = squareGrid && tree.locations = curledLeaves.toArray) = true := by
    decide +kernel
  obtain ⟨tree, built, computed⟩ := Outcome.exists_ok_of_any computed
  simp only [Bool.and_eq_true, decide_eq_true_eq] at computed
  obtain ⟨grid, locations⟩ := computed
  have fits : tree.Fits := by
    rw [Fits, grid, locations]
    decide
  have listed (gid : Nat) : tree.location? gid = curledLeaves[gid]? := by
    rw [location?, locations, List.getElem?_toArray]
  have members (parent : Location)
      (below : ∀ member ∈ squareGrid.children parent, member ∈ curledLeaves) :
      ∀ member ∈ tree.grid.children parent, member ∈ tree.locations := by
    rw [grid, locations]
    intro member child
    exact List.mem_toArray.2 (below member child)
  have corner : tree.location? 0 = some ⟨4, ⟨0, 0, 0⟩⟩ := by rw [listed]; rfl
  have beside : tree.location? 1 = some ⟨4, ⟨1, 0, 0⟩⟩ := by rw [listed]; rfl
  have wide : tree.location? 11 = some ⟨2, ⟨3, 0, 0⟩⟩ := by rw [listed]; rfl
  -- the corner and the block at the other end of the ring
  have across : tree.grid.Adjacent ⟨4, ⟨0, 0, 0⟩⟩ ⟨2, ⟨3, 0, 0⟩⟩ := by
    refine ⟨⟨-1, 0, 0⟩, ?_⟩
    rw [grid]
    decide
  have back : tree.grid.Adjacent ⟨2, ⟨3, 0, 0⟩⟩ ⟨4, ⟨0, 0, 0⟩⟩ := by
    refine ⟨⟨1, 0, 0⟩, ?_⟩
    rw [grid]
    decide
  obtain ⟨coarser, finer⟩ := steps_find_contact fits
  obtain ⟨gids, found, exact⟩ := coarser 0 _ corner
  obtain ⟨outer, bordered, _, touched⟩ :=
    finer 10 ⟨1, ⟨1, 0, 0⟩⟩ (members _ (by decide)) (by rw [listed]; rfl)
  obtain ⟨inner, lone, _, untouched⟩ :=
    finer 0 ⟨3, ⟨0, 0, 0⟩⟩ (members _ (by decide)) (by rw [listed]; rfl)
  refine ⟨tree, built, ?_, ⟨gids, found, ?_, ?_⟩, ?_, ?_⟩
  · intro balanced
    have levels := balanced _ (mem_locations_iff.2 ⟨0, corner⟩) _ (mem_locations_iff.2 ⟨11, wide⟩) across
    exact absurd levels.1 (by decide)
  · exact (exact 11).2 ⟨_, wide, by decide, across⟩
  · intro among
    obtain ⟨home, named, level, _⟩ := (exact 1).1 among
    cases named.symm.trans beside
    exact absurd level (by decide)
  · have told := touched.2 ⟨⟨2, ⟨3, 0, 0⟩⟩, by rw [grid]; decide, 0, _, corner, by decide, back⟩
    rw [bordered, told]
  · have finest : ∀ loc ∈ curledLeaves, loc.level ≤ 4 := by decide
    have calm : ¬inner = true := by
      intro told
      obtain ⟨member, child, other, home, named, deeper, _⟩ := untouched.1 told
      rw [listed] at named
      have level := finest home (List.mem_of_getElem? named)
      rw [RootGrid.level_of_mem_children child] at deeper
      exact absurd level (Nat.not_le.2 deeper)
    rw [lone, Bool.eq_false_iff.2 calm]

end BlockTree

end AdaptiveMesh
