import AdaptiveMesh.Proofs.Neighborhood
import AdaptiveMesh.Proofs.Outcome

/-!
# Balance

A tree is balanced if blocks that touch, along periodic axes also by way of an image, differ by at
most one level. Steps in all directions from a block find exactly the coarser blocks that touch it
(`coarseNeighbors_ok`), and tell whether a finer one does (`bordersFiner_ok`).
-/

namespace AdaptiveMesh

set_option autoImplicit false

theorem Region.mem_directions {r : Region} {dim : Nat} :
    r ∈ directions dim ↔ r ≠ central ∧ r.isValidFor dim = true := by
  simp [directions, mem_all]

namespace BlockTree

variable {tree : BlockTree} {gid other : Nat} {loc home place target : Location} {r : Region}
  {turns : Triple Int}

/-- Whether blocks that touch differ by at most one level. -/
def Balanced (tree : BlockTree) : Prop :=
  ∀ a ∈ tree.locations, ∀ b ∈ tree.locations, tree.grid.Adjacent a b →
    a.level ≤ b.level + 1 ∧ b.level ≤ a.level + 1

theorem Balanced.levels (balanced : tree.Balanced) (block : tree.location? gid = some loc)
    (found : tree.location? other = some home) (winds : tree.grid.Winds turns)
    (touch : loc.Touches (tree.grid.image home turns)) :
    loc.level ≤ home.level + 1 ∧ home.level ≤ loc.level + 1 :=
  balanced loc (mem_locations_iff.2 ⟨gid, block⟩) home (mem_locations_iff.2 ⟨other, found⟩)
    ⟨turns, winds, touch⟩

theorem balanced_of_levels {level : Nat}
    (near : ∀ loc ∈ tree.locations, level ≤ loc.level ∧ loc.level ≤ level + 1) : tree.Balanced := by
  intro a memberA b memberB _
  have levelA := near a memberA
  have levelB := near b memberB
  omega

/-- Whether a place touches a block more than one level away. -/
def Jumps (tree : BlockTree) (loc : Location) : Prop :=
  ∃ other ∈ tree.locations, tree.grid.Adjacent loc other ∧
    (other.level + 1 < loc.level ∨ loc.level + 1 < other.level)

theorem balanced_iff : tree.Balanced ↔ ∀ loc ∈ tree.locations, ¬tree.Jumps loc := by
  constructor
  · intro balanced loc member jumps
    obtain ⟨other, inside, touch, apart⟩ := jumps
    have levels := balanced loc member other inside touch
    omega
  · intro calm a insideA b insideB touch
    by_contra apart
    exact calm a insideA ⟨b, insideB, touch, by omega⟩

theorem lx_image_eq_zero (fits : tree.Fits) (block : tree.location? gid = some loc)
    (winds : tree.grid.Winds turns) {axis : Axis} (degenerate : tree.grid.dim ≤ axis.val) :
    (tree.grid.image loc turns).lx axis = 0 := by
  rw [RootGrid.lx_image, winds.degenerate degenerate,
    lx_block_eq_zero fits block degenerate]
  simp

/-- A block that touches an image of a node touches an image of a leaf below the node. -/
theorem exists_touching_block (fits : tree.Fits) (block : tree.location? gid = some loc)
    (winds : tree.grid.Winds turns) {path : List Octant} {n : Node Nat}
    (ends : tree.root.along path = n) (there : n ≠ .absent)
    (inside : tree.grid.contains (Location.ofPath path) = true)
    (fine : tree.grid.rootLevel ≤ path.length)
    (touch : (tree.grid.image (Location.ofPath path) turns).Touches loc) :
    ∃ other home, tree.location? other = some home ∧
      (Location.ofPath path).contains home = true ∧
      (tree.grid.image home turns).Touches loc := by
  induction n using Node.inductionOn generalizing path with
  | absent => exact absurd rfl there
  | leaf other =>
      exact ⟨other, _, location?_iff.2 ⟨path, ends, rfl⟩, Location.contains_refl _, touch⟩
  | internal f ih =>
      obtain ⟨third, below, found, _, deeper⟩ := exists_block_below ends
      have level : (Location.ofPath path).level = path.length := Location.level_ofPath path
      have fitsChild : tree.grid.LevelFits ((Location.ofPath path).level + 1) :=
        (fits.level found).mono (by omega)
      have flat (axis : Axis) (degenerate : tree.grid.dim ≤ axis.val) :
          (tree.grid.image (Location.ofPath path) turns).lx axis = 0 ∧ loc.lx axis = 0 := by
        rw [RootGrid.lx_image, winds.degenerate degenerate,
          RootGrid.lx_eq_zero inside degenerate, lx_block_eq_zero fits block degenerate]
        simp
      -- some child touches, and completeness puts a node there
      obtain ⟨o, listed, touchChild⟩ := Location.exists_child_touches tree.grid.one_le_dim
        tree.grid.dim_le_three flat touch
      rw [← RootGrid.image_child winds fitsChild (by omega)] at touchChild
      have domain := RootGrid.contains_child fitsChild (by omega) inside
        ((Octant.mem_forDim tree.grid.dim_le_three).1 listed)
      have present := (child_present_iff ends o).2 domain
      have next : tree.root.along (path ++ [o]) = f o := by
        rw [Node.along_append, ends, Node.along_cons, Node.child_ofChildren, Node.along_nil]
      have deep : tree.grid.rootLevel ≤ (path ++ [o]).length := by
        rw [List.length_append]
        omega
      rw [← Location.ofPath_append_singleton] at domain touchChild
      obtain ⟨other, home, leaf, within, touches⟩ := ih o next present domain deep touchChild
      refine ⟨other, home, leaf, Location.contains_trans ?_ within, touches⟩
      rw [Location.ofPath_append_singleton]
      exact Location.contains_child _ o

theorem isValidFor_directionOf (fits : tree.Fits) (block : tree.location? gid = some loc)
    (found : tree.location? other = some home) (winds : tree.grid.Winds turns) :
    (loc.directionOf (tree.grid.image home turns)).isValidFor tree.grid.dim = true := by
  rw [Region.isValidFor_iff]
  intro axis degenerate
  have width (places : Nat) : (0 : Int) < 2 ^ places := by positivity
  rw [Location.side_directionOf]
  simp [Location.sideOf, Location.lowerAt, Location.upperAt, lx_block_eq_zero fits block degenerate,
    lx_image_eq_zero fits found winds degenerate, not_le.2 (width _)]

theorem contains_of_image_contains (fits : tree.Fits) (found : tree.location? other = some home)
    (fitsTarget : tree.grid.LevelFits target.level)
    (domain : tree.grid.contains target = true)
    (inside : (tree.grid.image home turns).contains target = true) :
    home.contains target = true := by
  have fine := rootLevel_le_level found
  have imageInside : tree.grid.contains (tree.grid.image home turns) = true :=
    RootGrid.contains_of_contains fitsTarget (by rw [RootGrid.level_image]; omega) inside domain
  have same : home = tree.grid.image home turns :=
    RootGrid.eq_of_image_eq (contains_block fits found) imageInside
      (tree.grid.image_still (tree.grid.image home turns)).symm
  rw [same]
  exact inside

/-- Blocks of different levels do not overlap. -/
theorem directionOf_ne_central (fits : tree.Fits) (block : tree.location? gid = some loc)
    (found : tree.location? other = some home) (winds : tree.grid.Winds turns)
    (differ : home.level ≠ loc.level) (touch : loc.Touches (tree.grid.image home turns)) :
    loc.directionOf (tree.grid.image home turns) ≠ .central := by
  intro central
  have still : loc.shifted .central = loc := by
    refine Location.eq_of_axes rfl fun axis => ?_
    rw [Location.lx_shifted]
    simp [Region.central, Region.side, Side.offset]
  rcases Nat.lt_or_gt_of_ne differ with coarser | finer
  · have inside := (Location.touches_iff_contains_shifted
      (a := loc) (b := tree.grid.image home turns) coarser.le).1 touch
    rw [central, still] at inside
    have around := contains_of_image_contains fits found (fits.level block)
      (contains_block fits block) inside
    have same := (eq_of_contains_block found block around).2
    exact differ (congrArg Location.level same)
  · have inside := ((Location.faces_iff_of_le (a := loc) (b := tree.grid.image home turns)
      finer.le).1 ⟨touch, central⟩).1
    have fitsHome := fits.level found
    have whole := RootGrid.contains_image_iff winds.back (a := loc)
      (b := tree.grid.image home turns) fitsHome (rootLevel_le_level block)
    rw [still] at inside
    rw [RootGrid.image_back] at whole
    have around := contains_of_image_contains fits block (fits.level found)
      (contains_block fits found) (whole.2 inside)
    have same := (eq_of_contains_block block found around).2
    exact differ (congrArg Location.level same).symm

theorem exists_findNeighbor (fits : tree.Fits) (block : tree.location? gid = some loc)
    (direction : r ∈ Region.directions tree.grid.dim) :
    ∃ answer, tree.findNeighbor loc r = .ok answer := by
  rcases findNeighbor_cases fits block (Region.mem_directions.1 direction).2 with
    ⟨other, home, turns, answer, _⟩ | ⟨target, turns, f, answer, _⟩ | answer
  · exact ⟨_, answer⟩
  · exact ⟨_, answer⟩
  · exact ⟨_, answer⟩

theorem neighbors_ok (fits : tree.Fits) (block : tree.location? gid = some loc) :
    ∃ found, tree.neighbors loc = .ok found ∧ ∀ node, node ∈ found ↔
      ∃ r ∈ Region.directions tree.grid.dim, tree.findNeighbor loc r = .ok (some node) := by
  obtain ⟨answers, run⟩ :=
    Outcome.exists_mapM_ok fun r direction => exists_findNeighbor fits block direction
  refine ⟨answers.filterMap id, by rw [neighbors, run]; rfl, fun node => ?_⟩
  rw [List.mem_filterMap]
  have paired := Outcome.mapM_ok_iff.1 run
  constructor
  · rintro ⟨answer, member, same⟩
    obtain ⟨r, direction, found⟩ := Outcome.exists_left_of_mem paired member
    exact ⟨r, direction, by rw [found]; exact congrArg Except.ok same⟩
  · rintro ⟨r, direction, found⟩
    obtain ⟨answer, member, same⟩ := Outcome.exists_right_of_mem paired direction
    exact ⟨answer, member, Except.ok.inj (same.symm.trans found)⟩

theorem coarseNeighbors_ok (fits : tree.Fits) (block : tree.location? gid = some loc) :
    ∃ gids, tree.coarseNeighbors loc = .ok gids ∧ ∀ other, other ∈ gids ↔
      ∃ home, tree.location? other = some home ∧ home.level < loc.level ∧
        tree.grid.Adjacent loc home := by
  obtain ⟨found, run, members⟩ := neighbors_ok fits block
  refine ⟨_, by rw [coarseNeighbors, run]; rfl, fun other => ?_⟩
  rw [List.mem_filterMap]
  constructor
  · rintro ⟨node, member, chosen⟩
    obtain ⟨r, direction, answer⟩ := (members node).1 member
    have valid := (Region.mem_directions.1 direction).2
    split at chosen
    · rename_i coarser
      rcases findNeighbor_cases fits block valid with
        ⟨third, home, turns, answerLeaf, leaf, winds, inside⟩ |
        ⟨target, turns, f, answerNode, _⟩ | answerNone
      · rw [answer] at answerLeaf
        cases answerLeaf
        cases chosen
        exact ⟨home, leaf, coarser, turns, winds, Location.touches_of_contains_shifted inside⟩
      · rw [answer] at answerNode
        cases answerNode
        cases chosen
      · rw [answer] at answerNone
        cases answerNone
    · cases chosen
  · rintro ⟨home, leaf, coarser, turns, winds, touch⟩
    have valid := isValidFor_directionOf fits block leaf winds
    have outward := directionOf_ne_central fits block leaf winds coarser.ne touch
    have inside := (Location.touches_iff_contains_shifted
      (a := loc) (b := tree.grid.image home turns) coarser.le).1 touch
    have answer := findNeighbor_of_block fits block valid leaf winds inside
    refine ⟨⟨home, .leaf other⟩,
      (members _).2 ⟨_, Region.mem_directions.2 ⟨outward, valid⟩, answer⟩, ?_⟩
    simp only [coarser, if_true]
    rfl

theorem bordersFiner_ok (fits : tree.Fits) (block : tree.location? gid = some loc) :
    ∃ answer, tree.bordersFiner loc = .ok answer ∧ (answer = true ↔
      ∃ other home, tree.location? other = some home ∧ loc.level < home.level ∧
        tree.grid.Adjacent loc home) := by
  obtain ⟨found, run, members⟩ := neighbors_ok fits block
  refine ⟨_, by rw [bordersFiner, run]; rfl, ?_⟩
  rw [List.any_eq_true]
  constructor
  · rintro ⟨node, member, refined⟩
    obtain ⟨r, direction, answer⟩ := (members node).1 member
    rcases findNeighbor_cases fits block (Region.mem_directions.1 direction).2 with
      ⟨third, home, turns, answerLeaf, _⟩ |
      ⟨target, turns, f, answerNode, children, proper, inside, winds, step⟩ | answerNone
    · rw [answer] at answerLeaf
      cases answerLeaf
      cases refined
    · have level : target.level = loc.level := (congrArg Location.level step).symm
      have placed : Location.ofPath target.path = target := Location.ofPath_path proper
      have fine := rootLevel_le_level block
      have touch : (tree.grid.image (Location.ofPath target.path) turns).Touches loc := by
        rw [placed, ← step]
        exact Location.touches_comm.1
          (Location.touches_of_contains_shifted (Location.contains_refl (loc.shifted r)))
      obtain ⟨other, home, leaf, within, touches⟩ :=
        exists_touching_block fits block winds children (Node.ofChildren_ne_absent f)
          (placed.symm ▸ inside) (by rw [Location.length_path]; omega) touch
      refine ⟨other, home, leaf, ?_, turns, winds, Location.touches_comm.1 touches⟩
      have deeper := lt_level_of_refined children leaf within
      rw [Location.length_path] at deeper
      omega
    · rw [answer] at answerNone
      cases answerNone
  · rintro ⟨other, home, leaf, finer, turns, winds, touch⟩
    have valid := isValidFor_directionOf fits block leaf winds
    have outward := directionOf_ne_central fits block leaf winds finer.ne' touch
    have inside := ((Location.faces_iff_of_le (a := loc) (b := tree.grid.image home turns)
      finer.le).1 ⟨touch, rfl⟩).1
    obtain ⟨f, answer, _⟩ := findNeighbor_of_finer fits block valid leaf winds finer inside
    exact ⟨_, (members _).2 ⟨_, Region.mem_directions.2 ⟨outward, valid⟩, answer⟩, rfl⟩

end BlockTree

end AdaptiveMesh
