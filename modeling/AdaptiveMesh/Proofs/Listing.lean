import Mathlib.Data.List.Nodup
import AdaptiveMesh.Neighbor.Row
import AdaptiveMesh.Proofs.Neighborhood
import AdaptiveMesh.Proofs.Outcome

/-!
# Listings

What a block lists for one direction: the images of blocks that touch it and lie in that direction,
each once, in octant order. A listing is read off what a step in the direction finds. If a step finds
a block, no other image lies in the direction; if it finds a refined node, the images are the children
on the near boundary, provided that these are leaves.
-/

namespace AdaptiveMesh

set_option autoImplicit false

theorem Region.mem_adjacentOctants {r : Region} {dim : Nat} (bounded : dim ≤ 3)
    (valid : r.isValidFor dim = true) {o : Octant} :
    o ∈ r.adjacentOctants dim ↔ o.isValidFor dim = true ∧ r.touches 3 o = true := by
  rw [adjacentOctants, List.mem_filter, Octant.mem_forDim bounded, and_congr_right_iff]
  intro _
  simp only [touches, List.all_eq_true, Axis.mem_all, true_implies, Bool.or_eq_true,
    decide_eq_true_eq]
  apply forall_congr'
  intro axis
  have active : ¬3 ≤ axis.val := by omega
  by_cases degenerate : dim ≤ axis.val
  · simp [degenerate, Region.isValidFor_iff.1 valid axis degenerate]
  · simp [degenerate, active]

theorem Region.isValidFor_reverse {r : Region} {dim : Nat} (valid : r.isValidFor dim = true) :
    r.reverse.isValidFor dim = true := by
  rw [isValidFor_iff] at valid ⊢
  intro axis degenerate
  have middle := valid axis degenerate
  simp only [side] at middle
  simp [reverse, side, middle, Side.reverse]

namespace BlockTree

variable {tree : BlockTree} {gid other : Nat} {loc home place target : Location} {r : Region}
  {turns : Triple Int}

/-- The images of blocks that touch a place and lie in a direction, each once, in octant order. -/
structure Listing (tree : BlockTree) (loc : Location) (r : Region)
    (listed : List (Nat × Location)) : Prop where
  exact : ∀ gid place, (gid, place) ∈ listed ↔ tree.IsImage gid place ∧ loc.Faces r place
  ordered : listed.Pairwise fun a b => a.2.octant.linear < b.2.octant.linear
  distinct : (listed.map Prod.fst).Nodup

theorem contains_of_faces (faces : loc.Faces r place) :
    (place.level ≤ loc.level ∧ place.contains (loc.shifted r) = true) ∨
      (loc.level < place.level ∧ (loc.shifted r).contains place = true) := by
  rcases Nat.lt_or_ge loc.level place.level with finer | coarser
  · exact .inr ⟨finer, ((Location.faces_iff_of_le finer.le).1 faces).1⟩
  · obtain ⟨touch, rfl⟩ := faces
    exact .inl ⟨coarser, (Location.touches_iff_contains_shifted coarser).1 touch⟩

theorem findNeighbor_of_faces (fits : tree.Fits) (block : tree.location? gid = some loc)
    (valid : r.isValidFor tree.grid.dim = true) (found : tree.location? other = some home)
    (winds : tree.grid.Winds turns) (faces : loc.Faces r (tree.grid.image home turns)) :
    (tree.findNeighbor loc r = .ok (some ⟨home, .leaf other⟩) ∧
      (tree.grid.image home turns).contains (loc.shifted r) = true) ∨
    ∃ target f, tree.findNeighbor loc r = .ok (some ⟨target, .ofChildren f⟩) ∧
      loc.shifted r = tree.grid.image target turns ∧ loc.level < home.level ∧
      target.contains home = true := by
  rcases contains_of_faces faces with ⟨_, inside⟩ | ⟨finer, outside⟩
  · exact .inl ⟨findNeighbor_of_block fits block valid found winds inside, inside⟩
  · obtain ⟨f, answer, _, within⟩ :=
      findNeighbor_of_finer fits block valid found winds finer outside
    exact .inr ⟨_, f, answer, (RootGrid.image_of_back ..).symm, finer, within⟩

theorem listing_none (fits : tree.Fits) (block : tree.location? gid = some loc)
    (valid : r.isValidFor tree.grid.dim = true) (answer : tree.findNeighbor loc r = .ok none) :
    tree.Listing loc r [] where
  exact := by
    intro other place
    simp only [List.not_mem_nil, false_iff]
    rintro ⟨⟨home, turns, found, winds, rfl⟩, faces⟩
    rcases findNeighbor_of_faces fits block valid found winds faces with
      ⟨inside, _⟩ | ⟨target, f, refined, _⟩
    · rw [answer] at inside
      cases inside
    · rw [answer] at refined
      cases refined
  ordered := .nil
  distinct := List.nodup_nil

/-- The image inside which a step ends lies in the step's direction unless the block does not reach
the boundary of its parent there. -/
theorem faces_block_iff (inside : place.contains (loc.shifted r) = true)
    (near : loc.level ≤ place.level + 1) :
    loc.Faces r place ↔ ¬(place.level < loc.level && !r.touches 3 loc.octant) = true := by
  have coarser := Location.level_le_of_contains inside
  change place.level ≤ loc.level at coarser
  rcases coarser.eq_or_lt with same | below
  · have equal := Location.eq_of_contains inside same.symm.le
    rw [Location.faces_iff_of_level_eq same, iff_true_left equal]
    simp [same]
  · have one : place.level + 1 = loc.level := by omega
    simp [Location.faces_iff_of_coarser one, inside, below]

theorem listing_block (fits : tree.Fits) (block : tree.location? gid = some loc)
    (valid : r.isValidFor tree.grid.dim = true) (found : tree.location? other = some home)
    (winds : tree.grid.Winds turns)
    (inside : (tree.grid.image home turns).contains (loc.shifted r) = true)
    (near : loc.level ≤ home.level + 1) :
    tree.Listing loc r (if home.level < loc.level && !r.touches 3 loc.octant then []
      else [(other, tree.grid.image home turns)]) := by
  have answer := findNeighbor_of_block fits block valid found winds inside
  have faces := faces_block_iff inside near
  have only (gid : Nat) (place : Location) (image : tree.IsImage gid place)
      (lies : loc.Faces r place) : (gid, place) = (other, tree.grid.image home turns) := by
    obtain ⟨third, around, met, windsThird, rfl⟩ := image
    rcases findNeighbor_of_faces fits block valid met windsThird lies with
      ⟨again, insideThird⟩ | ⟨target, f, refined, _⟩
    · rw [answer] at again
      cases again
      have outer := Location.contains_of_common inside insideThird le_rfl
      rw [Location.eq_of_contains outer le_rfl]
    · rw [answer] at refined
      cases refined
  split
  · rename_i skipped
    refine ⟨fun gid place => ?_, .nil, List.nodup_nil⟩
    simp only [List.not_mem_nil, false_iff]
    rintro ⟨image, lies⟩
    cases only gid place image lies
    exact faces.1 lies skipped
  · rename_i kept
    refine ⟨fun gid place => ?_, List.pairwise_singleton _ _, by simp⟩
    rw [List.mem_singleton]
    constructor
    · rintro ⟨⟩
      exact ⟨⟨home, turns, found, winds, rfl⟩, faces.2 kept⟩
    · rintro ⟨image, lies⟩
      exact only gid place image lies

theorem location?_child {f : Octant → Node Nat} (proper : Location.root.contains target = true)
    (refined : tree.root.along target.path = .ofChildren f) {o : Octant} (leaf : f o = .leaf gid) :
    tree.location? gid = some (target.child o) := by
  rw [location?_iff]
  refine ⟨target.path ++ [o], ?_, ?_⟩
  · rw [Node.along_append, refined, Node.along_cons, Node.child_ofChildren, leaf, Node.along_nil]
  · rw [Location.ofPath_append_singleton, Location.ofPath_path proper]

/-- What lies in the direction of a step that leads around it lies inside a child on the near
boundary. -/
theorem exists_near_child (fits : tree.Fits) (valid : r.isValidFor tree.grid.dim = true)
    (found : tree.location? other = some home) (winds : tree.grid.Winds turns)
    (faces : loc.Faces r (tree.grid.image home turns))
    (step : loc.shifted r = tree.grid.image target turns)
    (fine : tree.grid.rootLevel ≤ target.level) (within : target.contains home = true)
    (deeper : target.level < home.level) :
    ∃ o ∈ r.reverse.adjacentOctants tree.grid.dim, (target.child o).contains home = true ∧
      tree.grid.image (target.child o) turns = (loc.shifted r).child o := by
  have fitsChild : tree.grid.LevelFits (target.level + 1) := (fits.level found).mono deeper
  generalize octant : home.octantAt target.level = o
  have around : (target.child o).contains home = true :=
    octant ▸ Location.contains_child_of_contains within deeper
  have turned : tree.grid.image (target.child o) turns = (loc.shifted r).child o := by
    rw [RootGrid.image_child winds fitsChild fine, step]
  refine ⟨o, (Region.mem_adjacentOctants tree.grid.dim_le_three
    (Region.isValidFor_reverse valid)).2 ⟨?_, ?_⟩, around, turned⟩
  · have domain : tree.grid.contains (target.child o) = true :=
      RootGrid.contains_of_contains (fits.level found) (by rw [Location.level_child]; omega)
        around (contains_block fits found)
    exact RootGrid.isValidFor_of_contains_child domain
  · -- the child around the block touches wherever the block does
    have outside : ((loc.shifted r).child o).contains (tree.grid.image home turns) = true := by
      rw [← turned, RootGrid.contains_image_iff winds (fits.level found) (by
        rw [Location.level_child]; omega)]
      exact around
    have touch : loc.Touches ((loc.shifted r).child o) :=
      Location.touches_comm.1
        (Location.touches_of_contains outside (Location.touches_comm.1 faces.1))
    have lies : loc.Faces r ((loc.shifted r).child o) :=
      (Location.faces_iff_of_le (Nat.le_succ _)).2 ⟨Location.contains_child _ _, touch⟩
    rw [Location.faces_iff_of_finer rfl, Location.octant_child] at lies
    exact lies.2

/-- The direction of a step that ends at a refined node holds the children on the near boundary. -/
theorem listing_refined {f : Octant → Node Nat} {gids : Octant → Nat} (fits : tree.Fits)
    (block : tree.location? gid = some loc) (valid : r.isValidFor tree.grid.dim = true)
    (answer : tree.findNeighbor loc r = .ok (some ⟨target, .ofChildren f⟩))
    (refined : tree.root.along target.path = .ofChildren f)
    (proper : Location.root.contains target = true) (winds : tree.grid.Winds turns)
    (step : loc.shifted r = tree.grid.image target turns)
    (leaves : ∀ o ∈ r.reverse.adjacentOctants tree.grid.dim, f o = .leaf (gids o)) :
    tree.Listing loc r ((r.reverse.adjacentOctants tree.grid.dim).map fun o =>
      (gids o, (loc.shifted r).child o)) := by
  have bounded := tree.grid.dim_le_three
  have level : target.level = loc.level := (congrArg Location.level step).symm
  have fine : tree.grid.rootLevel ≤ target.level := level ▸ rootLevel_le_level block
  have ordered : (r.reverse.adjacentOctants tree.grid.dim).Pairwise
      fun a b => a.linear < b.linear := (Octant.forDim_ordered bounded).filter _
  have home (o : Octant) (near : o ∈ r.reverse.adjacentOctants tree.grid.dim) :
      tree.location? (gids o) = some (target.child o) :=
    location?_child proper refined (leaves o near)
  refine ⟨fun other place => ?_, ?_, ?_⟩
  · rw [List.mem_map]
    constructor
    · rintro ⟨o, near, same⟩
      cases same
      have placed := home o near
      refine ⟨⟨target.child o, turns, placed, winds, ?_⟩, ?_⟩
      · rw [step, RootGrid.image_child winds (fits.level placed) fine]
      · rw [Location.faces_iff_of_finer rfl, Location.octant_child]
        exact ⟨Location.contains_child _ _,
          ((Region.mem_adjacentOctants bounded (Region.isValidFor_reverse valid)).1 near).2⟩
    -- a block in this direction lies inside the refined node, below a child on the near boundary
    · rintro ⟨⟨met, others, found, windsMet, rfl⟩, faces⟩
      rcases findNeighbor_of_faces fits block valid found windsMet faces with
        ⟨inside, _⟩ | ⟨again, g, same, stepMet, finer, within⟩
      · rw [answer] at inside
        cases inside
      · rw [answer] at same
        simp only [Except.ok.injEq, Option.some.injEq, PlacedNode.mk.injEq] at same
        obtain ⟨rfl, _⟩ := same
        obtain ⟨o, near, around, turned⟩ := exists_near_child fits valid found windsMet faces
          stepMet fine within (level ▸ finer)
        obtain ⟨rfl, same⟩ := eq_of_contains_block (home o near) found around
        exact ⟨o, near, by rw [← same, turned]⟩
  · rw [List.pairwise_map]
    simpa only [Location.octant_child] using ordered
  · rw [List.map_map]
    refine List.Nodup.map_on ?_ (ordered.imp fun less same => by rw [same] at less; omega)
    intro a nearA b nearB same
    have equal := (home a nearA).symm.trans ((congrArg tree.location? same).trans (home b nearB))
    exact Location.child_injective (Option.some.inj equal)

end BlockTree

end AdaptiveMesh
