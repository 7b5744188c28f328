import AdaptiveMesh.Node

/-!
# Block trees

A block tree tiles the domain of a root grid with leaves, the mesh blocks. It is built from the
places of its leaves, given in any order, and refuses a list that does not tile the domain. The
leaves are numbered along the Z curve: depth first, children in octant order. A leaf's number is the
global id (gid) of its block.
-/

namespace AdaptiveMesh

set_option autoImplicit false

inductive TreeError where
  | empty
  | outsideDomain (loc : Location)
  | aboveRootLevel (loc : Location) (rootLevel : Nat)
  | overlap (loc : Location)
  | incomplete (loc : Location)
  | notALeaf (loc : Location)
  | degenerateDirection (region : Region)
  | flagCount (expected found : Nat)
  | invalidCoarsenFlags (loc : Location)
  /-- A periodic axis whose extent at this level has been shifted out of the word, so that a
  coordinate along it can not be wrapped. -/
  | vanishedExtent (level : Nat) (axis : Axis)
deriving DecidableEq, Repr

def TreeError.message : TreeError → String
  | empty => "tree has no leaves"
  | outsideDomain loc => s!"leaf {loc.describe} lies outside of the domain"
  | aboveRootLevel loc rootLevel => s!"leaf {loc.describe} is coarser than root level {rootLevel}"
  | overlap loc => s!"leaf {loc.describe} overlaps another leaf"
  | incomplete loc => s!"node {loc.describe} does not have children covering its volume"
  | notALeaf loc => s!"node {loc.describe} was expected to be a leaf"
  | degenerateDirection region => s!"direction {region.describe} moves along a degenerate axis"
  | flagCount expected found => s!"expected {expected} flags, found {found}"
  | invalidCoarsenFlags loc =>
      s!"coarsening flags around {loc.describe} do not cover a complete family"
  | vanishedExtent level axis => s!"axis {axis.val} has no extent at level {level}"

/-- A tree of mesh blocks over a root grid. `locations` lists the leaves by gid. -/
structure BlockTree where
  grid : RootGrid
  root : Node Nat
  locations : Array Location
  /-- The leaves of the tree are the listed ones, numbered in order. -/
  entries_eq : root.entries .root = locations.toList.zipIdx
  /-- Every internal node covers its part of the domain. -/
  complete : root.isComplete grid .root = true
  /-- No leaf is coarser than a root block. -/
  rootLevel_le : ∀ loc ∈ locations, grid.rootLevel ≤ loc.level
  nonempty : 0 < locations.size
  /-- No node is there without a leaf. -/
  pruned : root.Pruned

namespace BlockTree

def placeLeaf (grid : RootGrid) (placed : Node Unit) (loc : Location) :
    Except TreeError (Node Unit) :=
  if loc.level < grid.rootLevel then .error (.aboveRootLevel loc grid.rootLevel)
  else if !grid.contains loc then .error (.outsideDomain loc)
  else
    match placed.place () loc.path with
    | some placed => .ok placed
    | none => .error (.overlap loc)

def placeLeaves (grid : RootGrid) (leaves : List Location) : Except TreeError (Node Unit) :=
  leaves.foldlM (placeLeaf grid) .absent

/-- The first internal node that does not cover its part of the domain, where nodes come in the
order in which the leaves call for them, outermost first. -/
def firstGap (grid : RootGrid) (placed : Node Unit) (leaves : List Location) : Location :=
  (leaves.findSome? fun loc => placed.gapAlong? grid loc.path .root).getD .root

theorem length_foldl_child (path : List Octant) (loc : Location) :
    (path.foldl Location.child loc).level = loc.level + path.length := by
  induction path generalizing loc with
  | nil => rfl
  | cons o rest ih =>
      rw [List.foldl_cons, ih, Location.level_child, List.length_cons]
      omega

theorem placeLeaf_ok_iff {grid : RootGrid} {placed result : Node Unit} {loc : Location} :
    placeLeaf grid placed loc = .ok result ↔
      grid.rootLevel ≤ loc.level ∧ grid.contains loc = true ∧
        placed.place () loc.path = some result := by
  unfold placeLeaf
  split
  · simp only [reduceCtorEq, false_iff]
    omega
  · split
    · simp_all
    · split <;> simp_all

theorem placeLeaves_induction {grid : RootGrid} {motive : Node Unit → Prop}
    (step : ∀ placed result loc, placeLeaf grid placed loc = .ok result → motive placed →
      motive result)
    {leaves : List Location} {placed result : Node Unit}
    (placing : leaves.foldlM (placeLeaf grid) placed = .ok result) (start : motive placed) :
    motive result := by
  induction leaves generalizing placed with
  | nil =>
      cases placing
      exact start
  | cons loc rest ih =>
      rw [List.foldlM_cons] at placing
      cases first : placeLeaf grid placed loc with
      | error e => rw [first] at placing; cases placing
      | ok next =>
          rw [first] at placing
          exact ih placing (step placed next loc first start)

theorem rootLevel_le_of_foldlM {grid : RootGrid} {leaves : List Location}
    {placed result : Node Unit} (placing : leaves.foldlM (placeLeaf grid) placed = .ok result)
    (above : ∀ e ∈ placed.entries .root, grid.rootLevel ≤ e.1.level) :
    ∀ e ∈ result.entries .root, grid.rootLevel ≤ e.1.level := by
  refine placeLeaves_induction
    (motive := fun nodes => ∀ e ∈ nodes.entries .root, grid.rootLevel ≤ e.1.level)
    (fun placed result loc placing above e member => ?_) placing above
  obtain ⟨fine, _, placedNext⟩ := placeLeaf_ok_iff.1 placing
  rcases Node.mem_entries_of_place placedNext member with old | new
  · exact above e old
  · rw [new]
    simp only [length_foldl_child, Location.length_path, Location.root]
    omega

theorem pruned_of_foldlM {grid : RootGrid} {leaves : List Location} {placed result : Node Unit}
    (placing : leaves.foldlM (placeLeaf grid) placed = .ok result) (pruned : placed.Pruned) :
    result.Pruned :=
  placeLeaves_induction (motive := Node.Pruned) (fun _ _ _ placing pruned =>
    Node.pruned_place pruned (placeLeaf_ok_iff.1 placing).2.2) placing pruned

theorem size_of_foldlM {grid : RootGrid} {leaves : List Location} {placed result : Node Unit}
    (placing : leaves.foldlM (placeLeaf grid) placed = .ok result) :
    result.size = placed.size + leaves.length := by
  induction leaves generalizing placed with
  | nil =>
      cases placing
      rfl
  | cons loc rest ih =>
      rw [List.foldlM_cons] at placing
      cases first : placeLeaf grid placed loc with
      | error e => rw [first] at placing; cases placing
      | ok next =>
          rw [first] at placing
          have grown := Node.size_place (placeLeaf_ok_iff.1 first).2.2
          rw [ih placing, grown, List.length_cons]
          omega

def ofPlaced (grid : RootGrid) (placed : Node Unit)
    (complete : placed.isComplete grid .root = true)
    (above : ∀ e ∈ placed.entries .root, grid.rootLevel ≤ e.1.level)
    (occupied : 0 < placed.size) (pruned : placed.Pruned) : BlockTree where
  grid
  root := placed.numberFrom 0
  locations := ((placed.entries .root).map Prod.fst).toArray
  entries_eq := placed.entries_numberFrom 0 .root
  complete := by rw [Node.isComplete_numberFrom, complete]
  rootLevel_le := by
    intro loc member
    obtain ⟨e, inside, rfl⟩ := List.mem_map.1 (List.mem_toArray.1 member)
    exact above e inside
  nonempty := by simpa using occupied
  pruned := Node.pruned_numberFrom pruned 0

/-- Builds the tree with the given leaves, which must tile the domain. -/
def ofLeaves (grid : RootGrid) (leaves : List Location) : Except TreeError BlockTree :=
  match placing : placeLeaves grid leaves with
  | .error error => .error error
  | .ok placed =>
      if vacant : leaves.isEmpty then .error .empty
      else if complete : placed.isComplete grid .root = true then
        .ok (ofPlaced grid placed complete (rootLevel_le_of_foldlM placing (by simp))
          (by
            have counted := size_of_foldlM placing
            cases leaves with
            | nil => exact absurd rfl vacant
            | cons first rest => simp at counted; omega)
          (pruned_of_foldlM placing Node.pruned_absent))
      else .error (.incomplete (firstGap grid placed leaves))

def uniform (grid : RootGrid) : Except TreeError BlockTree := ofLeaves grid grid.rootLocations

variable (tree : BlockTree)

def numLeaves : Nat := tree.locations.size

def numNodes : Nat := tree.root.count

def maxLevel : Nat := tree.locations.foldl (fun finest loc => max finest loc.level) 0

def rootNode : PlacedNode := ⟨.root, tree.root⟩

def location? (gid : Nat) : Option Location := tree.locations[gid]?

def leaf? (gid : Nat) : Option PlacedNode :=
  (tree.location? gid).map fun loc => ⟨loc, .leaf gid⟩

/-- The leaf at the end of a location's path. Coordinates count modulo the number of cells of their
level, since the path shows no more of them. -/
def findLeaf? (loc : Location) : Option PlacedNode :=
  (tree.rootNode.descend? loc.path).filter PlacedNode.isLeaf

def nodes : List PlacedNode := tree.rootNode.preorder

def checkFlagCount (flags : Array Bool) : Except TreeError Unit :=
  if flags.size = tree.numLeaves then .ok ()
  else .error (.flagCount tree.numLeaves flags.size)

end BlockTree

def PlacedNode.leafChild (n : PlacedNode) (o : Octant) : Except TreeError PlacedNode :=
  match n.child? o with
  | none => .error (.incomplete n.loc)
  | some child => if child.isLeaf then .ok child else .error (.notALeaf child.loc)

end AdaptiveMesh
