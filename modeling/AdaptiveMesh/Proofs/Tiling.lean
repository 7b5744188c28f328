import AdaptiveMesh.BlockTree.Refine
import AdaptiveMesh.Proofs.Descent
import AdaptiveMesh.Proofs.Outcome

/-!
# Tilings

A list of places tiles the domain if its members lie apart and every place of the domain meets one of
them. The leaves of a tree tile the domain, and any list that does is accepted as the leaves of a
tree. Replacing some members by their children turns a tiling into a tiling, and so does the inverse:
a place meets a member exactly if it meets one of the member's children.
-/

namespace AdaptiveMesh

set_option autoImplicit false

namespace Node

variable {α : Type} {n result : Node α} {value : α}

theorem setChild_ne_leaf (o : Octant) (c : Node α) (a : α) : n.setChild o c ≠ leaf a :=
  ofChildren_ne_leaf _ a

theorem leaf_along_place_iff {path : List Octant} {a : α}
    (placed : place value path n = some result) (way : List Octant) :
    result.along way = leaf a ↔ (way = path ∧ value = a) ∨ n.along way = leaf a := by
  induction path generalizing n result way with
  | nil =>
      simp only [place] at placed
      split at placed
      · rename_i vacant
        cases placed
        rw [isAbsent_iff.1 vacant]
        cases way with
        | nil => simp
        | cons o rest => simp
      · cases placed
  | cons o rest ih =>
      simp only [place] at placed
      split at placed
      · cases placed
      · rename_i leafless
        obtain ⟨below, placedBelow, rfl⟩ := Option.map_eq_some_iff.1 placed
        cases way with
        | nil =>
            have other : n ≠ leaf a := fun same => leafless (by rw [same]; rfl)
            simp [setChild_ne_leaf, other]
        | cons first later =>
            rw [along_cons, along_cons, child_setChild]
            by_cases same : first = o
            · subst same
              rw [if_pos rfl, ih placedBelow later, List.cons.injEq]
              simp
            · rw [if_neg same]
              simp [same]

theorem exists_place {path : List Octant} (pruned : n.Pruned)
    (free : ∀ other a, n.along other = leaf a → ¬other <+: path ∧ ¬path <+: other) :
    ∃ result, place value path n = some result := by
  induction path generalizing n with
  | nil =>
      have vacant : n = absent := by
        by_contra there
        obtain ⟨way, a, ends⟩ := exists_leaf_of_ne_absent pruned there
        exact (free way a ends).2 List.nil_prefix
      exact ⟨leaf value, by simp [place, vacant, isAbsent]⟩
  | cons o rest ih =>
      have leafless : n.isLeaf = false := by
        cases n with
        | absent => rfl
        | leaf a => exact absurd List.nil_prefix (free [] a rfl).1
        | internal c0 c1 c2 c3 c4 c5 c6 c7 => rfl
      have freeBelow (other : List Octant) (a : α) (ends : (n.child o).along other = leaf a) :
          ¬other <+: rest ∧ ¬rest <+: other := by
        have apart := free (o :: other) a ends
        simpa only [List.cons_prefix_cons, true_and] using apart
      obtain ⟨below, placed⟩ := ih (fun way => pruned (o :: way)) freeBelow
      exact ⟨n.setChild o below, by simp [place, leafless, placed]⟩

end Node

namespace Location

def Meets (a b : Location) : Prop := a.contains b = true ∨ b.contains a = true

theorem meets_comm {a b : Location} : a.Meets b ↔ b.Meets a := or_comm

theorem meets_of_contains_common {a b t : Location} (inA : a.contains t = true)
    (inB : b.contains t = true) : a.Meets b := by
  rcases Nat.le_total a.level b.level with coarser | coarser
  · exact .inl (contains_of_common inA inB coarser)
  · exact .inr (contains_of_common inB inA coarser)

end Location

/-- Whether a list of places tiles the domain. -/
structure RootGrid.Tiles (grid : RootGrid) (leaves : List Location) : Prop where
  occupied : leaves ≠ []
  fine : ∀ loc ∈ leaves, grid.rootLevel ≤ loc.level
  inside : ∀ loc ∈ leaves, grid.contains loc = true
  apart : leaves.Pairwise fun a b => ¬a.Meets b
  covering : ∀ place, grid.LevelFits place.level → grid.rootLevel ≤ place.level + 62 →
    grid.contains place = true → ∃ loc ∈ leaves, loc.Meets place

namespace BlockTree

variable {grid : RootGrid} {leaves : List Location}

theorem leaf_along_placeLeaves_iff {placed : Node Unit}
    (placing : placeLeaves grid leaves = .ok placed) (path : List Octant) :
    placed.along path = .leaf () ↔ ∃ loc ∈ leaves, loc.path = path := by
  have general (start : Node Unit) (run : leaves.foldlM (placeLeaf grid) start = .ok placed) :
      placed.along path = .leaf () ↔
        (∃ loc ∈ leaves, loc.path = path) ∨ start.along path = .leaf () := by
    clear placing
    induction leaves generalizing start with
    | nil =>
        cases run
        simp
    | cons loc rest ih =>
        rw [List.foldlM_cons] at run
        obtain ⟨next, first, later⟩ := Outcome.bind_ok_iff.1 run
        have step : next.along path = .leaf () ↔
            loc.path = path ∨ start.along path = .leaf () := by
          rw [Node.leaf_along_place_iff (placeLeaf_ok_iff.1 first).2.2 path, and_iff_left rfl,
            eq_comm]
        rw [ih next later, step, List.exists_mem_cons_iff, or_left_comm, or_assoc]
  rw [general .absent placing]
  simp

theorem exists_placeLeaves (fine : ∀ loc ∈ leaves, grid.rootLevel ≤ loc.level)
    (inside : ∀ loc ∈ leaves, grid.contains loc = true)
    (proper : ∀ loc ∈ leaves, Location.root.contains loc = true)
    (apart : leaves.Pairwise fun a b => ¬a.Meets b) :
    ∃ placed, placeLeaves grid leaves = .ok placed := by
  have general (start : Node Unit) (pruned : start.Pruned)
      (free : ∀ other, start.along other = .leaf () →
        ∀ loc ∈ leaves, ¬other <+: loc.path ∧ ¬loc.path <+: other) :
      ∃ placed, leaves.foldlM (placeLeaf grid) start = .ok placed := by
    induction leaves generalizing start with
    | nil => exact ⟨start, rfl⟩
    | cons loc rest ih =>
        obtain ⟨next, placed⟩ := Node.exists_place pruned
          (fun other _ ends => free other ends loc List.mem_cons_self)
        have step : placeLeaf grid start loc = .ok next := placeLeaf_ok_iff.2
          ⟨fine loc List.mem_cons_self, inside loc List.mem_cons_self, placed⟩
        obtain ⟨first, others⟩ := List.pairwise_cons.1 apart
        obtain ⟨result, later⟩ := ih
          (fun other member => fine other (List.mem_cons_of_mem loc member))
          (fun other member => inside other (List.mem_cons_of_mem loc member))
          (fun other member => proper other (List.mem_cons_of_mem loc member))
          others next (Node.pruned_place pruned placed) (by
            intro way ends other member
            rcases (Node.leaf_along_place_iff placed way).1 ends with ⟨rfl, _⟩ | before
            · have separate := first other member
              rw [Location.Meets,
                Location.contains_iff_prefix (proper loc List.mem_cons_self)
                  (proper other (List.mem_cons_of_mem loc member)),
                Location.contains_iff_prefix (proper other (List.mem_cons_of_mem loc member))
                  (proper loc List.mem_cons_self)] at separate
              exact not_or.1 separate
            · exact free way before other (List.mem_cons_of_mem loc member))
        exact ⟨result, by rw [List.foldlM_cons, step]; exact later⟩
  apply general .absent Node.pruned_absent
  intro other ends
  simp at ends

theorem ofLeaves_of_placed {placed : Node Unit} (occupied : leaves ≠ [])
    (placing : placeLeaves grid leaves = .ok placed)
    (complete : placed.isComplete grid .root = true) :
    ∃ next, ofLeaves grid leaves = .ok next := by
  unfold ofLeaves
  split
  · rename_i error failed
    rw [placing] at failed
    cases failed
  · rename_i again placed'
    cases placing.symm.trans placed'
    rw [dif_neg (by simpa using occupied), dif_pos complete]
    exact ⟨_, rfl⟩

theorem ofLeaves_spec {next : BlockTree} (built : ofLeaves grid leaves = .ok next) :
    next.grid = grid ∧ next.numLeaves = leaves.length ∧
      ∀ loc, loc ∈ next.locations ↔ ∃ leaf ∈ leaves, Location.ofPath leaf.path = loc := by
  unfold ofLeaves at built
  split at built
  · cases built
  · rename_i placed placing
    split at built
    · cases built
    · split at built
      · cases built
        refine ⟨rfl, ?_, fun loc => ?_⟩
        · have counted := size_of_foldlM placing
          simpa [numLeaves, ofPlaced, Node.size] using counted
        · have listed : loc ∈ (placed.entries .root).map Prod.fst ↔
              ∃ path, placed.along path = .leaf () ∧ Location.ofPath path = loc := by
            simp only [List.mem_map, Prod.exists, exists_and_right, exists_eq_right,
              Node.mem_entries_iff]
            constructor
            · intro listed
              obtain ⟨_, path, found⟩ := listed
              exact ⟨path, found⟩
            · intro there
              obtain ⟨path, found⟩ := there
              exact ⟨(), path, found⟩
          simp only [ofPlaced, List.mem_toArray, listed, leaf_along_placeLeaves_iff placing]
          constructor
          · rintro ⟨_, ⟨leaf, member, rfl⟩, same⟩
            exact ⟨leaf, member, same⟩
          · rintro ⟨leaf, member, same⟩
            exact ⟨_, ⟨leaf, member, rfl⟩, same⟩
      · cases built

theorem proper_of_tiles (tiles : grid.Tiles leaves) (fits : ∀ loc ∈ leaves, grid.LevelFits loc.level)
    {loc : Location} (member : loc ∈ leaves) : Location.root.contains loc = true := by
  have fine := tiles.fine loc member
  exact RootGrid.root_contains (fits loc member) (by omega) (tiles.inside loc member)

theorem along_placeLeaves_ne_absent_iff {placed : Node Unit}
    (proper : ∀ loc ∈ leaves, Location.root.contains loc = true)
    (placing : placeLeaves grid leaves = .ok placed) (path : List Octant) :
    placed.along path ≠ .absent ↔ ∃ loc ∈ leaves, (Location.ofPath path).contains loc = true := by
  have ends := leaf_along_placeLeaves_iff placing
  rw [Node.along_ne_absent_iff (pruned_of_foldlM placing Node.pruned_absent)]
  constructor
  · rintro ⟨rest, ⟨⟩, leaf⟩
    obtain ⟨loc, member, same⟩ := (ends _).1 leaf
    refine ⟨loc, member, ?_⟩
    rw [Location.contains_ofPath_iff (proper loc member), same]
    exact List.prefix_append _ _
  · rintro ⟨loc, member, around⟩
    rw [Location.contains_ofPath_iff (proper loc member)] at around
    obtain ⟨rest, whole⟩ := around
    exact ⟨rest, (), (ends _).2 ⟨loc, member, whole.symm⟩⟩

theorem not_prefix_of_placed {placed : Node Unit} (placing : placeLeaves grid leaves = .ok placed)
    {path : List Octant} {f : Octant → Node Unit} (refined : placed.along path = .ofChildren f)
    {loc : Location} (member : loc ∈ leaves) : ¬loc.path <+: path := by
  rintro ⟨more, whole⟩
  have stopped := (leaf_along_placeLeaves_iff placing loc.path).2 ⟨loc, member, rfl⟩
  rw [← whole, Node.along_append, stopped] at refined
  cases more with
  | nil => exact absurd refined.symm (Node.ofChildren_ne_leaf f ())
  | cons first later =>
      rw [Node.along_leaf_cons] at refined
      exact absurd refined.symm (Node.ofChildren_ne_absent f)

theorem exists_leaf_below {placed : Node Unit}
    (proper : ∀ loc ∈ leaves, Location.root.contains loc = true)
    (placing : placeLeaves grid leaves = .ok placed) {path : List Octant}
    {f : Octant → Node Unit} (refined : placed.along path = .ofChildren f) :
    ∃ loc ∈ leaves, path.length < loc.level := by
  have present : placed.along path ≠ .absent := by
    rw [refined]
    exact Node.ofChildren_ne_absent f
  obtain ⟨loc, member, around⟩ := (along_placeLeaves_ne_absent_iff proper placing path).1 present
  refine ⟨loc, member, ?_⟩
  by_contra shallow
  have level := Location.level_le_of_contains around
  rw [Location.level_ofPath] at level
  rw [Location.contains_ofPath_iff (proper loc member)] at around
  have whole := around.eq_of_length (by rw [Location.length_path]; omega)
  exact not_prefix_of_placed placing refined member (whole ▸ List.prefix_rfl)

/-- Placing a tiling leaves no gap. -/
theorem isComplete_of_tiles {placed : Node Unit} (tiles : grid.Tiles leaves)
    (fits : ∀ loc ∈ leaves, grid.LevelFits loc.level)
    (placing : placeLeaves grid leaves = .ok placed) : placed.isComplete grid .root = true := by
  have proper (loc : Location) (member : loc ∈ leaves) := proper_of_tiles tiles fits member
  apply Node.isComplete_of_covers
  intro path f refined
  change (Node.ofChildren f).coversDomain grid (Location.ofPath path) = true
  rw [Node.coversDomain_iff]
  intro o
  have child : placed.along (path ++ [o]) = (Node.ofChildren f).child o := by
    rw [Node.along_append, refined]
    rfl
  rw [← child, along_placeLeaves_ne_absent_iff proper placing, ← Location.ofPath_append_singleton]
  constructor
  · rintro ⟨loc, member, around⟩
    have near := ((fits loc member).mono (Location.level_le_of_contains around)).near
      (.inl (by simp))
    exact RootGrid.contains_of_contains (fits loc member) near around (tiles.inside loc member)
  -- a leaf meets the child, and can not lie around it, since the node above is refined
  · intro domain
    obtain ⟨below, memberBelow, deep⟩ := exists_leaf_below proper placing refined
    have fitsChild : grid.LevelFits (Location.ofPath (path ++ [o])).level := by
      apply (fits below memberBelow).mono
      rw [Location.level_ofPath, List.length_append, List.length_singleton]
      omega
    obtain ⟨loc, member, around | inner⟩ :=
      tiles.covering _ fitsChild (fitsChild.near (.inl (by simp))) domain
    · rw [Location.contains_iff_prefix (proper loc member) (Location.root_contains_ofPath _),
        Location.path_ofPath] at around
      rcases List.prefix_concat_iff.1 around with whole | before
      · refine ⟨loc, member, ?_⟩
        apply (Location.contains_ofPath_iff (proper loc member) _).2
        exact whole ▸ List.prefix_rfl
      · exact absurd before (not_prefix_of_placed placing refined member)
    · exact ⟨loc, member, inner⟩

theorem ofLeaves_of_tiles (tiles : grid.Tiles leaves)
    (fits : ∀ loc ∈ leaves, grid.LevelFits loc.level) :
    ∃ next, ofLeaves grid leaves = .ok next ∧ next.grid = grid ∧
      next.numLeaves = leaves.length ∧ ∀ loc, loc ∈ next.locations ↔ loc ∈ leaves := by
  obtain ⟨placed, placing⟩ := exists_placeLeaves tiles.fine tiles.inside
    (fun loc member => proper_of_tiles tiles fits member) tiles.apart
  obtain ⟨next, built⟩ := ofLeaves_of_placed tiles.occupied placing
    (isComplete_of_tiles tiles fits placing)
  obtain ⟨grid, count, listed⟩ := ofLeaves_spec built
  refine ⟨next, built, grid, count, fun loc => ?_⟩
  rw [listed]
  constructor
  · rintro ⟨leaf, member, rfl⟩
    rwa [Location.ofPath_path (proper_of_tiles tiles fits member)]
  · intro member
    exact ⟨loc, member, Location.ofPath_path (proper_of_tiles tiles fits member)⟩

/-- The leaves of a tree tile the domain. -/
theorem tiles_locations {tree : BlockTree} (fits : tree.Fits) :
    tree.grid.Tiles tree.locations.toList where
  occupied := by
    have nonempty := tree.nonempty
    intro empty
    simp [← Array.length_toList, empty] at nonempty
  fine := fun loc member => tree.rootLevel_le loc (Array.mem_toList_iff.1 member)
  inside := by
    intro loc member
    obtain ⟨gid, block⟩ := mem_locations_iff.1 (Array.mem_toList_iff.1 member)
    exact contains_block fits block
  apart := by
    rw [List.pairwise_iff_getElem]
    intro i j boundI boundJ before meets
    have blockI : tree.location? i = some tree.locations.toList[i] := by
      rw [location?, ← Array.getElem?_toList, List.getElem?_eq_getElem boundI]
    have blockJ : tree.location? j = some tree.locations.toList[j] := by
      rw [location?, ← Array.getElem?_toList, List.getElem?_eq_getElem boundJ]
    rcases meets with inside | inside
    · have same := (eq_of_contains_block blockI blockJ inside).1
      omega
    · have same := (eq_of_contains_block blockJ blockI inside).1
      omega
  covering := by
    intro place fitsPlace near domain
    have proper := RootGrid.root_contains fitsPlace near domain
    rcases exists_cover fitsPlace near domain with ⟨gid, loc, block, around⟩ | ⟨f, refined⟩
    · exact ⟨loc, Array.mem_toList_iff.2 (mem_locations_iff.2 ⟨gid, block⟩), .inl around⟩
    · obtain ⟨gid, loc, block, inside, _⟩ := exists_block_below refined
      rw [Location.ofPath_path proper] at inside
      exact ⟨loc, Array.mem_toList_iff.2 (mem_locations_iff.2 ⟨gid, block⟩), .inr inside⟩

end BlockTree

namespace RootGrid

variable {grid : RootGrid} {loc place : Location} {pieces : List (Location × Bool)}

theorem mem_children : place ∈ grid.children loc ↔
    ∃ o : Octant, o.isValidFor grid.dim = true ∧ loc.child o = place := by
  simp only [children, List.mem_map, Octant.mem_forDim grid.dim_le_three]

theorem level_of_mem_children (member : place ∈ grid.children loc) :
    place.level = loc.level + 1 := by
  obtain ⟨o, _, rfl⟩ := mem_children.1 member
  rfl

theorem contains_of_mem_children (member : place ∈ grid.children loc) :
    loc.contains place = true := by
  obtain ⟨o, _, rfl⟩ := mem_children.1 member
  exact Location.contains_child loc o

theorem eq_of_mem_children {a b : Location} (first : place ∈ grid.children a)
    (second : place ∈ grid.children b) : a = b := by
  obtain ⟨o, _, rfl⟩ := mem_children.1 first
  obtain ⟨other, _, same⟩ := mem_children.1 second
  have parents := congrArg Location.parent? same
  rw [Location.parent?_child, Location.parent?_child] at parents
  exact (Option.some.inj parents).symm

theorem numChildren_eq (grid : RootGrid) : grid.numChildren = 2 ^ grid.dim := Nat.one_shiftLeft _

theorem length_children (grid : RootGrid) (loc : Location) :
    (grid.children loc).length = grid.numChildren := by
  simp [children, Octant.forDim, numChildren]

theorem exists_child (grid : RootGrid) (loc : Location) : ∃ o, loc.child o ∈ grid.children loc :=
  ⟨.ofLinear 0, mem_children.2 ⟨_, by simp [Octant.isValidFor, Octant.linear_ofLinear], rfl⟩⟩

theorem exists_child_meets_iff (fits : grid.LevelFits place.level) (fine : grid.rootLevel ≤ loc.level)
    (inside : grid.contains place = true) :
    (∃ child ∈ grid.children loc, child.Meets place) ↔ loc.Meets place := by
  constructor
  · rintro ⟨child, member, meets⟩
    obtain ⟨o, _, rfl⟩ := mem_children.1 member
    rcases meets with around | within
    · exact .inl (Location.contains_trans (Location.contains_child loc o) around)
    · exact Location.meets_of_contains_common (Location.contains_child loc o) within
  · intro meets
    obtain ⟨o, some⟩ := grid.exists_child loc
    rcases meets with around | within
    · rcases (Location.level_le_of_contains around).lt_or_eq with deeper | same
      · have below := Location.contains_child_of_contains around deeper
        have domain := contains_of_contains fits (by rw [Location.level_child]; omega) below inside
        exact ⟨_, mem_children.2 ⟨_, isValidFor_of_contains_child domain, rfl⟩, .inl below⟩
      · rw [← Location.eq_of_contains around same.symm.le]
        exact ⟨_, some, .inr (Location.contains_child loc o)⟩
    · exact ⟨_, some, .inr (Location.contains_trans within (Location.contains_child loc o))⟩

theorem contains_children_iff (fits : grid.LevelFits (loc.level + 1))
    (fine : grid.rootLevel ≤ loc.level) :
    (∀ child ∈ grid.children loc, grid.contains child = true) ↔ grid.contains loc = true := by
  constructor
  · intro every
    obtain ⟨o, some⟩ := grid.exists_child loc
    have near : grid.rootLevel ≤ loc.level + 62 := by omega
    exact contains_of_contains fits near (Location.contains_child loc o) (every _ some)
  · intro inside child member
    obtain ⟨o, valid, rfl⟩ := mem_children.1 member
    exact contains_child fits fine inside valid

theorem children_apart (grid : RootGrid) (loc : Location) :
    (grid.children loc).Pairwise fun a b => ¬a.Meets b := by
  rw [children, List.pairwise_map]
  have distinct : (Octant.forDim grid.dim).Pairwise (· ≠ ·) :=
    (Octant.forDim_ordered grid.dim_le_three).imp fun less same => by rw [same] at less; omega
  refine distinct.imp fun differ meets => differ ?_
  rcases meets with inside | inside
  · exact Location.child_injective (Location.eq_of_contains inside le_rfl)
  · exact (Location.child_injective (Location.eq_of_contains inside le_rfl)).symm

end RootGrid

namespace BlockTree

variable {grid : RootGrid} {pieces : List (Location × Bool)}

theorem exists_refined_meets_iff {piece : Location × Bool} {place : Location}
    (fits : grid.LevelFits place.level) (fine : grid.rootLevel ≤ piece.1.level)
    (inside : grid.contains place = true) :
    (∃ leaf ∈ refined grid piece, leaf.Meets place) ↔ piece.1.Meets place := by
  unfold refined
  split
  · exact RootGrid.exists_child_meets_iff fits fine inside
  · simp

theorem contains_refined_iff {piece : Location × Bool} (fine : grid.rootLevel ≤ piece.1.level)
    (fits : ∀ leaf ∈ refined grid piece, grid.LevelFits leaf.level) :
    (∀ leaf ∈ refined grid piece, grid.contains leaf = true) ↔ grid.contains piece.1 = true := by
  unfold refined at fits ⊢
  split
  · rename_i flagged
    rw [if_pos flagged] at fits
    obtain ⟨o, some⟩ := grid.exists_child piece.1
    exact RootGrid.contains_children_iff (fits _ some) fine
  · simp

theorem exists_refined (grid : RootGrid) (piece : Location × Bool) :
    ∃ leaf ∈ refined grid piece, piece.1.contains leaf = true := by
  unfold refined
  split
  · obtain ⟨o, some⟩ := grid.exists_child piece.1
    exact ⟨_, some, Location.contains_child _ _⟩
  · exact ⟨piece.1, List.mem_singleton_self _, Location.contains_refl _⟩

theorem rootLevel_le_of_refined {piece : Location × Bool} (fine : grid.rootLevel ≤ piece.1.level)
    {leaf : Location} (below : leaf ∈ refined grid piece) : grid.rootLevel ≤ leaf.level := by
  unfold refined at below
  split at below
  · rw [RootGrid.level_of_mem_children below]
    exact fine.trans (Nat.le_succ _)
  · rwa [List.mem_singleton.1 below]

theorem refined_apart (grid : RootGrid) (piece : Location × Bool) :
    (refined grid piece).Pairwise fun a b => ¬a.Meets b := by
  unfold refined
  split
  · exact grid.children_apart piece.1
  · exact List.pairwise_singleton _ _

section

variable (fine : ∀ piece ∈ pieces, grid.rootLevel ≤ piece.1.level)
  (fits : ∀ piece ∈ pieces, ∀ leaf ∈ refined grid piece, grid.LevelFits leaf.level)

include fine fits

theorem contains_pieces_iff : (∀ leaf ∈ pieces.flatMap (refined grid), grid.contains leaf = true) ↔
    ∀ loc ∈ pieces.map Prod.fst, grid.contains loc = true := by
  simp only [List.mem_flatMap, List.mem_map, forall_exists_index, and_imp,
    forall_apply_eq_imp_iff₂]
  constructor
  · intro every piece member
    exact (contains_refined_iff (fine piece member) (fits piece member)).1 fun leaf below =>
      every leaf piece member below
  · intro every leaf piece member below
    exact (contains_refined_iff (fine piece member) (fits piece member)).2
      (every piece member) leaf below

theorem exists_refined_meets_refined_iff
    (inside : ∀ loc ∈ pieces.map Prod.fst, grid.contains loc = true) {p q : Location × Bool}
    (memberP : p ∈ pieces) (memberQ : q ∈ pieces) :
    (∃ a ∈ refined grid p, ∃ b ∈ refined grid q, a.Meets b) ↔ p.1.Meets q.1 := by
  have insideP := inside p.1 (List.mem_map_of_mem memberP)
  have insideLeaf := (contains_refined_iff (fine q memberQ) (fits q memberQ)).2
    (inside q.1 (List.mem_map_of_mem memberQ))
  have fitsP : grid.LevelFits p.1.level := by
    obtain ⟨leaf, below, around⟩ := exists_refined grid p
    exact (fits p memberP leaf below).mono (Location.level_le_of_contains around)
  have left (b : Location) (memberB : b ∈ refined grid q) :=
    exists_refined_meets_iff (fits q memberQ b memberB) (fine p memberP) (insideLeaf b memberB)
  have right := exists_refined_meets_iff fitsP (fine q memberQ) insideP
  constructor
  · rintro ⟨a, memberA, b, memberB, meets⟩
    have half := (left b memberB).1 ⟨a, memberA, meets⟩
    exact Location.meets_comm.1 (right.1 ⟨b, memberB, Location.meets_comm.1 half⟩)
  · intro meets
    obtain ⟨b, memberB, half⟩ := right.2 (Location.meets_comm.1 meets)
    obtain ⟨a, memberA, whole⟩ := (left b memberB).2 (Location.meets_comm.1 half)
    exact ⟨a, memberA, b, memberB, whole⟩

theorem pieces_apart_iff (inside : ∀ loc ∈ pieces.map Prod.fst, grid.contains loc = true) :
    (pieces.flatMap (refined grid)).Pairwise (fun a b => ¬a.Meets b) ↔
      (pieces.map Prod.fst).Pairwise fun a b => ¬a.Meets b := by
  rw [List.pairwise_flatMap, List.pairwise_map,
    and_iff_right fun piece _ => refined_apart grid piece]
  apply List.Pairwise.iff_of_mem
  intro p q memberP memberQ
  rw [← exists_refined_meets_refined_iff fine fits inside memberP memberQ]
  push Not
  exact Iff.rfl

omit fits in
theorem exists_piece_meets_iff {place : Location} (fitsPlace : grid.LevelFits place.level)
    (domain : grid.contains place = true) :
    (∃ leaf ∈ pieces.flatMap (refined grid), leaf.Meets place) ↔
      ∃ loc ∈ pieces.map Prod.fst, loc.Meets place := by
  have each (piece : Location × Bool) (member : piece ∈ pieces) :=
    exists_refined_meets_iff fitsPlace (fine piece member) domain
  simp only [List.mem_flatMap, List.mem_map]
  constructor
  · rintro ⟨leaf, ⟨piece, member, below⟩, meets⟩
    exact ⟨piece.1, ⟨piece, member, rfl⟩, (each piece member).1 ⟨leaf, below, meets⟩⟩
  · rintro ⟨_, ⟨piece, member, rfl⟩, meets⟩
    obtain ⟨leaf, below, meets⟩ := (each piece member).2 meets
    exact ⟨leaf, ⟨piece, member, below⟩, meets⟩

/-- Replacing some members of a list by their children makes a tiling exactly of a tiling. -/
theorem tiles_refined_iff :
    grid.Tiles (pieces.flatMap (refined grid)) ↔ grid.Tiles (pieces.map Prod.fst) := by
  have insides := contains_pieces_iff fine fits
  constructor
  · intro tiles
    have inside := insides.1 tiles.inside
    refine ⟨fun empty => tiles.occupied ?_, ?_, inside,
      (pieces_apart_iff fine fits inside).1 tiles.apart, ?_⟩
    · rw [List.map_eq_nil_iff.1 empty, List.flatMap_nil]
    · intro loc member
      obtain ⟨piece, listed, rfl⟩ := List.mem_map.1 member
      exact fine piece listed
    · intro place fitsPlace near domain
      exact (exists_piece_meets_iff fine fitsPlace domain).1
        (tiles.covering place fitsPlace near domain)
  · intro tiles
    refine ⟨fun empty => tiles.occupied ?_, ?_, insides.2 tiles.inside,
      (pieces_apart_iff fine fits tiles.inside).2 tiles.apart, ?_⟩
    · cases pieces with
      | nil => rfl
      | cons first rest =>
          obtain ⟨leaf, below, _⟩ := exists_refined grid first
          rw [List.flatMap_cons] at empty
          rw [(List.append_eq_nil_iff.1 empty).1] at below
          cases below
    · intro leaf member
      obtain ⟨piece, member, below⟩ := List.mem_flatMap.1 member
      exact rootLevel_le_of_refined (fine piece member) below
    · intro place fitsPlace near domain
      exact (exists_piece_meets_iff fine fitsPlace domain).2
        (tiles.covering place fitsPlace near domain)

end

end BlockTree

end AdaptiveMesh
