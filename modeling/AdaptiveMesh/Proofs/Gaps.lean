import Mathlib.Data.List.Find
import AdaptiveMesh.Proofs.Layout

/-!
# Gaps

An arena is checked in the order in which its nodes are stored, which is the order in which the leaves
called for them. So the first node that does not cover its part of the domain is the first one on the
paths of the leaves, taken one after the other (`gap?_eq`).
-/

namespace AdaptiveMesh

set_option autoImplicit false

def Location.trail : Location → List Octant → List Location
  | _, [] => []
  | loc, o :: rest => loc.child o :: trail (loc.child o) rest

namespace Arena

variable {nodes next : Array ArenaNode} {node : ArenaNode} {index : Nat} {loc : Location}
  {path : List Octant} {placed : Node Unit} {grid : RootGrid} {leaves : List Location}

theorem find?_append_cons_of_mem {α : Type} {first rest : List α} {a : α} (member : a ∈ first)
    (p : α → Bool) : (first ++ a :: rest).find? p = (first ++ rest).find? p := by
  rw [List.find?_append, List.find?_append]
  cases found : first.find? p with
  | some b => rfl
  | none =>
      have passed := List.find?_eq_none.1 found a member
      rw [List.find?_cons_of_neg passed]

def places (nodes : Array ArenaNode) : List Location := nodes.toList.map ArenaNode.loc

theorem places_eq (nodes : Array ArenaNode) : places nodes = (outline nodes).map Prod.fst := by
  simp [places, outline]

theorem mem_places (here : nodes[index]? = some node) : node.loc ∈ places nodes :=
  List.mem_map_of_mem (Array.mem_toList_iff.2 (Array.mem_of_getElem? here))

/-- What is first among the nodes after a leaf has been added is first among the nodes before and the
places on the leaf's path. -/
theorem find?_placeBelow (linked : Linked nodes) (here : nodes[index]? = some node)
    (run : placeBelow loc path index nodes = .ok next) (p : Location → Bool) :
    (places next).find? p = (places nodes ++ node.loc.trail path).find? p := by
  induction path generalizing nodes index node with
  | nil =>
      cases run
      rw [Location.trail, List.append_nil]
  | cons o rest ih =>
      cases kind : node.kind with
      | leaf gid =>
          simp only [placeBelow, here, kind] at run
          cases run
      | internal links =>
          have children : node.child? o = links.at? o := by rw [ArenaNode.child?, kind]
          have internal : node.isLeaf = false := by rw [ArenaNode.isLeaf, kind]
          cases child : links.at? o with
          | some below =>
              obtain ⟨childNode, found, under⟩ :=
                (linked.child?_iff here).1 (children.trans child)
              simp only [placeBelow, here, kind, child] at run
              split at run
              · cases run
              · rw [ih linked found run, Location.trail, under,
                  find?_append_cons_of_mem (under ▸ mem_places found)]
          | none =>
              simp only [placeBelow, here, kind, child] at run
              have bound := (Array.getElem?_eq_some_iff.1 here).1
              have grown : Linked (addChild nodes index o
                  ⟨node.loc.child o, some index, .fresh rest.isEmpty⟩) :=
                linked_addChild here internal linked (children.trans child) rfl rfl
                  (ArenaNode.child?_fresh _ _ _)
              have last : (addChild nodes index o
                  ⟨node.loc.child o, some index, .fresh rest.isEmpty⟩)[nodes.size]? =
                    some ⟨node.loc.child o, some index, .fresh rest.isEmpty⟩ := by
                rw [getElem?_addChild bound, if_pos rfl]
              rw [ih grown last run, places_eq, outline_addChild, List.map_append, ← places_eq,
                Location.trail, List.append_assoc]
              rfl

theorem places_placeRoot (run : placeRoot loc nodes = .ok next) : places next = places nodes := by
  unfold placeRoot at run
  split at run
  · cases run
  · split at run
    · cases run
    · split at run
      · cases run
        apply List.ext_getElem?
        intro position
        simp only [places, List.getElem?_map, Array.getElem?_toList, Array.getElem?_modify]
        split
        · cases nodes[position]? <;> rfl
        · rfl
      · cases run

theorem find?_placeLeaf (linked : Linked nodes) (run : placeLeaf grid nodes loc = .ok next)
    (p : Location → Bool) :
    (places next).find? p = (places nodes ++ Location.root.trail loc.path).find? p := by
  obtain ⟨root, here, top, _⟩ := linked.root
  unfold placeLeaf at run
  split at run
  · cases run
  · split at run
    · cases run
    · split at run
      · rename_i level
        have short : loc.path = [] := by
          rw [← List.length_eq_zero_iff, Location.length_path]
          exact level
        rw [places_placeRoot run, short, Location.trail, List.append_nil]
      · rw [find?_placeBelow linked here run, top]

theorem find?_placeLeaves (run : placeLeaves grid leaves = .ok nodes) (p : Location → Bool) :
    (places nodes).find? p =
      (.root :: leaves.flatMap fun loc => Location.root.trail loc.path).find? p := by
  have steps (rest : List Location) (placed : Node Unit) (before : Array ArenaNode)
      (stands : Stands before placed) (pruned : placed.Pruned)
      (adding : rest.foldlM (placeLeaf grid) before = .ok nodes) : (places nodes).find? p =
        (places before ++ rest.flatMap fun loc => Location.root.trail loc.path).find? p := by
    induction rest generalizing placed before with
    | nil =>
        cases adding
        rw [List.flatMap_nil, List.append_nil]
    | cons loc rest ih =>
        rw [List.foldlM_cons] at adding
        obtain ⟨after, added, adding⟩ := Outcome.bind_ok_iff.1 adding
        have agree := agree_placeLeaf stands pruned grid loc
        cases made : BlockTree.placeLeaf grid placed loc with
        | error e =>
            rw [made] at agree
            cases added.symm.trans agree.eq_of_error
        | ok next =>
            rw [made] at agree
            obtain ⟨same, again, kept⟩ := agree.exists_of_ok
            cases added.symm.trans again
            have prunedNext := Node.pruned_place pruned (BlockTree.placeLeaf_ok_iff.1 made).2.2
            have first := find?_placeLeaf stands.linked added p
            rw [ih next after kept prunedNext adding, List.flatMap_cons, ← List.append_assoc,
              List.find?_append, first, ← List.find?_append]
  exact steps leaves .absent vacant stands_vacant Node.pruned_absent run

def gappy (grid : RootGrid) (placed : Node Unit) (place : Location) : Bool :=
  let n := placed.along place.path
  n.shape? == some false && !n.coversDomain grid place

theorem gapAlong?_eq {n : Node Unit} (here : placed.along loc.path = n) :
    n.gapAlong? grid path loc = (loc :: loc.trail path).find? (gappy grid placed) := by
  induction path generalizing n loc with
  | nil =>
      rw [List.find?_cons, Location.trail, List.find?_nil, gappy, here]
      cases n with
      | absent => rfl
      | leaf a => rfl
      | internal c0 c1 c2 c3 c4 c5 c6 c7 =>
          rw [Node.gapAlong?]
          cases covers : Node.coversDomain grid loc (.internal c0 c1 c2 c3 c4 c5 c6 c7) <;> rfl
  | cons o rest ih =>
      have below : placed.along (loc.child o).path = n.child o := by
        rw [Location.path_child, Node.along_append, here, Node.along_cons, Node.along_nil]
      rw [List.find?_cons, Location.trail, ← ih below, gappy, here]
      cases n with
      | absent => simp [Node.gapAlong?, Node.shape?]
      | leaf a => simp [Node.gapAlong?, Node.shape?]
      | internal c0 c1 c2 c3 c4 c5 c6 c7 =>
          rw [Node.gapAlong?]
          cases covers : Node.coversDomain grid loc (.internal c0 c1 c2 c3 c4 c5 c6 c7) <;> rfl

/-- The first gap along the paths of the leaves is the first gap among the root and the places on the
paths. -/
theorem findSome?_gapAlong? (occupied : leaves ≠ []) :
    (leaves.findSome? fun loc => placed.gapAlong? grid loc.path .root) =
      (.root :: leaves.flatMap fun loc => Location.root.trail loc.path).find? (gappy grid placed) := by
  have top : placed.along Location.root.path = placed := rfl
  simp only [gapAlong?_eq top, List.find?_cons, List.find?_flatMap]
  cases gap : gappy grid placed .root with
  | false => rfl
  | true =>
      cases leaves with
      | nil => exact absurd rfl occupied
      | cons first rest => rfl

section

variable (linked : Linked nodes) (holds : Holds nodes [] placed)

include linked holds

theorem coversDomain_eq (here : nodes[index]? = some node) :
    (!node.coversDomain grid) = gappy grid placed node.loc := by
  have proper := linked.root_contains here
  have place : node.loc = Location.ofPath node.loc.path := (Location.ofPath_path proper).symm
  have inside : Holds nodes node.loc.path (placed.along node.loc.path) := by
    intro way
    rw [← Node.along_append]
    exact holds (node.loc.path ++ way)
  rw [gappy, inside.shape linked here place]
  cases kind : node.isLeaf with
  | true =>
      unfold ArenaNode.isLeaf at kind
      split at kind
      · rename_i same
        rw [ArenaNode.coversDomain, same]
        rfl
      · cases kind
  | false =>
      obtain ⟨links, same, children⟩ := ArenaNode.exists_links kind
      simp only [ArenaNode.coversDomain, same, Node.coversDomain, ← children,
        inside.child?_isSome linked here place]
      rfl

theorem gap?_eq : gap? grid nodes = (places nodes).find? (gappy grid placed) := by
  rw [gap?, places, List.find?_map]
  congr 1
  apply List.find?_congr
  intro node member
  obtain ⟨index, here⟩ := Array.getElem?_of_mem (Array.mem_toList_iff.1 member)
  exact coversDomain_eq linked holds here

theorem gap?_eq_none_iff : gap? grid nodes = none ↔ placed.isComplete grid .root = true := by
  rw [gap?_eq linked holds, List.find?_eq_none]
  constructor
  · intro none
    apply Node.isComplete_of_covers
    intro path f ends
    have shape : shapeAt nodes path = some false := by
      have known := holds path
      rwa [List.nil_append, ends] at known
    obtain ⟨index, node, here, place, _⟩ := linked.shapeAt_iff.1 shape
    have passed := none node.loc (mem_places here)
    rw [gappy, place, Location.path_ofPath, ends] at passed
    simpa [Location.ofPath] using passed
  · intro complete loc member
    obtain ⟨node, inside, same⟩ := List.mem_map.1 member
    obtain ⟨index, here⟩ := Array.getElem?_of_mem (Array.mem_toList_iff.1 inside)
    have place : loc.path.foldl Location.child .root = loc := by
      rw [← same]
      exact Location.ofPath_path (linked.root_contains here)
    have below := Node.isComplete_along complete loc.path
    rw [place] at below
    intro gap
    obtain ⟨internal, uncovered⟩ := Bool.and_eq_true_iff.1 gap
    obtain ⟨f, ends⟩ := Node.exists_children_of_shape (beq_iff_eq.1 internal)
    rw [ends] at below uncovered
    rw [((Node.isComplete_ofChildren f).1 below).1] at uncovered
    cases uncovered

end

end Arena

end AdaptiveMesh
