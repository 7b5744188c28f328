import AdaptiveMesh.BlockTree.Arena
import AdaptiveMesh.Proofs.Descent

/-!
# Links

The nodes of an arena are linked if every link has its counterpart: the root has no parent, any other
node is the child of an earlier node in the octant that its place says, and every child is a node that
names its parent. Appending a child where there is none keeps the nodes linked. In linked nodes a place
determines the node, so that the places of the nodes, with the kind of each, say all about the tree
(`shapeAt`), in whatever order the nodes are stored.
-/

namespace AdaptiveMesh

set_option autoImplicit false

theorem Location.child_inj {a b : Location} {o other : Octant} (same : a.child o = b.child other) :
    a = b ∧ o = other := by
  constructor
  · have higher := congrArg parent? same
    rw [parent?_child, parent?_child] at higher
    exact Option.some.inj higher
  · rw [← octant_child a o, same, octant_child]

namespace ArenaNode

variable {node : ArenaNode} {o other : Octant} {index gid : Nat}

@[simp] theorem loc_withChild (node : ArenaNode) (o : Octant) (index : Nat) :
    (node.withChild o index).loc = node.loc := by
  unfold withChild
  split <;> rfl

@[simp] theorem parent_withChild (node : ArenaNode) (o : Octant) (index : Nat) :
    (node.withChild o index).parent = node.parent := by
  unfold withChild
  split <;> rfl

@[simp] theorem isLeaf_withChild (node : ArenaNode) (o : Octant) (index : Nat) :
    (node.withChild o index).isLeaf = node.isLeaf := by
  cases kind : node.kind <;> simp only [withChild, isLeaf, kind]

theorem exists_links (internal : node.isLeaf = false) :
    ∃ links, node.kind = .internal links ∧ ∀ o, node.child? o = links.at? o := by
  unfold isLeaf at internal
  split at internal
  · cases internal
  · rename_i links same
    exact ⟨links, same, fun o => by rw [child?, same]⟩

theorem child?_withChild (internal : node.isLeaf = false) (o other : Octant) (index : Nat) :
    (node.withChild o index).child? other = if other = o then some index else node.child? other := by
  obtain ⟨links, same, children⟩ := exists_links internal
  rw [children, ← Links.at?_link, withChild, child?]
  simp only [same]

theorem child?_fresh (loc : Location) (parent : Option Nat) (last : Bool) (o : Octant) :
    (⟨loc, parent, .fresh last⟩ : ArenaNode).child? o = none := by
  cases last with
  | true => rfl
  | false => exact Links.at?_empty o

theorem isLeaf_of_child? (below : node.child? o = some index) : node.isLeaf = false := by
  cases kind : node.kind with
  | leaf gid =>
      rw [child?, kind] at below
      cases below
  | internal links => rw [isLeaf, kind]

end ArenaNode

namespace Arena

variable {nodes : Array ArenaNode} {node up a b : ArenaNode} {above index i j : Nat} {o : Octant}
  {path : List Octant} {leaf : Bool}

/-- Whether every link between nodes has its counterpart. -/
structure Linked (nodes : Array ArenaNode) : Prop where
  root : ∃ node, nodes[0]? = some node ∧ node.loc = .root ∧ node.parent = none
  parent : ∀ (index : Nat) (node : ArenaNode), nodes[index]? = some node → index ≠ 0 →
    ∃ (above : Nat) (up : ArenaNode) (o : Octant), node.parent = some above ∧ above < index ∧
      nodes[above]? = some up ∧ up.child? o = some index ∧ node.loc = up.loc.child o
  child : ∀ (above : Nat) (up : ArenaNode) (o : Octant) (index : Nat), nodes[above]? = some up →
    up.child? o = some index →
    ∃ node, nodes[index]? = some node ∧ node.parent = some above ∧ node.loc = up.loc.child o

theorem eq_of_single {root : ArenaNode} (here : #[root][index]? = some node) :
    index = 0 ∧ node = root := by
  rw [List.getElem?_toArray] at here
  cases index with
  | zero =>
      cases here
      exact ⟨rfl, rfl⟩
  | succ index => cases here

theorem linked_single {kind : ArenaKind}
    (childless : ∀ o, (⟨.root, none, kind⟩ : ArenaNode).child? o = none) :
    Linked #[⟨.root, none, kind⟩] where
  root := ⟨_, rfl, rfl, rfl⟩
  parent := by
    intro index node here apart
    exact absurd (eq_of_single here).1 apart
  child := by
    intro above up o index here below
    rw [(eq_of_single here).2, childless] at below
    cases below

section

variable (inside : above < nodes.size)

include inside

theorem getElem?_addChild (o : Octant) (node : ArenaNode) (index : Nat) :
    (addChild nodes above o node)[index]? =
      if index = nodes.size then some node
      else if index = above then nodes[above]?.map fun up => up.withChild o nodes.size
      else nodes[index]? := by
  rw [addChild, Array.getElem?_modify, Array.getElem?_push]
  by_cases last : index = nodes.size
  · have apart : above ≠ index := by omega
    rw [if_neg apart, if_pos last, if_pos last]
  · rw [if_neg last, if_neg last]
    by_cases same : index = above
    · rw [if_pos same.symm, if_pos same, same]
    · rw [if_neg (Ne.symm same), if_neg same]

end

section

variable (here : nodes[above]? = some up) (internal : up.isLeaf = false)

include here internal

theorem kept_addChild (vacant : up.child? o = none) {fresh : ArenaNode}
    (there : nodes[index]? = some node) :
    ∃ next, (addChild nodes above o fresh)[index]? = some next ∧ next.loc = node.loc ∧
      next.parent = node.parent ∧ next.isLeaf = node.isLeaf ∧
      ∀ other below, node.child? other = some below → next.child? other = some below := by
  have inside := (Array.getElem?_eq_some_iff.1 here).1
  have bound := (Array.getElem?_eq_some_iff.1 there).1
  rw [getElem?_addChild inside, if_neg (by omega)]
  by_cases same : index = above
  · subst same
    cases here.symm.trans there
    refine ⟨_, by rw [if_pos rfl, here]; rfl, by simp, by simp, by simp, ?_⟩
    intro other below child
    have apart : other ≠ o := by
      intro met
      rw [met, vacant] at child
      cases child
    rw [ArenaNode.child?_withChild internal, if_neg apart]
    exact child
  · exact ⟨node, by rw [if_neg same]; exact there, rfl, rfl, rfl, fun _ _ child => child⟩

/-- After a child has been appended a node is the new one, or was there and has no other new child. -/
theorem old_addChild {fresh : ArenaNode} (there : (addChild nodes above o fresh)[index]? = some node) :
    (index = nodes.size ∧ node = fresh) ∨
    ∃ was, nodes[index]? = some was ∧ node.loc = was.loc ∧ node.parent = was.parent ∧
      ∀ other below, node.child? other = some below →
        was.child? other = some below ∨ (index = above ∧ other = o ∧ below = nodes.size) := by
  have inside := (Array.getElem?_eq_some_iff.1 here).1
  rw [getElem?_addChild inside] at there
  by_cases last : index = nodes.size
  · rw [if_pos last] at there
    cases there
    exact .inl ⟨last, rfl⟩
  · rw [if_neg last] at there
    right
    by_cases same : index = above
    · rw [if_pos same, here, Option.map_some, Option.some.injEq] at there
      refine ⟨up, by rw [same]; exact here, by rw [← there]; simp, by rw [← there]; simp, ?_⟩
      intro other below child
      rw [← there, ArenaNode.child?_withChild internal] at child
      by_cases met : other = o
      · rw [if_pos met] at child
        cases child
        exact .inr ⟨same, met, rfl⟩
      · rw [if_neg met] at child
        exact .inl child
    · rw [if_neg same] at there
      exact ⟨node, there, rfl, rfl, fun _ _ child => .inl child⟩

theorem linked_addChild (linked : Linked nodes) (vacant : up.child? o = none) {fresh : ArenaNode}
    (placed : fresh.loc = up.loc.child o) (parent : fresh.parent = some above)
    (childless : ∀ o, fresh.child? o = none) : Linked (addChild nodes above o fresh) := by
  have inside := (Array.getElem?_eq_some_iff.1 here).1
  have last : (addChild nodes above o fresh)[nodes.size]? = some fresh := by
    rw [getElem?_addChild inside, if_pos rfl]
  constructor
  case root =>
    obtain ⟨root, first, top, alone⟩ := linked.root
    obtain ⟨next, there, loc, parent, _⟩ := kept_addChild here internal vacant first
    exact ⟨next, there, loc.trans top, parent.trans alone⟩
  case parent =>
    intro index node there apart
    cases old_addChild here internal there with
    | inl new =>
        obtain ⟨rfl, rfl⟩ := new
        have now : (addChild nodes above o node)[above]? = some (up.withChild o nodes.size) := by
          rw [getElem?_addChild inside, if_neg (by omega), if_pos rfl, here]
          rfl
        refine ⟨above, _, o, parent, inside, now, ?_, by rw [placed, ArenaNode.loc_withChild]⟩
        rw [ArenaNode.child?_withChild internal, if_pos rfl]
    | inr old =>
        obtain ⟨was, before, loc, same, _⟩ := old
        obtain ⟨higher, upper, octant, named, earlier, met, below, under⟩ :=
          linked.parent index was before apart
        obtain ⟨next, now, kept, _, _, children⟩ := kept_addChild here internal vacant met
        exact ⟨higher, next, octant, same.trans named, earlier, now, children octant index below,
          by rw [loc, under, kept]⟩
  case child =>
    intro higher upper octant index there below
    cases old_addChild here internal there with
    | inl new =>
        obtain ⟨_, rfl⟩ := new
        rw [childless] at below
        cases below
    | inr old =>
        obtain ⟨was, before, loc, _, children⟩ := old
        cases children octant index below with
        | inl child =>
            obtain ⟨node, met, named, under⟩ := linked.child higher was octant index before child
            obtain ⟨next, now, kept, same, _⟩ := kept_addChild here internal vacant met
            exact ⟨next, now, same.trans named, by rw [kept, under, loc]⟩
        | inr new =>
            obtain ⟨rfl, rfl, rfl⟩ := new
            cases here.symm.trans before
            exact ⟨fresh, last, parent, by rw [placed, loc]⟩

end

namespace Linked

variable (linked : Linked nodes)

include linked

theorem eq_of_loc (hereA : nodes[i]? = some a) (hereB : nodes[j]? = some b) (same : a.loc = b.loc) :
    i = j := by
  have top {index : Nat} {node : ArenaNode} (here : nodes[index]? = some node)
      (level : node.loc.level = 0) : index = 0 := by
    by_contra apart
    obtain ⟨_, _, _, _, _, _, _, placed⟩ := linked.parent index node here apart
    rw [placed] at level
    cases level
  induction i using Nat.strongRecOn generalizing j a b with
  | ind i ih =>
      by_cases first : i = 0
      · obtain ⟨root, there, placed, _⟩ := linked.root
        rw [first] at hereA ⊢
        cases hereA.symm.trans there
        exact (top hereB (by rw [← same, placed]; rfl)).symm
      · obtain ⟨p, up, o, _, earlier, met, below, placed⟩ := linked.parent i a hereA first
        have apart : j ≠ 0 := by
          intro last
          obtain ⟨root, there, placedRoot, _⟩ := linked.root
          rw [last] at hereB
          cases hereB.symm.trans there
          apply first
          exact top hereA (by rw [same, placedRoot]; rfl)
        obtain ⟨q, other, octant, _, _, metOther, belowOther, placedOther⟩ :=
          linked.parent j b hereB apart
        have children : up.loc.child o = other.loc.child octant := by
          rw [← placed, ← placedOther, same]
        obtain ⟨parents, octants⟩ := Location.child_inj children
        have indices := ih p earlier met metOther parents
        rw [indices] at met
        cases met.symm.trans metOther
        rw [octants] at below
        exact Option.some.inj (below.symm.trans belowOther)

theorem root_contains (here : nodes[index]? = some node) :
    Location.root.contains node.loc = true := by
  induction index using Nat.strongRecOn generalizing node with
  | ind index ih =>
      by_cases first : index = 0
      · obtain ⟨root, there, placed, _⟩ := linked.root
        rw [first] at here
        cases here.symm.trans there
        rw [placed]
        exact Location.contains_refl _
      · obtain ⟨p, up, o, _, earlier, met, _, placed⟩ := linked.parent index node here first
        rw [placed]
        exact Location.contains_trans (ih p earlier met) (Location.contains_child up.loc o)

theorem child?_iff (here : nodes[above]? = some up) : up.child? o = some index ↔
    ∃ node, nodes[index]? = some node ∧ node.loc = up.loc.child o := by
  constructor
  · intro below
    obtain ⟨node, there, _, placed⟩ := linked.child above up o index here below
    exact ⟨node, there, placed⟩
  · intro found
    obtain ⟨node, there, placed⟩ := found
    have apart : index ≠ 0 := by
      intro first
      obtain ⟨root, top, placedRoot, _⟩ := linked.root
      rw [first] at there
      cases there.symm.trans top
      rw [placedRoot] at placed
      cases congrArg Location.level placed
    obtain ⟨p, other, octant, _, _, met, below, under⟩ := linked.parent index node there apart
    have children : up.loc.child o = other.loc.child octant := by rw [← placed, under]
    obtain ⟨parents, octants⟩ := Location.child_inj children
    have same := linked.eq_of_loc here met parents
    rw [same] at here
    cases here.symm.trans met
    rw [octants]
    exact below

end Linked

def outline (nodes : Array ArenaNode) : List (Location × Bool) :=
  nodes.toList.map fun node => (node.loc, node.isLeaf)

def shapeAt (nodes : Array ArenaNode) (path : List Octant) : Option Bool :=
  (outline nodes).lookup (Location.ofPath path)

theorem mem_outline_iff {entry : Location × Bool} : entry ∈ outline nodes ↔
    ∃ (index : Nat) (node : ArenaNode), nodes[index]? = some node ∧ (node.loc, node.isLeaf) = entry := by
  rw [outline, List.mem_map]
  constructor
  · intro listed
    obtain ⟨node, member, same⟩ := listed
    obtain ⟨index, here⟩ := Array.getElem?_of_mem (Array.mem_toList_iff.1 member)
    exact ⟨index, node, here, same⟩
  · intro found
    obtain ⟨index, node, here, same⟩ := found
    exact ⟨node, Array.mem_toList_iff.2 (Array.mem_of_getElem? here), same⟩

theorem Linked.shapeAt_iff (linked : Linked nodes) : shapeAt nodes path = some leaf ↔
    ∃ (index : Nat) (node : ArenaNode), nodes[index]? = some node ∧
      node.loc = Location.ofPath path ∧ node.isLeaf = leaf := by
  have found {kind : Bool} (shape : shapeAt nodes path = some kind) :
      ∃ (index : Nat) (node : ArenaNode), nodes[index]? = some node ∧
        node.loc = Location.ofPath path ∧ node.isLeaf = kind := by
    obtain ⟨before, after, whole, _⟩ := List.lookup_eq_some_iff.1 shape
    have member : (Location.ofPath path, kind) ∈ outline nodes := by
      rw [whole]
      exact List.mem_append_right _ List.mem_cons_self
    obtain ⟨index, node, here, same⟩ := mem_outline_iff.1 member
    obtain ⟨placed, kindOf⟩ := Prod.mk.inj same
    exact ⟨index, node, here, placed, kindOf⟩
  constructor
  · exact found
  · intro there
    obtain ⟨index, node, here, placed, kind⟩ := there
    cases shape : shapeAt nodes path with
    | none =>
        have member : (node.loc, node.isLeaf) ∈ outline nodes :=
          mem_outline_iff.2 ⟨index, node, here, rfl⟩
        have missed := List.lookup_eq_none_iff.1 shape _ member
        simp [placed] at missed
    | some other =>
        obtain ⟨again, twin, there, placedTwin, kindTwin⟩ := found shape
        have same := linked.eq_of_loc here there (placed.trans placedTwin.symm)
        rw [← same] at there
        cases here.symm.trans there
        rw [← kind, ← kindTwin]

theorem Linked.shapeAt_eq_none_iff (linked : Linked nodes) : shapeAt nodes path = none ↔
    ∀ (index : Nat) (node : ArenaNode), nodes[index]? = some node → node.loc ≠ Location.ofPath path := by
  constructor
  · intro shape index node here placed
    rw [linked.shapeAt_iff.2 ⟨index, node, here, placed, rfl⟩] at shape
    cases shape
  · intro nowhere
    cases shape : shapeAt nodes path with
    | none => rfl
    | some leaf =>
        obtain ⟨index, node, here, placed, _⟩ := linked.shapeAt_iff.1 shape
        exact absurd placed (nowhere index node here)

theorem Linked.child?_isSome_iff (linked : Linked nodes) (here : nodes[above]? = some up)
    (placed : up.loc = Location.ofPath path) :
    (up.child? o).isSome = (shapeAt nodes (path ++ [o])).isSome := by
  rw [Bool.eq_iff_iff, Option.isSome_iff_exists, Option.isSome_iff_exists]
  simp only [linked.child?_iff here, linked.shapeAt_iff, Location.ofPath_append_singleton, placed]
  constructor
  · intro found
    obtain ⟨index, node, there, under⟩ := found
    exact ⟨node.isLeaf, index, node, there, under, rfl⟩
  · intro found
    obtain ⟨_, index, node, there, under, _⟩ := found
    exact ⟨index, node, there, under⟩

theorem outline_modify {f : ArenaNode → ArenaNode} (index : Nat)
    (kept : ∀ node, nodes[index]? = some node →
      (f node).loc = node.loc ∧ (f node).isLeaf = node.isLeaf) :
    outline (nodes.modify index f) = outline nodes := by
  apply List.ext_getElem?
  intro position
  simp only [outline, List.getElem?_map, Array.getElem?_toList, Array.getElem?_modify]
  by_cases same : index = position
  · rw [if_pos same, ← same]
    cases here : nodes[index]? with
    | none => rfl
    | some node =>
        obtain ⟨placed, kind⟩ := kept node here
        simp [placed, kind]
  · rw [if_neg same]

theorem outline_addChild (nodes : Array ArenaNode) (above : Nat) (o : Octant) (node : ArenaNode) :
    outline (addChild nodes above o node) = outline nodes ++ [(node.loc, node.isLeaf)] := by
  rw [addChild, outline_modify above fun up _ => ⟨by simp, by simp⟩]
  simp [outline]

end Arena

end AdaptiveMesh
