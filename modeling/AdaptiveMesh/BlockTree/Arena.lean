import AdaptiveMesh.BlockTree.Neighbor

/-!
# Arenas

A block tree is laid out in memory as an arena: an array of nodes that refer to their parent and their
children by index. The root comes first, and a leaf is added by walking its path from the root and
appending the nodes that are not there yet, so the layout depends on the order of the leaves. Links are
written on both sides, first in the new node and then in its parent. When all leaves are in place the
arena is checked node by node, and the leaves are numbered by a traversal with an explicit stack.
Neighbours are found by following indices from the root, and a family by going from its first leaf to the
parent and on to the other children. No index is checked when it is followed; here
an index that leads nowhere, or a traversal that takes more steps than there are nodes, is an error.
-/

namespace AdaptiveMesh

set_option autoImplicit false

/-- The indices of a node's children, one for each octant in which there is a child. -/
structure Links where
  indices : Vector (Option Nat) 8
deriving DecidableEq, Repr

namespace Links

def empty : Links := ⟨Vector.replicate 8 none⟩

def at? (links : Links) (o : Octant) : Option Nat :=
  have bound := o.linear_lt
  links.indices[o.linear]

def link (links : Links) (o : Octant) (index : Nat) : Links :=
  ⟨links.indices.set o.linear (some index) o.linear_lt⟩

def present (links : Links) : List Nat := Octant.all.filterMap links.at?

@[simp] theorem at?_empty (o : Octant) : empty.at? o = none := by
  simp [empty, at?]

@[simp] theorem at?_link (links : Links) (o other : Octant) (index : Nat) :
    (links.link o index).at? other = if other = o then some index else links.at? other := by
  have same_iff : o.linear = other.linear ↔ other = o := by
    constructor
    · intro same
      rw [← Octant.ofLinear_linear other, ← same, Octant.ofLinear_linear]
    · intro same
      rw [same]
  simp only [at?, link, Vector.getElem_set, same_iff]

end Links

inductive ArenaKind where
  | leaf (gid : Option Nat)
  | internal (links : Links)
deriving DecidableEq, Repr

def ArenaKind.fresh (last : Bool) : ArenaKind := if last then .leaf none else .internal .empty

structure ArenaNode where
  loc : Location
  parent : Option Nat
  kind : ArenaKind
deriving DecidableEq, Repr

namespace ArenaNode

def isLeaf (node : ArenaNode) : Bool :=
  match node.kind with
  | .leaf _ => true
  | .internal _ => false

def gid? (node : ArenaNode) : Option Nat :=
  match node.kind with
  | .leaf gid => gid
  | .internal _ => none

def child? (node : ArenaNode) (o : Octant) : Option Nat :=
  match node.kind with
  | .leaf _ => none
  | .internal links => links.at? o

def withChild (node : ArenaNode) (o : Octant) (index : Nat) : ArenaNode :=
  match node.kind with
  | .leaf _ => node
  | .internal links => { node with kind := .internal (links.link o index) }

def withGid (node : ArenaNode) (gid : Nat) : ArenaNode := { node with kind := .leaf (some gid) }

def coversDomain (grid : RootGrid) (node : ArenaNode) : Bool :=
  match node.kind with
  | .leaf _ => true
  | .internal links => Octant.all.all fun o =>
      (o.isValidFor grid.dim && grid.contains (node.loc.child o)) == (links.at? o).isSome

end ArenaNode

/-- Why an arena can not be built: its leaves are refused, or following its indices fails. -/
inductive ArenaError where
  | tree (error : TreeError)
  | brokenLink (index : Nat)
  | circular
deriving DecidableEq, Repr

/-- A block tree laid out as an array of nodes, root first. `leaves` gives the node of every gid. -/
structure Arena where
  grid : RootGrid
  nodes : Array ArenaNode
  leaves : Array Nat
deriving DecidableEq

namespace Arena

def vacant : Array ArenaNode := #[⟨.root, none, .internal .empty⟩]

def addChild (nodes : Array ArenaNode) (above : Nat) (o : Octant) (node : ArenaNode) :
    Array ArenaNode :=
  (nodes.push node).modify above fun up => up.withChild o nodes.size

/-- Adds the leaf at a location, given the rest of its path and the node at which the path has
arrived. -/
def placeBelow (loc : Location) :
    List Octant → Nat → Array ArenaNode → Except ArenaError (Array ArenaNode)
  | [], _, nodes => .ok nodes
  | o :: rest, index, nodes =>
      match nodes[index]? with
      | none => .error (.brokenLink index)
      | some node =>
          match node.kind with
          | .leaf _ => .error (.tree (.overlap loc))
          | .internal links =>
              match links.at? o with
              | some child =>
                  if rest.isEmpty then .error (.tree (.overlap loc))
                  else placeBelow loc rest child nodes
              | none =>
                  placeBelow loc rest nodes.size
                    (addChild nodes index o ⟨node.loc.child o, some index, .fresh rest.isEmpty⟩)

def placeRoot (loc : Location) (nodes : Array ArenaNode) : Except ArenaError (Array ArenaNode) :=
  match nodes[0]? with
  | none => .error (.brokenLink 0)
  | some root =>
      match root.kind with
      | .leaf _ => .error (.tree (.overlap loc))
      | .internal links =>
          if links.present.isEmpty then .ok (nodes.modify 0 fun root => { root with kind := .leaf none })
          else .error (.tree (.overlap loc))

def placeLeaf (grid : RootGrid) (nodes : Array ArenaNode) (loc : Location) :
    Except ArenaError (Array ArenaNode) :=
  if loc.level < grid.rootLevel then .error (.tree (.aboveRootLevel loc grid.rootLevel))
  else if !grid.contains loc then .error (.tree (.outsideDomain loc))
  else if loc.level = 0 then placeRoot loc nodes
  else placeBelow loc loc.path 0 nodes

def placeLeaves (grid : RootGrid) (leaves : List Location) : Except ArenaError (Array ArenaNode) :=
  leaves.foldlM (placeLeaf grid) vacant

def gap? (grid : RootGrid) (nodes : Array ArenaNode) : Option Location :=
  (nodes.toList.find? fun node => !node.coversDomain grid).map ArenaNode.loc

def numberLeaf (arena : Arena) (index : Nat) : Arena where
  grid := arena.grid
  nodes := arena.nodes.modify index fun node => node.withGid arena.leaves.size
  leaves := arena.leaves.push index

/-- Numbers the leaves below the nodes on a stack, in a number of steps. -/
def number : Nat → List Nat → Arena → Except ArenaError Arena
  | _, [], arena => .ok arena
  | 0, _ :: _, _ => .error .circular
  | steps + 1, index :: stack, arena =>
      match arena.nodes[index]? with
      | none => .error (.brokenLink index)
      | some node =>
          match node.kind with
          | .leaf _ => number steps stack (arena.numberLeaf index)
          | .internal links => number steps (links.present ++ stack) arena

def ofLeaves (grid : RootGrid) (leaves : List Location) : Except ArenaError Arena := do
  let nodes ← placeLeaves grid leaves
  if leaves.isEmpty then throw (.tree .empty)
  match gap? grid nodes with
  | some loc => throw (.tree (.incomplete loc))
  | none => number nodes.size [0] ⟨grid, nodes, #[]⟩

def place? (arena : Arena) (index : Nat) : Option Location := arena.nodes[index]?.map ArenaNode.loc

def reach (nodes : Array ArenaNode) : List Octant → Nat → Except ArenaError Nat
  | [], index => .ok index
  | o :: rest, index =>
      match nodes[index]? with
      | none => .error (.brokenLink index)
      | some node =>
          match node.kind with
          | .leaf _ => .ok index
          | .internal links =>
              match links.at? o with
              | none => .error (.tree (.incomplete node.loc))
              | some child => reach nodes rest child

def findNeighbor (arena : Arena) (loc : Location) (region : Region) :
    Except ArenaError (Option Nat) :=
  if !region.isValidFor arena.grid.dim then .error (.tree (.degenerateDirection region))
  else
    match arena.grid.wrap (loc.shifted region) with
    | .error error => .error (.tree error)
    | .ok none => .ok none
    | .ok (some target) =>
        match reach arena.nodes target.path 0 with
        | .error error => .error error
        | .ok index => .ok (some index)

def isLeafChild (arena : Arena) (links : Links) (o : Octant) : Bool :=
  (links.at? o).any fun child => arena.nodes[child]?.any ArenaNode.isLeaf

/-- The index of the parent whose first child the block is, if all its children are leaves and it is not
coarser than a root block. -/
def familyParent? (arena : Arena) (gid : Nat) : Option Nat := do
  let leaf ← arena.leaves[gid]?
  let node ← arena.nodes[leaf]?
  let above ← node.parent
  let up ← arena.nodes[above]?
  if up.loc.level < arena.grid.rootLevel then none
  else
    match up.kind with
    | .leaf _ => none
    | .internal links =>
        if links.at? .empty ≠ some leaf then none
        else if (Octant.forDim arena.grid.dim).all (arena.isLeafChild links) then some above
        else none

end Arena

end AdaptiveMesh
