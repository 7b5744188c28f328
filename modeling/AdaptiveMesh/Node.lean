import AdaptiveMesh.RootGrid

/-!
# Tree nodes

A node is absent, a leaf with a value, or internal with one node per octant. A node does not know
where it lies; its place is that of the root moved along the path of octants that leads to it.
`Node.entries` is the view of a node: its leaves with their places, in octant order. Setting a leaf
refuses a path that meets another leaf, and numbering replaces the values of the leaves by their
positions in the view.
-/

namespace AdaptiveMesh

set_option autoImplicit false

/-- A node of a block tree whose leaves carry values. -/
inductive Node (α : Type) where
  | absent
  | leaf (value : α)
  | internal (c0 c1 c2 c3 c4 c5 c6 c7 : Node α)
deriving Repr

namespace Node

variable {α β : Type}

def child : Node α → Octant → Node α
  | internal c0 c1 c2 c3 c4 c5 c6 c7, ⟨⟨x1, x2, x3⟩⟩ =>
      match x3, x2, x1 with
      | false, false, false => c0
      | false, false, true => c1
      | false, true, false => c2
      | false, true, true => c3
      | true, false, false => c4
      | true, false, true => c5
      | true, true, false => c6
      | true, true, true => c7
  | _, _ => absent

def ofChildren (f : Octant → Node α) : Node α :=
  internal (f (.ofLinear 0)) (f (.ofLinear 1)) (f (.ofLinear 2)) (f (.ofLinear 3))
    (f (.ofLinear 4)) (f (.ofLinear 5)) (f (.ofLinear 6)) (f (.ofLinear 7))

def setChild (n : Node α) (o : Octant) (c : Node α) : Node α :=
  ofChildren fun other => if other = o then c else n.child other

def isAbsent : Node α → Bool
  | absent => true
  | _ => false

def isLeaf : Node α → Bool
  | leaf _ => true
  | _ => false

def value? : Node α → Option α
  | leaf a => some a
  | _ => none

def fold (onAbsent : β) (onLeaf : Location → α → β) (onInternal : Location → (Octant → β) → β) :
    Node α → Location → β
  | absent, _ => onAbsent
  | leaf a, loc => onLeaf loc a
  | internal c0 c1 c2 c3 c4 c5 c6 c7, loc =>
      onInternal loc fun o =>
        match o with
        | ⟨⟨false, false, false⟩⟩ => c0.fold onAbsent onLeaf onInternal (loc.child o)
        | ⟨⟨true, false, false⟩⟩ => c1.fold onAbsent onLeaf onInternal (loc.child o)
        | ⟨⟨false, true, false⟩⟩ => c2.fold onAbsent onLeaf onInternal (loc.child o)
        | ⟨⟨true, true, false⟩⟩ => c3.fold onAbsent onLeaf onInternal (loc.child o)
        | ⟨⟨false, false, true⟩⟩ => c4.fold onAbsent onLeaf onInternal (loc.child o)
        | ⟨⟨true, false, true⟩⟩ => c5.fold onAbsent onLeaf onInternal (loc.child o)
        | ⟨⟨false, true, true⟩⟩ => c6.fold onAbsent onLeaf onInternal (loc.child o)
        | ⟨⟨true, true, true⟩⟩ => c7.fold onAbsent onLeaf onInternal (loc.child o)

def entries (n : Node α) (loc : Location) : List (Location × α) :=
  n.fold [] (fun loc a => [(loc, a)]) (fun _ below => Octant.all.flatMap below) loc

def along (n : Node α) (path : List Octant) : Node α := path.foldl child n

def size : Node α → Nat
  | absent => 0
  | leaf _ => 1
  | internal c0 c1 c2 c3 c4 c5 c6 c7 =>
      c0.size + c1.size + c2.size + c3.size + c4.size + c5.size + c6.size + c7.size

def count : Node α → Nat
  | absent => 0
  | leaf _ => 1
  | internal c0 c1 c2 c3 c4 c5 c6 c7 =>
      1 + c0.count + c1.count + c2.count + c3.count + c4.count + c5.count + c6.count + c7.count

/-- Whether every node that is there has a leaf below it or is one. -/
def Pruned (n : Node α) : Prop := ∀ path, n.along path ≠ absent → 0 < (n.along path).size

/-- Puts a leaf at the end of a path. Refused if the path meets a leaf or ends at a node. -/
def place (value : α) : List Octant → Node α → Option (Node α)
  | [], n => if n.isAbsent then some (leaf value) else none
  | o :: rest, n =>
      if n.isLeaf then none else (place value rest (n.child o)).map (n.setChild o)

def numberFrom (start : Nat) : Node α → Node Nat
  | absent => absent
  | leaf _ => leaf start
  | internal c0 c1 c2 c3 c4 c5 c6 c7 =>
      let s1 := start + c0.size
      let s2 := s1 + c1.size
      let s3 := s2 + c2.size
      let s4 := s3 + c3.size
      let s5 := s4 + c4.size
      let s6 := s5 + c5.size
      let s7 := s6 + c6.size
      internal (c0.numberFrom start) (c1.numberFrom s1) (c2.numberFrom s2) (c3.numberFrom s3)
        (c4.numberFrom s4) (c5.numberFrom s5) (c6.numberFrom s6) (c7.numberFrom s7)

/-- Whether a node at a place has a child in exactly the octants that meet the domain. -/
def coversDomain (grid : RootGrid) (loc : Location) (n : Node α) : Bool :=
  Octant.all.all fun o =>
    (o.isValidFor grid.dim && grid.contains (loc.child o)) == !(n.child o).isAbsent

def isComplete (grid : RootGrid) : Node α → Location → Bool
  | absent, _ => true
  | leaf _, _ => true
  | internal c0 c1 c2 c3 c4 c5 c6 c7, loc =>
      coversDomain grid loc (internal c0 c1 c2 c3 c4 c5 c6 c7) &&
        c0.isComplete grid (loc.child (.ofLinear 0)) &&
        c1.isComplete grid (loc.child (.ofLinear 1)) &&
        c2.isComplete grid (loc.child (.ofLinear 2)) &&
        c3.isComplete grid (loc.child (.ofLinear 3)) &&
        c4.isComplete grid (loc.child (.ofLinear 4)) &&
        c5.isComplete grid (loc.child (.ofLinear 5)) &&
        c6.isComplete grid (loc.child (.ofLinear 6)) &&
        c7.isComplete grid (loc.child (.ofLinear 7))

/-- The place of the first internal node along a path that does not cover its part of the domain. -/
def gapAlong? (grid : RootGrid) : List Octant → Node α → Location → Option Location
  | _, absent, _ => none
  | _, leaf _, _ => none
  | [], n@(internal ..), loc => if n.coversDomain grid loc then none else some loc
  | o :: rest, n@(internal ..), loc =>
      if n.coversDomain grid loc then gapAlong? grid rest (n.child o) (loc.child o) else some loc

@[simp] theorem child_absent (o : Octant) : (absent : Node α).child o = absent := rfl

@[simp] theorem child_leaf (a : α) (o : Octant) : (leaf a).child o = absent := rfl

@[simp] theorem along_nil (n : Node α) : n.along [] = n := rfl

@[simp] theorem along_cons (n : Node α) (o : Octant) (rest : List Octant) :
    n.along (o :: rest) = (n.child o).along rest := rfl

theorem along_append (n : Node α) (first rest : List Octant) :
    n.along (first ++ rest) = (n.along first).along rest := List.foldl_append ..

@[simp] theorem along_absent (path : List Octant) : (absent : Node α).along path = absent := by
  induction path with
  | nil => rfl
  | cons o rest ih => exact ih

theorem isAbsent_iff {n : Node α} : n.isAbsent = true ↔ n = absent := by
  cases n <;> simp [isAbsent]

@[simp] theorem child_ofChildren (f : Octant → Node α) (o : Octant) :
    (ofChildren f).child o = f o := by
  obtain ⟨⟨a, b, c⟩⟩ := o
  cases a <;> cases b <;> cases c <;> rfl

@[simp] theorem child_setChild (n : Node α) (o other : Octant) (c : Node α) :
    (n.setChild o c).child other = if other = o then c else n.child other := by
  simp [setChild]

theorem ofChildren_child (c0 c1 c2 c3 c4 c5 c6 c7 : Node α) :
    ofChildren (internal c0 c1 c2 c3 c4 c5 c6 c7).child = internal c0 c1 c2 c3 c4 c5 c6 c7 := rfl

theorem inductionOn {motive : Node α → Prop} (n : Node α) (absent : motive absent)
    (leaf : ∀ a, motive (leaf a))
    (internal : ∀ f : Octant → Node α, (∀ o, motive (f o)) → motive (ofChildren f)) :
    motive n := by
  induction n with
  | absent => exact absent
  | leaf a => exact leaf a
  | internal c0 c1 c2 c3 c4 c5 c6 c7 h0 h1 h2 h3 h4 h5 h6 h7 =>
      rw [← ofChildren_child]
      apply internal
      rintro ⟨⟨a, b, c⟩⟩
      cases a <;> cases b <;> cases c <;> assumption

@[simp] theorem entries_absent (loc : Location) : (absent : Node α).entries loc = [] := rfl

@[simp] theorem entries_leaf (a : α) (loc : Location) : (leaf a).entries loc = [(loc, a)] := rfl

theorem entries_ofChildren (f : Octant → Node α) (loc : Location) :
    (ofChildren f).entries loc = Octant.all.flatMap fun o => (f o).entries (loc.child o) := by
  simp only [entries, ofChildren, fold]
  congr 1
  funext ⟨⟨a, b, c⟩⟩
  cases a <;> cases b <;> cases c <;> rfl

theorem mem_entries_ofChildren {f : Octant → Node α} {loc : Location} {e : Location × α} :
    e ∈ (ofChildren f).entries loc ↔ ∃ o, e ∈ (f o).entries (loc.child o) := by
  simp [entries_ofChildren, List.mem_flatMap, Octant.mem_all]

theorem entries_internal (c0 c1 c2 c3 c4 c5 c6 c7 : Node α) (loc : Location) :
    (internal c0 c1 c2 c3 c4 c5 c6 c7).entries loc =
      c0.entries (loc.child (.ofLinear 0)) ++ c1.entries (loc.child (.ofLinear 1)) ++
      c2.entries (loc.child (.ofLinear 2)) ++ c3.entries (loc.child (.ofLinear 3)) ++
      c4.entries (loc.child (.ofLinear 4)) ++ c5.entries (loc.child (.ofLinear 5)) ++
      c6.entries (loc.child (.ofLinear 6)) ++ c7.entries (loc.child (.ofLinear 7)) := by
  rw [← ofChildren_child, entries_ofChildren]
  have listed : Octant.all = [.ofLinear 0, .ofLinear 1, .ofLinear 2, .ofLinear 3, .ofLinear 4,
    .ofLinear 5, .ofLinear 6, .ofLinear 7] := rfl
  rw [listed]
  simp only [List.flatMap_cons, List.flatMap_nil, List.append_nil, List.append_assoc]
  rfl

@[simp] theorem length_entries (n : Node α) (loc : Location) :
    (n.entries loc).length = n.size := by
  induction n generalizing loc with
  | absent => rfl
  | leaf a => rfl
  | internal c0 c1 c2 c3 c4 c5 c6 c7 h0 h1 h2 h3 h4 h5 h6 h7 =>
      simp only [entries_internal, List.length_append, size, h0, h1, h2, h3, h4, h5, h6, h7]

theorem entries_numberFrom (n : Node α) (start : Nat) (loc : Location) :
    (n.numberFrom start).entries loc = ((n.entries loc).map Prod.fst).zipIdx start := by
  induction n generalizing start loc with
  | absent => rfl
  | leaf a => rfl
  | internal c0 c1 c2 c3 c4 c5 c6 c7 h0 h1 h2 h3 h4 h5 h6 h7 =>
      simp only [numberFrom, entries_internal, h0, h1, h2, h3, h4, h5, h6, h7, List.map_append,
        List.zipIdx_append, List.length_append, List.length_map, length_entries, Nat.add_assoc]

theorem isAbsent_child_numberFrom (n : Node α) (start : Nat) (o : Octant) :
    ((n.numberFrom start).child o).isAbsent = (n.child o).isAbsent := by
  have kept : ∀ (m : Node α) (s : Nat), (m.numberFrom s).isAbsent = m.isAbsent := by
    intro m s
    cases m <;> rfl
  cases n with
  | absent => rfl
  | leaf a => rfl
  | internal c0 c1 c2 c3 c4 c5 c6 c7 =>
      obtain ⟨⟨a, b, c⟩⟩ := o
      cases a <;> cases b <;> cases c <;> exact kept _ _

theorem coversDomain_numberFrom (grid : RootGrid) (n : Node α) (start : Nat) (loc : Location) :
    (n.numberFrom start).coversDomain grid loc = n.coversDomain grid loc := by
  simp only [coversDomain, isAbsent_child_numberFrom]

theorem isComplete_numberFrom (grid : RootGrid) (n : Node α) (start : Nat) (loc : Location) :
    (n.numberFrom start).isComplete grid loc = n.isComplete grid loc := by
  induction n generalizing start loc with
  | absent => rfl
  | leaf a => rfl
  | internal c0 c1 c2 c3 c4 c5 c6 c7 h0 h1 h2 h3 h4 h5 h6 h7 =>
      have same := coversDomain_numberFrom grid (internal c0 c1 c2 c3 c4 c5 c6 c7) start loc
      simp only [numberFrom, isComplete, h0, h1, h2, h3, h4, h5, h6, h7] at same ⊢
      rw [same]

/-- Setting a leaf adds no other leaf: every leaf of the result was there before, or is the new one
at the end of the path. -/
theorem mem_entries_of_place {value : α} {path : List Octant} {n result : Node α}
    (placed : place value path n = some result) {loc : Location} {e : Location × α}
    (member : e ∈ result.entries loc) :
    e ∈ n.entries loc ∨ e = (path.foldl Location.child loc, value) := by
  induction path generalizing n result loc with
  | nil =>
      simp only [place] at placed
      split at placed
      · cases placed
        exact .inr (by simpa using member)
      · cases placed
  | cons o rest ih =>
      simp only [place] at placed
      split at placed
      · cases placed
      · obtain ⟨below, placedBelow, rfl⟩ := Option.map_eq_some_iff.1 placed
        obtain ⟨other, memberBelow⟩ := mem_entries_ofChildren.1 member
        split at memberBelow
        · rename_i same
          subst same
          rcases ih placedBelow memberBelow with old | new
          · left
            cases n with
            | absent => simp at old
            | leaf a => simp at old
            | internal c0 c1 c2 c3 c4 c5 c6 c7 =>
                rw [← ofChildren_child]
                exact mem_entries_ofChildren.2 ⟨_, old⟩
          · exact .inr new
        · left
          cases n with
          | absent => simp at memberBelow
          | leaf a => simp at memberBelow
          | internal c0 c1 c2 c3 c4 c5 c6 c7 =>
              rw [← ofChildren_child]
              exact mem_entries_ofChildren.2 ⟨_, memberBelow⟩

theorem size_ofChildren (f : Octant → Node α) :
    (ofChildren f).size = (Octant.all.map fun o => (f o).size).foldr (· + ·) 0 := by
  simp only [ofChildren, size, Octant.all, show List.range 8 = [0, 1, 2, 3, 4, 5, 6, 7] from rfl,
    List.map_cons, List.map_nil, List.foldr_cons, List.foldr_nil]
  omega

theorem size_eq_sum {n : Node α} (leafless : n.isLeaf = false) :
    n.size = (Octant.all.map fun o => (n.child o).size).foldr (· + ·) 0 := by
  cases n with
  | absent => rfl
  | leaf a => cases leafless
  | internal c0 c1 c2 c3 c4 c5 c6 c7 =>
      exact size_ofChildren (internal c0 c1 c2 c3 c4 c5 c6 c7).child

theorem size_setChild {n : Node α} (leafless : n.isLeaf = false) (o : Octant) (c : Node α) :
    (n.setChild o c).size + (n.child o).size = n.size + c.size := by
  have exchanged (octants : List Octant) (distinct : octants.Nodup) (member : o ∈ octants) :
      (octants.map fun other => (if other = o then c else n.child other).size).foldr (· + ·) 0 +
          (n.child o).size =
        (octants.map fun other => (n.child other).size).foldr (· + ·) 0 + c.size := by
    induction octants with
    | nil => cases member
    | cons first rest ih =>
        obtain ⟨fresh, distinctRest⟩ := List.nodup_cons.1 distinct
        simp only [List.map_cons, List.foldr_cons]
        by_cases same : first = o
        · subst same
          have untouched : (rest.map fun other =>
              (if other = first then c else n.child other).size) =
                rest.map fun other => (n.child other).size := by
            apply List.map_congr_left
            intro other inside
            rw [if_neg (fun met => fresh (by rw [← met]; exact inside))]
          rw [if_pos rfl, untouched]
          omega
        · have below := ih distinctRest ((List.mem_cons.1 member).resolve_left (Ne.symm same))
          rw [if_neg same]
          omega
  rw [size_eq_sum leafless, setChild, size_ofChildren]
  exact exchanged Octant.all (by decide) o.mem_all

theorem size_place {value : α} {path : List Octant} {n result : Node α}
    (placed : place value path n = some result) : result.size = n.size + 1 := by
  induction path generalizing n result with
  | nil =>
      simp only [place] at placed
      split at placed
      · rename_i absent
        cases placed
        cases n <;> first | rfl | cases absent
      · cases placed
  | cons o rest ih =>
      simp only [place] at placed
      split at placed
      · cases placed
      · rename_i leafless
        obtain ⟨below, placedBelow, rfl⟩ := Option.map_eq_some_iff.1 placed
        have grown := ih placedBelow
        have total := size_setChild (n := n) (by simpa using leafless) o below
        omega

theorem pruned_absent : (absent : Node α).Pruned := fun path there => by simp at there

theorem pruned_place {value : α} {path : List Octant} {n result : Node α} (pruned : n.Pruned)
    (placed : place value path n = some result) : result.Pruned := by
  induction path generalizing n result with
  | nil =>
      simp only [place] at placed
      split at placed
      · cases placed
        intro way there
        cases way with
        | nil => exact Nat.one_pos
        | cons o rest => simp at there
      · cases placed
  | cons o rest ih =>
      intro way there
      have grown := size_place placed
      simp only [place] at placed
      split at placed
      · cases placed
      · obtain ⟨below, placedBelow, rfl⟩ := Option.map_eq_some_iff.1 placed
        cases way with
        | nil =>
            rw [along_nil, grown]
            exact Nat.succ_pos _
        | cons other later =>
            rw [along_cons, child_setChild] at there ⊢
            split at there
            · rw [if_pos ‹_›]
              exact ih (fun way => pruned (o :: way)) placedBelow later there
            · rw [if_neg ‹_›]
              exact pruned (other :: later) there

@[simp] theorem size_numberFrom (n : Node α) (start : Nat) : (n.numberFrom start).size = n.size := by
  rw [← length_entries _ .root, entries_numberFrom, List.length_zipIdx, List.length_map,
    length_entries]

theorem along_numberFrom (n : Node α) (start : Nat) (path : List Octant) :
    ∃ later, (n.numberFrom start).along path = (n.along path).numberFrom later := by
  induction path generalizing n start with
  | nil => exact ⟨start, rfl⟩
  | cons o rest ih =>
      have below : ∃ later, (n.numberFrom start).child o = (n.child o).numberFrom later := by
        cases n with
        | absent => exact ⟨start, rfl⟩
        | leaf a => exact ⟨start, rfl⟩
        | internal c0 c1 c2 c3 c4 c5 c6 c7 =>
            obtain ⟨⟨a, b, c⟩⟩ := o
            cases a <;> cases b <;> cases c <;> exact ⟨_, rfl⟩
      obtain ⟨later, same⟩ := below
      rw [along_cons, along_cons, same]
      exact ih (n.child o) later

theorem pruned_numberFrom {n : Node α} (pruned : n.Pruned) (start : Nat) :
    (n.numberFrom start).Pruned := by
  intro path there
  obtain ⟨later, same⟩ := along_numberFrom n start path
  rw [same] at there ⊢
  rw [size_numberFrom]
  apply pruned
  intro gone
  rw [gone] at there
  exact there rfl

end Node

structure PlacedNode where
  loc : Location
  node : Node Nat

namespace PlacedNode

def gid? (n : PlacedNode) : Option Nat := n.node.value?

def isLeaf (n : PlacedNode) : Bool := n.node.isLeaf

def child? (n : PlacedNode) (o : Octant) : Option PlacedNode :=
  let below := n.node.child o
  if below.isAbsent then none else some ⟨n.loc.child o, below⟩

def octants (n : PlacedNode) : List Octant :=
  Octant.all.filter fun o => !(n.node.child o).isAbsent

def descend? (n : PlacedNode) (path : List Octant) : Option PlacedNode :=
  path.foldlM child? n

def preorder (n : PlacedNode) : List PlacedNode :=
  go n.node n.loc
where
  go : Node Nat → Location → List PlacedNode
    | .absent, _ => []
    | .leaf gid, loc => [⟨loc, .leaf gid⟩]
    | .internal c0 c1 c2 c3 c4 c5 c6 c7, loc =>
        ⟨loc, .internal c0 c1 c2 c3 c4 c5 c6 c7⟩ ::
          (go c0 (loc.child (.ofLinear 0)) ++ go c1 (loc.child (.ofLinear 1)) ++
            go c2 (loc.child (.ofLinear 2)) ++ go c3 (loc.child (.ofLinear 3)) ++
            go c4 (loc.child (.ofLinear 4)) ++ go c5 (loc.child (.ofLinear 5)) ++
            go c6 (loc.child (.ofLinear 6)) ++ go c7 (loc.child (.ofLinear 7)))

end PlacedNode

end AdaptiveMesh
