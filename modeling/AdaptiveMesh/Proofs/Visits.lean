import AdaptiveMesh.Proofs.Gaps

/-!
# Visits

The leaves of an arena are numbered by a traversal that keeps the nodes still to be visited on a stack.
Visiting a node and all nodes below it takes one step for each of them, numbers the leaves below it in
octant order, and leaves the rest of the stack as it was (`visits_below`). So a traversal from the root
ends after as many steps as there are nodes, and numbers the leaves as the tree lists them.
-/

namespace AdaptiveMesh

set_option autoImplicit false

namespace ArenaNode

def bare (node : ArenaNode) : ArenaNode :=
  match node.kind with
  | .leaf _ => { node with kind := .leaf none }
  | .internal _ => node

@[simp] theorem loc_bare (node : ArenaNode) : node.bare.loc = node.loc := by
  unfold bare
  split <;> rfl

@[simp] theorem parent_bare (node : ArenaNode) : node.bare.parent = node.parent := by
  unfold bare
  split <;> rfl

@[simp] theorem isLeaf_bare (node : ArenaNode) : node.bare.isLeaf = node.isLeaf := by
  cases kind : node.kind <;> simp only [bare, isLeaf, kind]

@[simp] theorem child?_bare (node : ArenaNode) (o : Octant) : node.bare.child? o = node.child? o := by
  cases kind : node.kind <;> simp only [bare, child?, kind]

theorem bare_withGid {node : ArenaNode} (leaf : node.isLeaf = true) (gid : Nat) :
    (node.withGid gid).bare = node.bare := by
  cases kind : node.kind with
  | leaf old => simp only [bare, withGid, kind]
  | internal links =>
      rw [isLeaf, kind] at leaf
      cases leaf

end ArenaNode

namespace Arena

variable {nodes next : Array ArenaNode} {node : ArenaNode} {index gid : Nat} {done : List Octant}
  {n : Node Unit} {arena : Arena} {indices : List Nat}

/-- Whether nodes differ in their gids only. -/
def Kept (nodes next : Array ArenaNode) : Prop := next.map ArenaNode.bare = nodes.map ArenaNode.bare

theorem Kept.refl (nodes : Array ArenaNode) : Kept nodes nodes := rfl

theorem Kept.symm (kept : Kept nodes next) : Kept next nodes := Eq.symm kept

theorem Kept.exists_node (kept : Kept nodes next) (here : nodes[index]? = some node) :
    ∃ later, next[index]? = some later ∧ later.bare = node.bare := by
  have same := congrArg (fun all : Array ArenaNode => all[index]?) kept
  simp only [Array.getElem?_map, here] at same
  exact Option.map_eq_some_iff.1 same

def leafAt? (nodes : Array ArenaNode) (index : Nat) : Option Location :=
  (nodes[index]?.filter ArenaNode.isLeaf).map ArenaNode.loc

theorem leafAt?_eq_some_iff {loc : Location} : leafAt? nodes index = some loc ↔
    ∃ node, nodes[index]? = some node ∧ node.isLeaf = true ∧ node.loc = loc := by
  simp [leafAt?, Option.filter_eq_some_iff, and_assoc]

theorem Kept.leafAt?_eq (kept : Kept nodes next) (index : Nat) :
    leafAt? next index = leafAt? nodes index := by
  have within {before after : Array ArenaNode} (same : Kept before after) {loc : Location}
      (found : leafAt? before index = some loc) : leafAt? after index = some loc := by
    obtain ⟨node, here, leaf, placed⟩ := leafAt?_eq_some_iff.1 found
    obtain ⟨later, there, bare⟩ := same.exists_node here
    refine leafAt?_eq_some_iff.2 ⟨later, there, ?_, ?_⟩
    · rw [← later.isLeaf_bare, bare, node.isLeaf_bare, leaf]
    · rw [← later.loc_bare, bare, node.loc_bare, placed]
  apply Option.ext
  intro loc
  exact ⟨within kept.symm, within kept⟩

theorem Kept.outline_eq (kept : Kept nodes next) : outline next = outline nodes := by
  have same := congrArg outline kept
  simpa [outline, Function.comp_def] using same

theorem Kept.size_eq (kept : Kept nodes next) : next.size = nodes.size := by
  have same := congrArg Array.size kept
  simpa using same

theorem Kept.linked (kept : Kept nodes next) (linked : Linked nodes) : Linked next := by
  have carried {before after : Array ArenaNode} (same : Kept before after) {index : Nat}
      {node : ArenaNode} (here : before[index]? = some node) :
      ∃ later, after[index]? = some later ∧ later.loc = node.loc ∧ later.parent = node.parent ∧
        ∀ o, later.child? o = node.child? o := by
    obtain ⟨later, there, bare⟩ := same.exists_node here
    refine ⟨later, there, ?_, ?_, fun o => ?_⟩
    · rw [← later.loc_bare, bare, node.loc_bare]
    · rw [← later.parent_bare, bare, node.parent_bare]
    · rw [← later.child?_bare, bare, node.child?_bare]
  constructor
  case root =>
    obtain ⟨root, here, top, alone⟩ := linked.root
    obtain ⟨later, there, loc, parent, _⟩ := carried kept here
    exact ⟨later, there, loc.trans top, parent.trans alone⟩
  case parent =>
    intro index node there apart
    obtain ⟨was, here, loc, parent, _⟩ := carried kept.symm there
    obtain ⟨above, up, o, named, earlier, met, below, under⟩ := linked.parent index was here apart
    obtain ⟨upper, now, place, _, children⟩ := carried kept met
    exact ⟨above, upper, o, parent.symm.trans named, earlier, now, (children o).trans below,
      by rw [← loc, under, place]⟩
  case child =>
    intro above up o index there below
    obtain ⟨was, here, loc, _, children⟩ := carried kept.symm there
    obtain ⟨node, met, named, under⟩ := linked.child above was o index here ((children o).trans below)
    obtain ⟨later, now, place, parent, _⟩ := carried kept met
    exact ⟨later, now, parent.trans named, by rw [place, under, loc]⟩

theorem isSome_of_listed {places : List Location}
    (listed : indices.map (leafAt? nodes) = places.map some) :
    ∀ index ∈ indices, (leafAt? nodes index).isSome = true := by
  intro index member
  have among := List.mem_map_of_mem (f := leafAt? nodes) member
  rw [listed] at among
  obtain ⟨loc, _, same⟩ := List.mem_map.1 among
  rw [← same]
  rfl

theorem Kept.numberLeaf (kept : Kept nodes arena.nodes) (leaf : (leafAt? nodes index).isSome = true) :
    Kept nodes (arena.numberLeaf index).nodes := by
  obtain ⟨loc, found⟩ := Option.isSome_iff_exists.1 leaf
  rw [← kept.leafAt?_eq] at found
  obtain ⟨node, here, kind, _⟩ := leafAt?_eq_some_iff.1 found
  refine Eq.trans ?_ kept
  apply Array.ext_getElem?
  intro position
  rw [Arena.numberLeaf, Array.getElem?_map, Array.getElem?_map, Array.getElem?_modify]
  by_cases same : index = position
  · rw [if_pos same, ← same, here, Option.map_some, Option.map_some, Option.map_some,
      ArenaNode.bare_withGid kind]
  · rw [if_neg same]

theorem Kept.foldl_numberLeaf (kept : Kept nodes arena.nodes)
    (leaves : ∀ index ∈ indices, (leafAt? nodes index).isSome = true) :
    Kept nodes (indices.foldl Arena.numberLeaf arena).nodes := by
  induction indices generalizing arena with
  | nil => exact kept
  | cons first rest ih =>
      exact ih (kept.numberLeaf (leaves first List.mem_cons_self))
        fun index member => leaves index (List.mem_cons_of_mem first member)

theorem grid_foldl_numberLeaf (indices : List Nat) (arena : Arena) :
    (indices.foldl numberLeaf arena).grid = arena.grid := by
  induction indices generalizing arena with
  | nil => rfl
  | cons first rest ih => rw [List.foldl_cons, ih, numberLeaf]

theorem leaves_foldl_numberLeaf (indices : List Nat) (arena : Arena) :
    (indices.foldl numberLeaf arena).leaves.toList = arena.leaves.toList ++ indices := by
  induction indices generalizing arena with
  | nil => rw [List.foldl_nil, List.append_nil]
  | cons first rest ih =>
      rw [List.foldl_cons, ih, numberLeaf, Array.toList_push, List.append_assoc]
      rfl

theorem getElem?_foldl_of_not_mem (outside : index ∉ indices) :
    (indices.foldl numberLeaf arena).nodes[index]? = arena.nodes[index]? := by
  induction indices generalizing arena with
  | nil => rfl
  | cons first rest ih =>
      rw [List.mem_cons, not_or] at outside
      obtain ⟨apart, later⟩ := outside
      rw [List.foldl_cons, ih later, numberLeaf, Array.getElem?_modify, if_neg (Ne.symm apart)]

theorem getElem?_foldl_numberLeaf (distinct : indices.Nodup) (turn : indices[gid]? = some index) :
    (indices.foldl numberLeaf arena).nodes[index]? =
      arena.nodes[index]?.map fun node => node.withGid (arena.leaves.size + gid) := by
  induction indices generalizing arena gid with
  | nil => cases turn
  | cons first rest ih =>
      obtain ⟨fresh, distinctRest⟩ := List.nodup_cons.1 distinct
      rw [List.foldl_cons]
      cases gid with
      | zero =>
          cases turn
          rw [getElem?_foldl_of_not_mem fresh, numberLeaf, Array.getElem?_modify, if_pos rfl]
          rfl
      | succ gid =>
          have apart : first ≠ index := by
            intro same
            exact fresh (same ▸ List.mem_of_getElem? turn)
          rw [ih distinctRest turn, numberLeaf, Array.getElem?_modify, if_neg apart, Array.size_push,
            Nat.add_assoc, Nat.add_comm 1]

/-- Whether the nodes on top of a stack are visited in a number of steps, in which the leaves at the
given places are numbered in turn. -/
def Visits (nodes : Array ArenaNode) (steps : Nat) (top : List Nat) (places : List Location) : Prop :=
  ∃ indices : List Nat, indices.map (leafAt? nodes) = places.map some ∧
    ∀ (arena : Arena) (more : Nat) (stack : List Nat), Kept nodes arena.nodes →
      number (steps + more) (top ++ stack) arena = number more stack (indices.foldl numberLeaf arena)

namespace Visits

variable {steps later : Nat} {top under : List Nat} {places others : List Location}

theorem nil (nodes : Array ArenaNode) : Visits nodes 0 [] [] := by
  refine ⟨[], rfl, ?_⟩
  intro arena more stack _
  rw [Nat.zero_add]
  rfl

theorem append (first : Visits nodes steps top places) (second : Visits nodes later under others) :
    Visits nodes (steps + later) (top ++ under) (places ++ others) := by
  obtain ⟨indices, listed, visit⟩ := first
  obtain ⟨further, listedLater, visitLater⟩ := second
  refine ⟨indices ++ further, ?_, ?_⟩
  · rw [List.map_append, List.map_append, listed, listedLater]
  · intro arena more stack kept
    rw [Nat.add_assoc, List.append_assoc, visit arena _ _ kept,
      visitLater _ more stack (kept.foldl_numberLeaf (isSome_of_listed listed)), List.foldl_append]

theorem leaf (here : nodes[index]? = some node) (kind : node.isLeaf = true) :
    Visits nodes 1 [index] [node.loc] := by
  refine ⟨[index], ?_, ?_⟩
  · rw [List.map_singleton, leafAt?_eq_some_iff.2 ⟨node, here, kind, rfl⟩]
    rfl
  · intro arena more stack kept
    obtain ⟨now, there, bare⟩ := kept.exists_node here
    have still : now.isLeaf = true := by rw [← now.isLeaf_bare, bare, node.isLeaf_bare, kind]
    rw [Nat.add_comm 1]
    unfold ArenaNode.isLeaf at still
    split at still
    · rename_i same
      simp only [List.cons_append, List.nil_append, number, there, same, List.foldl_cons,
        List.foldl_nil]
    · cases still

theorem internal {links : Links} (here : nodes[index]? = some node)
    (kind : node.kind = .internal links) (below : Visits nodes steps links.present places) :
    Visits nodes (1 + steps) [index] places := by
  obtain ⟨indices, listed, visit⟩ := below
  refine ⟨indices, listed, ?_⟩
  intro arena more stack kept
  obtain ⟨now, there, bare⟩ := kept.exists_node here
  have same : now.kind = .internal links := by
    have whole : node.bare = node := by simp only [ArenaNode.bare, kind]
    rw [whole] at bare
    unfold ArenaNode.bare at bare
    split at bare
    · rw [← bare] at kind
      cases kind
    · rw [bare, kind]
  rw [← visit arena more stack kept, Nat.add_assoc, Nat.add_comm 1]
  simp only [List.cons_append, List.nil_append, number, there, same]

end Visits

/-- Visiting a node takes a step for every node from there down, and numbers the leaves below it in
octant order. -/
theorem visits_below (linked : Linked nodes) (holds : Holds nodes done n)
    (here : nodes[index]? = some node) (placed : node.loc = Location.ofPath done) :
    Visits nodes n.count [index] ((n.entries (Location.ofPath done)).map Prod.fst) := by
  induction n using Node.inductionOn generalizing index node done with
  | absent =>
      have shape := holds.shape linked here placed
      cases shape
  | leaf value =>
      have kind : node.isLeaf = true := (Option.some.inj (holds.shape linked here placed)).symm
      rw [Node.entries_leaf, List.map_singleton, ← placed]
      exact .leaf here kind
  | internal f ih =>
      have internal : node.isLeaf = false := (Option.some.inj (holds.shape linked here placed)).symm
      obtain ⟨links, kind, children⟩ := ArenaNode.exists_links internal
      -- the children are visited one after another
      have visits (octants : List Octant) : Visits nodes (octants.map fun o => (f o).count).sum
          (octants.filterMap links.at?) ((octants.flatMap fun o =>
            (f o).entries ((Location.ofPath done).child o)).map Prod.fst) := by
        induction octants with
        | nil => exact .nil nodes
        | cons o rest ihRest =>
            have inside := holds.child o
            rw [Node.child_ofChildren] at inside
            cases below : links.at? o with
            | none =>
                have present := holds.child?_isSome linked here placed o
                rw [children, below, Node.child_ofChildren] at present
                have gone : f o = .absent := by
                  rw [← Node.isAbsent_iff]
                  simpa using present
                rw [List.filterMap_cons_none below, List.map_cons, List.sum_cons, List.flatMap_cons, gone,
                  Node.count, Nat.zero_add, Node.entries_absent, List.nil_append]
                exact ihRest
            | some child =>
                obtain ⟨childNode, there, under⟩ :=
                  (linked.child?_iff here).1 ((children o).trans below)
                rw [placed, ← Location.ofPath_append_singleton] at under
                have first := ih o inside there under
                rw [Location.ofPath_append_singleton] at first
                rw [List.filterMap_cons_some below, List.map_cons, List.sum_cons, List.flatMap_cons,
                  List.map_append]
                exact first.append ihRest
      rw [Node.count_ofChildren, Node.entries_ofChildren]
      exact .internal here kind (visits Octant.all)

end Arena

end AdaptiveMesh
