import Mathlib.Algebra.BigOperators.Group.List.Basic
import AdaptiveMesh.Proofs.Links
import AdaptiveMesh.Proofs.Outcome

/-!
# Layouts

Adding a leaf to an arena does what adding it to a tree does, step by step along the leaf's path: both
refuse the leaf, or both have the same nodes afterwards. So an arena holds the nodes of the tree at every
moment, except that it starts with a root while the tree starts with nothing.
-/

namespace AdaptiveMesh

set_option autoImplicit false

namespace Node

variable {α : Type} {n : Node α} {value : α} {path : List Octant}

def shape? : Node α → Option Bool
  | absent => none
  | leaf _ => some true
  | internal .. => some false

@[simp] theorem shape?_absent : (absent : Node α).shape? = none := rfl

@[simp] theorem shape?_ofChildren (f : Octant → Node α) : (ofChildren f).shape? = some false := rfl

theorem shape?_eq_none_iff : n.shape? = none ↔ n = absent := by
  cases n <;> simp [shape?]

theorem exists_children_of_shape (internal : n.shape? = some false) : ∃ f, n = ofChildren f := by
  cases n.absent_or_leaf_or_children with
  | inl gone =>
      rw [gone] at internal
      cases internal
  | inr there =>
      cases there with
      | inl leaf =>
          obtain ⟨a, same⟩ := leaf
          rw [same] at internal
          cases internal
      | inr children => exact children

def childless : Node α := ofChildren fun _ => absent

def rooted : Node α → Node α
  | absent => childless
  | n => n

theorem rooted_of_ne_absent (there : n ≠ absent) : n.rooted = n := by
  cases n with
  | absent => exact absurd rfl there
  | leaf a => rfl
  | internal => rfl

theorem along_childless (o : Octant) (rest : List Octant) :
    (childless : Node α).along (o :: rest) = absent := by
  rw [along_cons, childless, child_ofChildren, along_absent]

theorem place_childless (deep : path ≠ []) : place value path childless = place value path absent := by
  cases path with
  | nil => exact absurd rfl deep
  | cons o rest =>
      have kinds : (childless : Node α).isLeaf = (absent : Node α).isLeaf := rfl
      have children : (childless : Node α).child o = (absent : Node α).child o := by
        rw [childless, child_ofChildren, child_absent]
      simp only [place, kinds, children]
      congr 1

theorem place_rooted (deep : path ≠ []) : place value path n.rooted = place value path n := by
  cases n with
  | absent => exact place_childless deep
  | leaf a => rfl
  | internal => rfl

theorem ne_absent_of_place {m : Node α} (placed : place value path n = some m) : m ≠ absent := by
  intro gone
  have grown := size_place placed
  rw [gone] at grown
  cases grown

theorem count_ofChildren (f : Octant → Node α) :
    (ofChildren f).count = 1 + (Octant.all.map fun o => (f o).count).sum := by
  simp only [ofChildren, count, Octant.all, show List.range 8 = [0, 1, 2, 3, 4, 5, 6, 7] from rfl,
    List.map_cons, List.map_nil, List.sum_cons, List.sum_nil]
  omega

theorem count_setChild (f : Octant → Node α) (o : Octant) (c : Node α) :
    ((ofChildren f).setChild o c).count + (f o).count = (ofChildren f).count + c.count := by
  have rest : (Octant.all.erase o).map (fun other => (if other = o then c else f other).count) =
      (Octant.all.erase o).map fun other => (f other).count := by
    apply List.map_congr_left
    intro other member
    have distinct : Octant.all.Nodup := by decide
    rw [if_neg (distinct.mem_erase_iff.1 member).1]
  have before := List.sum_map_erase (fun other => (f other).count) o.mem_all
  have after := List.sum_map_erase (fun other => (if other = o then c else f other).count) o.mem_all
  rw [rest, if_pos rfl] at after
  simp only [setChild, child_ofChildren, count_ofChildren]
  omega

end Node

namespace Arena

variable {nodes middle next : Array ArenaNode} {node up : ArenaNode} {index : Nat} {o : Octant}
  {loc : Location} {done path way : List Octant} {n m k : Node Unit}

/-- Whether the nodes from a path down are those of a tree node. -/
def Holds (nodes : Array ArenaNode) (done : List Octant) (n : Node Unit) : Prop :=
  ∀ way, shapeAt nodes (done ++ way) = (n.along way).shape?

theorem Holds.child (holds : Holds nodes done n) (o : Octant) : Holds nodes (done ++ [o]) (n.child o) := by
  intro way
  rw [List.append_assoc]
  exact holds (o :: way)

/-- How nodes change when a tree node at a path changes. -/
structure Extends (nodes next : Array ArenaNode) (done : List Octant) (n m : Node Unit) : Prop where
  linked : Linked next
  holds : Holds next done m
  apart : ∀ way, ¬done <+: way → shapeAt next way = shapeAt nodes way
  size : next.size + n.count = nodes.size + m.count

theorem Extends.trans (first : Extends nodes middle done n m) (second : Extends middle next done m k) :
    Extends nodes next done n k where
  linked := second.linked
  holds := second.holds
  apart := fun way beside => (second.apart way beside).trans (first.apart way beside)
  size := by
    have earlier := first.size
    have later := second.size
    omega

theorem Extends.above {f : Octant → Node Unit} (holds : Holds nodes done (.ofChildren f))
    (below : Extends nodes next (done ++ [o]) (f o) m) :
    Extends nodes next done (.ofChildren f) ((Node.ofChildren f).setChild o m) := by
  have beside {way : List Octant} (other : ¬done ++ [o] <+: way) :
      shapeAt next way = shapeAt nodes way := below.apart way other
  constructor
  case linked => exact below.linked
  case holds =>
    intro way
    cases way with
    | nil =>
        have shorter : ¬done ++ [o] <+: done ++ [] := by
          intro longer
          have length := longer.length_le
          simp at length
        rw [beside shorter, holds []]
        rfl
    | cons other rest =>
        rw [Node.along_cons, Node.child_setChild]
        by_cases same : other = o
        · rw [if_pos same, same]
          have inside := below.holds rest
          rwa [List.append_assoc] at inside
        · have apart : ¬done ++ [o] <+: done ++ other :: rest := by
            rw [List.prefix_append_right_inj]
            intro within
            exact same (List.cons_prefix_cons.1 within).1.symm
          rw [if_neg same, beside apart, holds (other :: rest), Node.along_cons, Node.child_ofChildren]
  case apart =>
    intro way other
    apply beside
    intro within
    exact other ((List.prefix_append done [o]).trans within)
  case size =>
    have counts := Node.count_setChild f o m
    have sizes := below.size
    omega

theorem shapeAt_addChild {above : Nat} {fresh : ArenaNode} (placed : fresh.loc = Location.ofPath path)
    (vacant : shapeAt nodes path = none) (way : List Octant) :
    shapeAt (addChild nodes above o fresh) way =
      if way = path then some fresh.isLeaf else shapeAt nodes way := by
  rw [shapeAt, outline_addChild, List.lookup_append, placed]
  by_cases same : way = path
  · have missed : (outline nodes).lookup (Location.ofPath path) = none := vacant
    rw [if_pos same, same, missed]
    simp
  · have apart : (Location.ofPath way == Location.ofPath path) = false := by
      rw [beq_eq_false_iff_ne]
      intro equal
      apply same
      rw [← Location.path_ofPath way, equal, Location.path_ofPath]
    rw [if_neg same, List.lookup_cons, apart, List.lookup_nil, Option.or_none]
    rfl

theorem extends_addChild (linked : Linked nodes) (here : nodes[index]? = some up)
    (internal : up.isLeaf = false) (placed : up.loc = Location.ofPath done)
    (vacant : Holds nodes (done ++ [o]) .absent) (kind : ArenaKind)
    (childless : ∀ o, (⟨up.loc.child o, some index, kind⟩ : ArenaNode).child? o = none)
    (shape : m.shape? = some (⟨up.loc.child o, some index, kind⟩ : ArenaNode).isLeaf)
    (alone : ∀ o rest, m.along (o :: rest) = .absent) (one : m.count = 1) :
    Extends nodes (addChild nodes index o ⟨up.loc.child o, some index, kind⟩) (done ++ [o])
      .absent m := by
  have nowhere : shapeAt nodes (done ++ [o]) = none := by
    have shape := vacant []
    rwa [List.append_nil] at shape
  have free : up.child? o = none := by
    rw [← Option.not_isSome_iff_eq_none, linked.child?_isSome_iff here placed, nowhere]
    simp
  have under : up.loc.child o = Location.ofPath (done ++ [o]) := by
    rw [placed, Location.ofPath_append_singleton]
  have shapes : ∀ way, shapeAt (addChild nodes index o ⟨up.loc.child o, some index, kind⟩) way = _ :=
    shapeAt_addChild under nowhere
  constructor
  case linked => exact linked_addChild here internal linked free rfl rfl childless
  case holds =>
    intro way
    rw [shapes]
    cases way with
    | nil => rw [List.append_nil, if_pos rfl, Node.along_nil, shape]
    | cons other rest =>
        have longer : done ++ [o] ++ other :: rest ≠ done ++ [o] := by simp
        rw [if_neg longer, vacant (other :: rest), alone, Node.along_absent]
  case apart =>
    intro way beside
    rw [shapes, if_neg]
    intro same
    rw [same] at beside
    exact beside (List.prefix_refl _)
  case size =>
    rw [addChild, Array.size_modify, Array.size_push, one]
    rfl

/-- Whether a leaf is refused both by a tree node and by the nodes of an arena, or added to both. -/
inductive Alike (loc : Location) (nodes : Array ArenaNode) (done : List Octant) (n : Node Unit) :
    Option (Node Unit) → Except ArenaError (Array ArenaNode) → Prop where
  | refused : Alike loc nodes done n none (.error (.tree (.overlap loc)))
  | added {m : Node Unit} {next : Array ArenaNode} (grown : Extends nodes next done n m) :
      Alike loc nodes done n (some m) (.ok next)

namespace Alike

variable {result : Option (Node Unit)} {run : Except ArenaError (Array ArenaNode)}

theorem above {f : Octant → Node Unit} (holds : Holds nodes done (.ofChildren f))
    (below : Alike loc nodes (done ++ [o]) (f o) result run) :
    Alike loc nodes done (.ofChildren f) (result.map ((Node.ofChildren f).setChild o)) run := by
  cases below with
  | refused => exact .refused
  | added grown => exact .added (grown.above holds)

theorem after (first : Extends nodes middle done n m) (later : Alike loc middle done m result run) :
    Alike loc nodes done n result run := by
  cases later with
  | refused => exact .refused
  | added grown => exact .added (first.trans grown)

end Alike

theorem Holds.shape (holds : Holds nodes done n) (linked : Linked nodes)
    (here : nodes[index]? = some node) (placed : node.loc = Location.ofPath done) :
    n.shape? = some node.isLeaf := by
  have known := holds []
  rw [List.append_nil, linked.shapeAt_iff.2 ⟨index, node, here, placed, rfl⟩] at known
  exact known.symm

theorem Holds.child?_isSome (holds : Holds nodes done n) (linked : Linked nodes)
    (here : nodes[index]? = some node) (placed : node.loc = Location.ofPath done) (o : Octant) :
    (node.child? o).isSome = !(n.child o).isAbsent := by
  have below := holds [o]
  rw [Node.along_cons, Node.along_nil] at below
  rw [linked.child?_isSome_iff here placed, below]
  cases n.child o <;> rfl

/-- Adding a leaf below a node does the same to the nodes as to the tree. -/
theorem alike_placeBelow (linked : Linked nodes) (here : nodes[index]? = some node)
    (placed : node.loc = Location.ofPath done) (holds : Holds nodes done n) (deep : path ≠ []) :
    Alike loc nodes done n (Node.place () path n) (placeBelow loc path index nodes) := by
  induction path generalizing nodes index node done n with
  | nil => exact absurd rfl deep
  | cons o rest ih =>
      have shape := holds.shape linked here placed
      cases kind : node.kind with
      | leaf gid =>
          have leaf : n.isLeaf = true := by
            rw [ArenaNode.isLeaf, kind] at shape
            cases n <;> first | rfl | cases shape
          simp only [Node.place, leaf, if_true, placeBelow, here, kind]
          exact .refused
      | internal links =>
          have internal : node.isLeaf = false := by rw [ArenaNode.isLeaf, kind]
          rw [internal] at shape
          obtain ⟨f, same⟩ := Node.exists_children_of_shape shape
          subst same
          have present := holds.child?_isSome linked here placed o
          have inside := holds.child o
          rw [Node.child_ofChildren] at present inside
          have under : node.loc.child o = Location.ofPath (done ++ [o]) := by
            rw [placed, Location.ofPath_append_singleton]
          have children : node.child? o = links.at? o := by rw [ArenaNode.child?, kind]
          simp only [Node.place, Node.isLeaf_ofChildren, Bool.false_eq_true, if_false,
            Node.child_ofChildren, placeBelow, here, kind]
          apply Alike.above holds
          cases child : links.at? o with
          | some below =>
              cases rest with
              | nil =>
                  -- the path ends at a node that is there
                  have there : (f o).isAbsent = false := by
                    rw [children, child] at present
                    simpa using present
                  simp only [Node.place, there, Bool.false_eq_true, if_false, List.isEmpty_nil, if_true]
                  exact .refused
              | cons other later =>
                  obtain ⟨next, found, childPlace⟩ :=
                    (linked.child?_iff here).1 (children.trans child)
                  exact ih linked found (childPlace.trans under) inside (List.cons_ne_nil _ _)
          | none =>
              have gone : f o = .absent := by
                rw [← Node.isAbsent_iff]
                rw [children, child] at present
                simpa using present
              rw [gone] at inside ⊢
              cases rest with
              | nil =>
                  exact .added (extends_addChild linked here internal placed inside (.leaf none)
                    (fun _ => rfl) rfl (fun o rest => Node.along_leaf_cons () o rest) rfl)
              | cons other later =>
                  have grown := extends_addChild linked here internal placed inside (.internal .empty)
                    Links.at?_empty rfl Node.along_childless rfl
                  have bound := (Array.getElem?_eq_some_iff.1 here).1
                  have last : (addChild nodes index o
                      ⟨node.loc.child o, some index, .internal .empty⟩)[nodes.size]? =
                        some ⟨node.loc.child o, some index, .internal .empty⟩ := by
                    rw [getElem?_addChild bound, if_pos rfl]
                  rw [← Node.place_childless (List.cons_ne_nil _ _)]
                  exact .after grown
                    (ih grown.linked last under grown.holds (List.cons_ne_nil _ _))

/-- Whether linked nodes are those of a tree that is being built. -/
structure Stands (nodes : Array ArenaNode) (placed : Node Unit) : Prop where
  linked : Linked nodes
  holds : Holds nodes [] placed.rooted
  size : nodes.size = placed.rooted.count

theorem stands_single {kind : ArenaKind}
    (childless : ∀ o, (⟨.root, none, kind⟩ : ArenaNode).child? o = none)
    (shape : n.rooted.shape? = some (⟨.root, none, kind⟩ : ArenaNode).isLeaf)
    (alone : ∀ o rest, n.rooted.along (o :: rest) = .absent) (one : n.rooted.count = 1) :
    Stands #[⟨.root, none, kind⟩] n where
  linked := linked_single childless
  holds := by
    intro way
    cases way with
    | nil => exact shape.symm
    | cons o rest =>
        rw [alone, List.nil_append, Node.shape?_absent, (linked_single childless).shapeAt_eq_none_iff]
        intro index node here placed
        rw [(eq_of_single here).2] at placed
        have level := congrArg Location.level placed
        rw [Location.level_ofPath] at level
        cases level
  size := one.symm

theorem stands_vacant : Stands vacant .absent :=
  stands_single Links.at?_empty rfl Node.along_childless rfl

/-- Whether a step of an arena fails as the step of a tree does, or both succeed with related results. -/
inductive Agree {α β : Type} (related : α → β → Prop) : Except TreeError α → Except ArenaError β → Prop
  where
  | refused (error : TreeError) : Agree related (.error error) (.error (.tree error))
  | made {a : α} {b : β} (kept : related a b) : Agree related (.ok a) (.ok b)

namespace Agree

variable {α β : Type} {related other : α → β → Prop} {first : Except TreeError α}
  {run : Except ArenaError β} {error : TreeError} {a : α}

theorem eq_of_error (agree : Agree related (.error error) run) : run = .error (.tree error) := by
  cases agree
  rfl

theorem exists_of_ok (agree : Agree related (.ok a) run) : ∃ b, run = .ok b ∧ related a b := by
  cases agree with
  | made kept => exact ⟨_, rfl, kept⟩

theorem imp (agree : Agree related first run)
    (implied : ∀ a b, first = .ok a → related a b → other a b) : Agree other first run := by
  cases agree with
  | refused error => exact .refused error
  | made kept => exact .made (implied _ _ rfl kept)

end Agree

section

variable {placed : Node Unit} (stands : Stands nodes placed)

include stands

/-- The root has no children exactly as long as no leaf has been added. -/
theorem isEmpty_present_iff (pruned : placed.Pruned) (here : nodes[0]? = some node)
    (top : node.loc = .root) {links : Links} (kind : node.kind = .internal links) :
    links.present.isEmpty = true ↔ placed = .absent := by
  have children (o : Octant) : (links.at? o).isSome = !(placed.rooted.child o).isAbsent := by
    rw [← stands.holds.child?_isSome stands.linked here top o, ArenaNode.child?, kind]
  rw [List.isEmpty_iff, Links.present, List.filterMap_eq_nil_iff]
  constructor
  · intro empty
    by_contra there
    rw [Node.rooted_of_ne_absent there] at children
    have shape := stands.holds.shape stands.linked here top
    rw [Node.rooted_of_ne_absent there, ArenaNode.isLeaf, kind] at shape
    obtain ⟨path, value, ends⟩ := Node.exists_leaf_of_ne_absent pruned there
    cases path with
    | nil =>
        rw [Node.along_nil] at ends
        rw [ends] at shape
        cases shape
    | cons o rest =>
        have missing := children o
        rw [empty o o.mem_all, Option.isSome_none, eq_comm, Bool.not_eq_false', Node.isAbsent_iff]
          at missing
        rw [Node.along_cons, missing, Node.along_absent] at ends
        cases ends
  · intro gone o _
    have missing := children o
    rw [gone, Node.rooted, Node.childless, Node.child_ofChildren] at missing
    simpa [Node.isAbsent] using missing

theorem agree_placeRoot (pruned : placed.Pruned) (loc : Location) :
    Agree (fun next nodes => Stands nodes next)
      (match Node.place () [] placed with
        | some next => .ok next
        | none => .error (.overlap loc))
      (placeRoot loc nodes) := by
  obtain ⟨root, here, top, alone⟩ := stands.linked.root
  have shape := stands.holds.shape stands.linked here top
  cases kind : root.kind with
  | leaf gid =>
      have there : placed.isAbsent = false := by
        rw [ArenaNode.isLeaf, kind] at shape
        cases gone : placed <;> first | rfl | (rw [gone] at shape; cases shape)
      simp only [Node.place, there, Bool.false_eq_true, if_false, placeRoot, here, kind]
      exact .refused _
  | internal links =>
      have empty_iff := isEmpty_present_iff stands pruned here top kind
      by_cases gone : placed = .absent
      · have one := stands.size
        rw [gone] at one
        obtain ⟨only, single⟩ := Array.size_eq_one_iff.1 one
        rw [single] at here
        cases (eq_of_single here).2
        have made : nodes.modify 0 (fun root => { root with kind := .leaf none }) =
            #[⟨.root, none, .leaf none⟩] := by
          rw [single, ← top, ← alone]
          rfl
        rw [single] at made
        simp only [gone, Node.place, Node.isAbsent, if_true, placeRoot, single, here, kind,
          empty_iff.2 gone, made]
        exact .made (stands_single (fun _ => rfl) rfl (fun o rest => Node.along_leaf_cons () o rest) rfl)
      · have there : placed.isAbsent = false := by
          rw [← Bool.not_eq_true, Node.isAbsent_iff]
          exact gone
        simp only [Node.place, there, Bool.false_eq_true, if_false, placeRoot, here, kind,
          mt empty_iff.1 gone]
        exact .refused _

theorem agree_placeLeaf (pruned : placed.Pruned) (grid : RootGrid) (loc : Location) :
    Agree (fun next nodes => Stands nodes next) (BlockTree.placeLeaf grid placed loc)
      (placeLeaf grid nodes loc) := by
  unfold BlockTree.placeLeaf placeLeaf
  by_cases high : loc.level < grid.rootLevel
  · rw [if_pos high, if_pos high]
    exact .refused _
  · rw [if_neg high, if_neg high]
    by_cases outside : (!grid.contains loc) = true
    · rw [if_pos outside, if_pos outside]
      exact .refused _
    · rw [if_neg outside, if_neg outside]
      by_cases top : loc.level = 0
      · have short : loc.path = [] := by
          rw [← List.length_eq_zero_iff, Location.length_path]
          exact top
        rw [if_pos top, short]
        exact agree_placeRoot stands pruned loc
      · have deep : loc.path ≠ [] := by
          rw [← List.length_pos_iff, Location.length_path]
          omega
        obtain ⟨root, here, placedRoot, _⟩ := stands.linked.root
        have alike : Alike loc nodes [] placed.rooted _ _ :=
          alike_placeBelow stands.linked here placedRoot stands.holds deep
        rw [Node.place_rooted deep] at alike
        rw [if_neg top]
        generalize placeBelow loc loc.path 0 nodes = run at alike
        cases made : Node.place () loc.path placed with
        | none =>
            rw [made] at alike
            cases alike
            exact .refused _
        | some next =>
            rw [made] at alike
            have there := Node.ne_absent_of_place made
            cases alike with
            | added grown =>
                have sizes := grown.size
                have before := stands.size
                refine .made ⟨grown.linked, ?_, ?_⟩
                · rw [Node.rooted_of_ne_absent there]
                  exact grown.holds
                · rw [Node.rooted_of_ne_absent there]
                  omega

end

theorem agree_placeLeaves (grid : RootGrid) (leaves : List Location) :
    Agree (fun placed nodes => Stands nodes placed) (BlockTree.placeLeaves grid leaves)
      (placeLeaves grid leaves) := by
  have steps (rest : List Location) (placed : Node Unit) (nodes : Array ArenaNode)
      (stands : Stands nodes placed) (pruned : placed.Pruned) :
      Agree (fun next after => Stands after next) (rest.foldlM (BlockTree.placeLeaf grid) placed)
        (rest.foldlM (placeLeaf grid) nodes) := by
    induction rest generalizing placed nodes with
    | nil => exact .made stands
    | cons loc rest ih =>
        rw [List.foldlM_cons, List.foldlM_cons]
        have step := agree_placeLeaf stands pruned grid loc
        cases made : BlockTree.placeLeaf grid placed loc with
        | error e =>
            rw [made] at step
            rw [step.eq_of_error]
            exact .refused e
        | ok next =>
            rw [made] at step
            obtain ⟨after, added, kept⟩ := step.exists_of_ok
            rw [added]
            exact ih next after kept (Node.pruned_place pruned (BlockTree.placeLeaf_ok_iff.1 made).2.2)
  exact steps leaves .absent vacant stands_vacant Node.pruned_absent

end Arena

end AdaptiveMesh
