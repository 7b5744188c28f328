import AdaptiveMesh.Proofs.Coarsening
import AdaptiveMesh.Proofs.ZOrder

/-!
# Families

The members of a family are all the leaves below one node, so they follow one another in gid order. A run
over the leaves that meets the first member of a family therefore sees the whole family before it, and a
run that goes on after the last member has cut none in two. Hence merging succeeds as soon as the flagged
leaves make up whole families, and replaces these families by their parents and nothing else.
-/

namespace AdaptiveMesh

set_option autoImplicit false

theorem Octant.filter_isValidFor {dim : Nat} (positive : 1 ≤ dim) (small : dim ≤ 3) :
    all.filter (fun o => o.isValidFor dim) = forDim dim := by
  have table : ∀ dim : Fin 4, all.filter (fun o => o.isValidFor dim.val) = forDim dim.val := by decide
  exact table ⟨dim, by omega⟩

namespace BlockTree

variable {tree : BlockTree} {grid : RootGrid} {loc parent place : Location} {flags : Array Bool}

/-- Whether all children of a place, which is not coarser than a root block, are leaves. -/
structure Family (tree : BlockTree) (parent : Location) : Prop where
  fine : tree.grid.rootLevel ≤ parent.level
  members : ∀ member ∈ tree.grid.children parent, member ∈ tree.locations

structure FlaggedFamily (tree : BlockTree) (flags : Array Bool) (parent : Location) : Prop
    extends tree.Family parent where
  flagged : ∀ member ∈ tree.grid.children parent, (member, true) ∈ tree.withFlags flags

section

variable (members : ∀ member ∈ tree.grid.children parent, member ∈ tree.locations)

include members

theorem exists_refined_of_members :
    Location.ofPath parent.path = parent ∧ ∃ f, tree.root.along parent.path = .ofChildren f := by
  obtain ⟨o, listed⟩ := tree.grid.exists_child parent
  obtain ⟨gid, block⟩ := mem_locations_iff.1 (members _ listed)
  have proper : Location.root.contains parent = true :=
    Location.contains_of_common (root_contains_block block) (Location.contains_child parent o)
      (Nat.zero_le _)
  refine ⟨Location.ofPath_path proper, ?_⟩
  have ends := along_path block
  rw [Location.path_child, Node.along_append] at ends
  cases (tree.root.along parent.path).absent_or_leaf_or_children with
  | inl gone =>
      rw [gone, Node.along_absent] at ends
      cases ends
  | inr there =>
      cases there with
      | inl leaf =>
          obtain ⟨gid, leaf⟩ := leaf
          rw [leaf, Node.along_leaf_cons] at ends
          cases ends
      | inr refined => exact refined

theorem exists_run_of_members : ∃ before after,
    tree.locations.toList = before ++ tree.grid.children parent ++ after := by
  obtain ⟨placed, f, refined⟩ := exists_refined_of_members members
  have below (o : Octant) : ((f o).entries (parent.child o)).map Prod.fst =
      ([o].filter fun o => o.isValidFor tree.grid.dim).map parent.child := by
    cases valid : o.isValidFor tree.grid.dim with
    | true =>
        obtain ⟨gid, block⟩ :=
          mem_locations_iff.1 (members _ (RootGrid.mem_children.2 ⟨o, valid, rfl⟩))
        have ends := along_path block
        rw [Location.path_child, Node.along_append, refined, Node.along_cons, Node.child_ofChildren,
          Node.along_nil] at ends
        simp [ends, valid]
    | false =>
        have gone : f o = .absent := by
          by_contra there
          have inside := (child_present_iff refined o).1 there
          rw [RootGrid.isValidFor_of_contains_child inside] at valid
          cases valid
        simp [gone, valid]
  have listed : ((Node.ofChildren f).entries parent).map Prod.fst = tree.grid.children parent := by
    rw [Node.entries_ofChildren, List.map_flatMap]
    simp only [below]
    rw [← List.map_flatMap, ← List.filter_flatMap, List.flatMap_singleton',
      Octant.filter_isValidFor tree.grid.one_le_dim tree.grid.dim_le_three]
    rfl
  obtain ⟨before, after, whole⟩ := tree.root.exists_entries_along .root parent.path
  have here : parent.path.foldl Location.child .root = parent := placed
  rw [refined, here] at whole
  refine ⟨before.map Prod.fst, after.map Prod.fst, ?_⟩
  rw [tree.toList_locations, whole, List.map_append, List.map_append, listed]

end

theorem Family.exists_run (family : tree.Family parent) : ∃ before after,
    tree.locations.toList = before ++ tree.grid.children parent ++ after :=
  exists_run_of_members family.members

/-- What a run over the leaves may have ahead of it: the last part of the leaves, with all members of
every chosen family of which it has one. -/
structure Ahead (tree : BlockTree) (chosen : Location → Prop) (rest : List Location) : Prop where
  suffix : rest <:+ tree.locations.toList
  whole : ∀ parent, chosen parent → ∀ child ∈ tree.grid.children parent, child ∈ rest →
    ∀ member ∈ tree.grid.children parent, member ∈ rest

section

variable {chosen : Location → Prop} {rest : List Location}

theorem ahead_all (families : ∀ parent, chosen parent → tree.Family parent) :
    tree.Ahead chosen tree.locations.toList where
  suffix := List.suffix_rfl
  whole := by
    intro parent picked _ _ _ member below
    exact Array.mem_toList_iff.2 ((families parent picked).members member below)

theorem Ahead.nodup (ahead : tree.Ahead chosen rest) : rest.Nodup :=
  ahead.suffix.sublist.nodup tree.nodup_locations

theorem Ahead.mem_locations (ahead : tree.Ahead chosen rest) (member : loc ∈ rest) :
    loc ∈ tree.locations :=
  Array.mem_toList_iff.1 (ahead.suffix.subset member)

/-- A chosen family is met at its first member, all of it. -/
theorem Ahead.exists_after (ahead : tree.Ahead chosen (loc :: rest)) (picked : chosen parent)
    (family : tree.Family parent) (member : loc ∈ tree.grid.children parent) :
    ∃ after, loc :: rest = tree.grid.children parent ++ after := by
  obtain ⟨passed, whole⟩ := ahead.suffix
  obtain ⟨before, after, run⟩ := family.exists_run
  have distinct := tree.nodup_locations
  have both : passed ++ loc :: rest = before ++ (tree.grid.children parent ++ after) := by
    rw [whole, run, List.append_assoc]
  cases List.append_eq_append_iff.1 both with
  | inl early =>
      obtain ⟨between, split, here⟩ := early
      cases between with
      | nil => exact ⟨after, here⟩
      | cons first between =>
          -- the run has the member before the family starts
          injection here with same
          have twice : loc ∈ before := by
            rw [split, same]
            exact List.mem_append_right _ List.mem_cons_self
          rw [run, List.append_assoc] at distinct
          exact absurd (List.mem_append_left after member)
            (List.disjoint_of_nodup_append distinct twice)
  | inr late =>
      obtain ⟨between, split, here⟩ := late
      cases between with
      | nil => exact ⟨after, here.symm⟩
      | cons first between =>
          -- the first member of the family has been passed, though another one is still ahead
          obtain ⟨o, listed⟩ := tree.grid.exists_child parent
          obtain ⟨head, members, shape⟩ := List.exists_cons_of_ne_nil (List.ne_nil_of_mem listed)
          rw [shape] at here
          injection here with same
          have below : first ∈ tree.grid.children parent := by
            rw [shape, same]
            exact List.mem_cons_self
          have twice : first ∈ passed := by
            rw [split]
            exact List.mem_append_right _ List.mem_cons_self
          rw [← whole] at distinct
          exact absurd (ahead.whole parent picked loc member List.mem_cons_self first below)
            (List.disjoint_of_nodup_append distinct twice)

theorem Ahead.tail (ahead : tree.Ahead chosen (loc :: rest))
    (alone : ∀ parent, chosen parent → loc ∉ tree.grid.children parent) :
    tree.Ahead chosen rest where
  suffix := (List.suffix_cons loc rest).trans ahead.suffix
  whole := by
    intro parent picked child listed inside member below
    have later := ahead.whole parent picked child listed (List.mem_cons_of_mem loc inside) member below
    cases List.mem_cons.1 later with
    | inl same => exact absurd (same ▸ below) (alone parent picked)
    | inr later => exact later

theorem Ahead.append (ahead : tree.Ahead chosen (tree.grid.children parent ++ rest)) :
    tree.Ahead chosen rest where
  suffix := (List.suffix_append _ rest).trans ahead.suffix
  whole := by
    intro other picked child listed inside member below
    have later := ahead.whole other picked child listed (List.mem_append_right _ inside) member below
    cases List.mem_append.1 later with
    | inl sibling =>
        rw [RootGrid.eq_of_mem_children below sibling] at listed
        exact absurd inside (List.disjoint_of_nodup_append ahead.nodup listed)
    | inr later => exact later

end

section

variable {chosen : Location → Prop} {leaf : Location × Bool} {rest : List (Location × Bool)}

theorem Ahead.familyParent? (ahead : tree.Ahead chosen ((leaf :: rest).map Prod.fst))
    (picked : chosen parent) (family : tree.Family parent)
    (member : leaf.1 ∈ tree.grid.children parent) :
    tree.grid.familyParent? (((leaf :: rest).take tree.grid.numChildren).map Prod.fst) =
      some parent := by
  obtain ⟨after, shape⟩ := ahead.exists_after picked family member
  rw [RootGrid.familyParent?_iff]
  refine ⟨family.fine, ?_⟩
  have front : (leaf :: rest).map Prod.fst = tree.grid.children parent ++ after := shape
  rw [List.map_take, front, ← tree.grid.length_children parent, List.take_left]

theorem Ahead.family_of_familyParent? (ahead : tree.Ahead chosen ((leaf :: rest).map Prod.fst))
    (found : tree.grid.familyParent?
      (((leaf :: rest).take tree.grid.numChildren).map Prod.fst) = some parent) :
    tree.Family parent ∧ tree.Ahead chosen ((rest.drop (tree.grid.numChildren - 1)).map Prod.fst) := by
  have shape := RootGrid.map_fst_of_familyParent? found
  refine ⟨⟨(RootGrid.familyParent?_iff.1 found).1, fun member below => ?_⟩, ?_⟩
  · apply ahead.mem_locations
    rw [shape]
    exact List.mem_append_left _ below
  · rw [shape] at ahead
    exact ahead.append

end

theorem flag_unique {flag other : Bool} (flagged : (loc, flag) ∈ tree.withFlags flags)
    (again : (loc, other) ∈ tree.withFlags flags) : flag = other := by
  obtain ⟨gid, block, here⟩ := mem_withFlags_iff.1 flagged
  obtain ⟨twin, found, there⟩ := mem_withFlags_iff.1 again
  rw [(eq_of_contains_block block found (Location.contains_refl loc)).1] at here
  exact Option.some.inj (here.symm.trans there)

theorem all_flagged_iff {group : List (Location × Bool)}
    (listed : ∀ leaf ∈ group, leaf ∈ tree.withFlags flags)
    (members : group.map Prod.fst = tree.grid.children parent) :
    group.all Prod.snd = true ↔
      ∀ member ∈ tree.grid.children parent, (member, true) ∈ tree.withFlags flags := by
  rw [List.all_eq_true, ← members]
  constructor
  · intro raised member below
    obtain ⟨leaf, inside, rfl⟩ := List.mem_map.1 below
    rw [← raised leaf inside]
    exact listed leaf inside
  · intro raised leaf inside
    exact flag_unique (listed leaf inside) (raised leaf.1 (List.mem_map_of_mem inside))

variable {leaves : List (Location × Bool)} {pieces : List (Location × Nat)}

/-- Merging succeeds where the flagged leaves make up whole families. -/
theorem exists_merged {skip : Nat} (listed : ∀ leaf ∈ leaves, leaf ∈ tree.withFlags flags)
    (families : ∀ place, (place, true) ∈ tree.withFlags flags →
      ∃ parent, tree.FlaggedFamily flags parent ∧ place ∈ tree.grid.children parent)
    (ahead : tree.Ahead (tree.FlaggedFamily flags) ((leaves.drop skip).map Prod.fst)) :
    ∃ pieces, merged tree.grid leaves skip = .ok pieces := by
  induction leaves generalizing skip with
  | nil => exact ⟨[], by cases skip <;> rfl⟩
  | cons leaf rest ih =>
      have later (skip : Nat) (onward : tree.Ahead (tree.FlaggedFamily flags)
          ((rest.drop skip).map Prod.fst)) : ∃ pieces, merged tree.grid rest skip = .ok pieces :=
        ih (fun other member => listed other (List.mem_cons_of_mem leaf member)) onward
      cases skip with
      | succ skip => exact later skip ahead
      | zero =>
          rw [List.drop_zero] at ahead
          have here := listed leaf List.mem_cons_self
          obtain ⟨loc, flag⟩ := leaf
          cases flag with
          | false =>
              have lowered (parent : Location) (family : tree.FlaggedFamily flags parent) :
                  loc ∉ tree.grid.children parent := by
                intro below
                cases flag_unique here (family.flagged loc below)
              obtain ⟨pieces, others⟩ := later 0 (ahead.tail lowered)
              exact ⟨_, merged_single_iff.2 ⟨pieces, others, rfl⟩⟩
          | true =>
              obtain ⟨parent, family, below⟩ := families loc here
              have found := ahead.familyParent? family family.toFamily below
              have whole := (all_flagged_iff
                (fun other inside => listed other (List.mem_of_mem_take inside))
                (RootGrid.familyParent?_iff.1 found).2).2 family.flagged
              obtain ⟨pieces, others⟩ := later _ (ahead.family_of_familyParent? found).2
              exact ⟨_, merged_family_iff.2 ⟨parent, pieces, found, whole, others, rfl⟩⟩

theorem merged_flags {skip : Nat} (run : merged grid leaves skip = .ok pieces) :
    ∀ merged ∈ pieces, ∀ loc ∈ refined grid (piece merged), (loc, (piece merged).2) ∈ leaves := by
  induction leaves generalizing skip pieces with
  | nil => cases skip <;> cases run <;> simp
  | cons leaf rest ih =>
      have onward {later : List (Location × Nat)} {skip : Nat}
          (others : merged grid rest skip = .ok later) (merged : Location × Nat)
          (member : merged ∈ later) (loc : Location) (below : loc ∈ refined grid (piece merged)) :
          (loc, (piece merged).2) ∈ leaf :: rest :=
        List.mem_cons_of_mem leaf (ih others merged member loc below)
      cases skip with
      | succ skip => exact onward run
      | zero =>
          obtain ⟨loc, flag⟩ := leaf
          cases flag with
          | false =>
              obtain ⟨later, others, rfl⟩ := merged_single_iff.1 run
              rw [List.forall_mem_cons]
              refine ⟨fun place here => ?_, onward others⟩
              cases List.mem_singleton.1 here
              exact List.mem_cons_self
          | true =>
              obtain ⟨parent, later, family, raised, others, rfl⟩ := merged_family_iff.1 run
              rw [List.forall_mem_cons]
              refine ⟨fun place below => ?_, onward others⟩
              have split : (piece (parent, grid.numChildren)).2 = true :=
                decide_eq_true grid.one_lt_numChildren
              rw [refined, split, if_pos rfl] at below
              have members := (RootGrid.familyParent?_iff.1 family).2
              have inside : place ∈ grid.children parent := below
              rw [← members] at inside
              obtain ⟨⟨member, flag⟩, taken, rfl⟩ := List.mem_map.1 inside
              have marked : flag = true := List.all_eq_true.1 raised _ taken
              subst marked
              rw [split]
              exact List.mem_of_mem_take taken

section

variable (size : flags.size = tree.numLeaves)
  (run : merged tree.grid (tree.withFlags flags) 0 = .ok pieces)

include size run

theorem flaggedFamily_of_merged {merged : Location × Nat} (listed : merged ∈ pieces)
    (large : 1 < merged.2) : tree.FlaggedFamily flags merged.1 := by
  have split : (piece merged).2 = true := decide_eq_true large
  have flagged (member : Location) (below : member ∈ tree.grid.children merged.1) :
      (member, true) ∈ tree.withFlags flags := by
    have inside : member ∈ refined tree.grid (piece merged) := by
      rw [refined, split, if_pos rfl]
      exact below
    have marked := merged_flags run merged listed member inside
    rwa [split] at marked
  refine ⟨⟨((merged_expands size run).2 merged listed).1, fun member below => ?_⟩, flagged⟩
  obtain ⟨gid, block, _⟩ := mem_withFlags_iff.1 (flagged member below)
  exact mem_locations_iff.2 ⟨gid, block⟩

/-- What remains are the leaves that are not flagged and the parents of flagged families. -/
theorem mem_merged_iff : loc ∈ pieces.map Prod.fst ↔
    (loc, false) ∈ tree.withFlags flags ∨ tree.FlaggedFamily flags loc := by
  -- every flag tells which piece its leaf has gone into
  have source {place : Location} {flag : Bool} (flagged : (place, flag) ∈ tree.withFlags flags) :
      ∃ merged ∈ pieces, (piece merged).2 = flag ∧ place ∈ refined tree.grid (piece merged) := by
    have old : place ∈ tree.locations.toList := by
      rw [← map_fst_withFlags size]
      exact List.mem_map_of_mem flagged
    rw [← (merged_expands size run).1] at old
    obtain ⟨_, inside, below⟩ := List.mem_flatMap.1 old
    obtain ⟨merged, listed, rfl⟩ := List.mem_map.1 inside
    exact ⟨merged, listed, flag_unique (merged_flags run merged listed place below) flagged, below⟩
  constructor
  · intro remains
    obtain ⟨merged, listed, rfl⟩ := List.mem_map.1 remains
    cases split : (piece merged).2 with
    | true => exact .inr (flaggedFamily_of_merged size run listed (of_decide_eq_true split))
    | false =>
        have marked := merged_flags run merged listed merged.1
        rw [refined, split] at marked
        exact .inl (marked (List.mem_singleton_self merged.1))
  · intro kind
    cases kind with
    | inl lowered =>
        obtain ⟨merged, listed, split, below⟩ := source lowered
        rw [refined, split] at below
        rw [List.mem_singleton.1 below]
        exact List.mem_map_of_mem listed
    | inr family =>
        obtain ⟨o, child⟩ := tree.grid.exists_child loc
        obtain ⟨merged, listed, split, below⟩ := source (family.flagged _ child)
        rw [refined, split, if_pos rfl] at below
        rw [RootGrid.eq_of_mem_children child below]
        exact List.mem_map_of_mem listed

end

end BlockTree

end AdaptiveMesh
