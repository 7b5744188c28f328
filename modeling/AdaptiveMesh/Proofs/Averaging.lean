import AdaptiveMesh.Proofs.Inheritance
import AdaptiveMesh.Proofs.Merging
import AdaptiveMesh.Proofs.Gathering
import AdaptiveMesh.Proofs.Partition

/-!
# Averaging

Costs follow the blocks through coarsening. The old costs are sorted into groups by the map that coarsening
returns, while the new blocks are numbered by walking the new tree. The two agree: the old blocks that the
map sends to a new gid are those inside the new block. They follow one another, and there is one of them or
a whole family. So no sum is divided by zero, and a merged block gets the mean of its children.
-/

namespace AdaptiveMesh

set_option autoImplicit false

namespace CostNumber

/-- Whether a cost alone is its own sum and its own mean, as it is where nothing is rounded. -/
structure Exact (α : Type) [CostNumber α] : Prop where
  zero_add : ∀ cost : α, zero + cost = cost
  div_one : ∀ cost : α, cost / ofCount 1 = cost

theorem exact_rat : Exact Rat where
  zero_add := by
    intro cost
    change ((0 : Nat) : Rat) + cost = cost
    rw [Nat.cast_zero, zero_add]
  div_one := by
    intro cost
    change cost / ((1 : Nat) : Rat) = cost
    rw [Nat.cast_one, div_one]

end CostNumber

namespace BlockTree

variable {tree next : BlockTree} {gid new first width : Nat} {loc home : Location}
  {flags : Array Bool} {map : List Nat}

/-- The old blocks that go into a new one: the block itself, or the members of its family. -/
structure Joins (tree : BlockTree) (flags : Array Bool) (map : List Nat) (new first width : Nat)
    (loc : Location) : Prop where
  mapped : ∀ gid : Nat, map[gid]? = some new ↔ first ≤ gid ∧ gid < first + width
  kind : (width = 1 ∧ tree.location? first = some loc ∧ flags[first]? = some false) ∨
    (width = 2 ^ tree.grid.dim ∧ tree.FlaggedFamily flags loc ∧
      ∀ k < width, tree.location? (first + k) = some (loc.child (.ofLinear k)))

theorem Joins.positive (joins : tree.Joins flags map new first width loc) : 0 < width := by
  cases joins.kind with
  | inl kept => exact kept.1 ▸ Nat.one_pos
  | inr merged => exact merged.1 ▸ Nat.two_pow_pos _

theorem Joins.around (joins : tree.Joins flags map new first width loc)
    (block : tree.location? gid = some home) (mapped : map[gid]? = some new) :
    loc.contains home = true := by
  obtain ⟨lower, upper⟩ := (joins.mapped gid).1 mapped
  cases joins.kind with
  | inl kept =>
      obtain ⟨single, named, _⟩ := kept
      have here : gid = first := by omega
      rw [here, named] at block
      cases block
      exact loc.contains_refl
  | inr merged =>
      have member := merged.2.2 (gid - first) (by omega)
      rw [Nat.add_sub_cancel' lower, block] at member
      cases member
      exact loc.contains_child _

section

variable (fits : tree.Fits) (coarsening : tree.coarsen flags = .ok (next, map))

include fits coarsening

theorem exists_joins (named : next.location? new = some loc) :
    ∃ first width, tree.Joins flags map new first width loc := by
  have gathers := gathers_of_coarsen fits coarsening
  have size := (coarsen_ok_iff.1 coarsening).1
  obtain ⟨gid, mapped⟩ := List.mem_iff_getElem?.1 ((gathers.onto new).2 (location?_lt named))
  have bound : gid < tree.numLeaves := by
    rw [← gathers.length]
    exact (List.getElem?_eq_some_iff.1 mapped).1
  obtain ⟨home, block⟩ := exists_location? bound
  obtain ⟨flag, flagged⟩ : ∃ flag, flags[gid]? = some flag :=
    ⟨_, Array.getElem?_eq_getElem (size.symm ▸ bound)⟩
  cases flag with
  | false =>
      obtain ⟨same, alone⟩ := gathers.kept gid home new block flagged mapped
      rw [named] at same
      cases same
      refine ⟨gid, 1, fun other => (alone other).trans ?_, .inl ⟨rfl, block, flagged⟩⟩
      omega
  | true =>
      obtain ⟨parent, first, _, family, same, members, children⟩ :=
        gathers.merged gid home new block flagged mapped
      rw [named] at same
      cases same
      exact ⟨first, 2 ^ tree.grid.dim, members, .inr ⟨rfl, family, children⟩⟩

theorem exists_target (block : tree.location? gid = some home) :
    ∃ new loc, map[gid]? = some new ∧ next.location? new = some loc := by
  have gathers := gathers_of_coarsen fits coarsening
  have bound : gid < map.length := by
    rw [gathers.length]
    exact location?_lt block
  have mapped := List.getElem?_eq_getElem bound
  obtain ⟨loc, named⟩ := exists_location? ((gathers.onto _).1 (List.mem_of_getElem? mapped))
  exact ⟨_, loc, mapped, named⟩

theorem mapped_iff_contains (block : tree.location? gid = some home)
    (named : next.location? new = some loc) :
    map[gid]? = some new ↔ loc.contains home = true := by
  obtain ⟨first, width, joins⟩ := exists_joins fits coarsening named
  constructor
  · intro mapped
    exact joins.around block mapped
  · intro around
    obtain ⟨_, place, mapped, found⟩ := exists_target fits coarsening block
    obtain ⟨_, _, target⟩ := exists_joins fits coarsening found
    have same := (eq_of_contains_common found (target.around block mapped) named around).1
    rwa [same] at mapped

theorem existsUnique_target (block : tree.location? gid = some home) :
    ∃! new : Nat, ∃ loc, next.location? new = some loc ∧ loc.contains home = true := by
  obtain ⟨new, loc, mapped, named⟩ := exists_target fits coarsening block
  refine ⟨new, ⟨loc, named, (mapped_iff_contains fits coarsening block named).1 mapped⟩,
    fun other found => ?_⟩
  obtain ⟨place, there, around⟩ := found
  have again := (mapped_iff_contains fits coarsening block there).2 around
  exact Option.some.inj (again.symm.trans mapped)

end

theorem flaggedFamily_of_kept {kept : Array Bool} {parent : Location}
    (size : flags.size = tree.numLeaves) (keeping : tree.balanceCoarsenFlags flags = .ok kept)
    (family : tree.FlaggedFamily kept parent) :
    tree.FlaggedFamily flags parent ∧ tree.mayMerge parent = .ok true := by
  obtain ⟨o, child⟩ := tree.grid.exists_child parent
  obtain ⟨gid, block, raised⟩ := mem_withFlags_iff.1 (family.flagged _ child)
  exact (keeps_iff child).1 ((kept_iff size keeping block).1 raised)

end BlockTree

namespace Mesh

variable {α : Type} {costs : Array α} {map : List Nat} {new first width : Nat}

theorem filterMap_zip_places {places : List Location} {inside : Location → Bool}
    (same : List.Forall₂ (fun group place => group = new ↔ inside place = true) map places)
    (costs : List α) :
    ((map.zip costs).filterMap fun entry => if entry.1 = new then some entry.2 else none) =
      ((places.zip costs).filter fun entry => inside entry.1).map Prod.snd := by
  induction same generalizing costs with
  | nil => rfl
  | @cons group place _ _ here _ ih =>
      cases costs with
      | nil => rfl
      | cons cost costs =>
          rw [List.zip_cons_cons, List.zip_cons_cons, List.filterMap_cons, List.filter_cons, ih]
          cases around : inside place with
          | true => rw [if_pos (here.2 around), if_pos rfl, List.map_cons]
          | false =>
              have other : group ≠ new := fun found => by
                rw [here.1 found] at around
                cases around
              rw [if_neg other, if_neg Bool.false_ne_true]

def costsWithin (mesh : Mesh α) (loc : Location) : List α :=
  ((mesh.tree.locations.toList.zip mesh.costs.toList).filter fun entry =>
    loc.contains entry.1).map Prod.snd

section

variable {mesh : Mesh α} {next : BlockTree} {flags : Array Bool} {loc : Location}
  (fits : mesh.tree.Fits) (coarsening : mesh.tree.coarsen flags = .ok (next, map))
  (named : next.location? new = some loc)

include fits coarsening named

/-- The group of a new block holds the costs of the old blocks inside it. -/
theorem filterMap_zip_eq_costsWithin :
    ((map.zip mesh.costs.toList).filterMap fun entry =>
      if entry.1 = new then some entry.2 else none) = mesh.costsWithin loc := by
  apply filterMap_zip_places
  rw [List.forall₂_iff_get]
  refine ⟨(BlockTree.gathers_of_coarsen fits coarsening).length, fun gid inMap inTree => ?_⟩
  have block : mesh.tree.location? gid = some (mesh.tree.locations.toList.get ⟨gid, inTree⟩) :=
    Array.getElem?_eq_getElem inTree
  rw [← BlockTree.mapped_iff_contains fits coarsening block named, List.getElem?_eq_getElem inMap,
    Option.some.injEq]
  rfl

theorem costsWithin_eq (joins : mesh.tree.Joins flags map new first width loc) :
    mesh.costsWithin loc = (mesh.costs.toList.drop first).take width := by
  have ordered := (BlockTree.gathers_of_coarsen fits coarsening).ordered
  have span : Decomposition.rangeOf map new = ⟨first, first + width⟩ :=
    Decomposition.rangeOf_eq_of_iff ordered (Nat.lt_add_of_pos_right joins.positive) joins.mapped
  rw [Decomposition.rangeOf_eq, Decomposition.countP_lt_succ] at span
  injection span with start stop
  rw [start, Nat.add_right_inj] at stop
  rw [← filterMap_zip_eq_costsWithin fits coarsening named, ← start, ← stop]
  exact Decomposition.filterMap_zip ordered mesh.costs.toList

end

variable [CostNumber α]

theorem getElem?_mergedCosts {count : Nat} (bound : new < count) :
    (mergedCosts count costs map)[new]? = some (meanCost ((map.zip costs.toList).filterMap fun entry =>
      if entry.1 = new then some entry.2 else none)) := by
  rw [mergedCosts, Array.getElem?_map, getElem?_grouped bound, Option.map_some]

def addCost? (sums : List (α × Nat)) (entry : Nat × α) : Option (List (α × Nat)) := do
  let (sum, count) ← sums[entry.1]?
  return sums.set entry.1 (sum + entry.2, count + 1)

/-- The costs after coarsening in one pass: the sums and counts of all groups, and then each sum divided
by its count. -/
def dividedSums? (count : Nat) (costs : Array α) (map : List Nat) : Option (List α) := do
  let sums ← (map.zip costs.toList).foldlM addCost? (List.replicate count (CostNumber.zero, 0))
  return sums.map fun (sum, count) => sum / CostNumber.ofCount count

def tallies (groups : Array (Array α)) : List (α × Nat) :=
  groups.toList.map fun group => (CostNumber.sum group.toList, group.size)

theorem getElem?_tallies (groups : Array (Array α)) (group : Nat) : (tallies groups)[group]? =
    groups[group]?.map fun members => (CostNumber.sum members.toList, members.size) := by
  rw [tallies, List.getElem?_map, Array.getElem?_toList]

theorem addCost?_tallies {groups : Array (Array α)} {group : Nat} (bound : group < groups.size)
    (cost : α) :
    addCost? (tallies groups) (group, cost) = some (tallies (groups.modify group (·.push cost))) := by
  have here := Array.getElem?_eq_getElem bound
  have length : (tallies groups).length = groups.size := by
    rw [tallies, List.length_map, Array.length_toList]
  have grown : CostNumber.sum (groups[group].push cost).toList =
      CostNumber.sum groups[group].toList + cost := by
    rw [Array.toList_push, CostNumber.sum, List.foldl_append]
    rfl
  rw [addCost?, getElem?_tallies, here]
  simp only [Option.map_some, Option.bind_eq_bind, Option.bind_some, Option.pure_def,
    Option.some.injEq]
  apply List.ext_getElem?
  intro index
  rw [List.getElem?_set, length, getElem?_tallies, getElem?_tallies, Array.getElem?_modify]
  by_cases same : group = index
  · rw [if_pos same, if_pos bound, if_pos same, ← same, here, Option.map_some, Option.map_some, grown,
      Array.size_push]
  · rw [if_neg same, if_neg same]

theorem foldlM_addCost? {entries : List (Nat × α)} {groups : Array (Array α)}
    (small : ∀ entry ∈ entries, entry.1 < groups.size) :
    entries.foldlM addCost? (tallies groups) = some (tallies (entries.foldl
      (fun groups (entry : Nat × α) => groups.modify entry.1 (·.push entry.2)) groups)) := by
  induction entries generalizing groups with
  | nil => rfl
  | cons entry rest ih =>
      obtain ⟨here, later⟩ := List.forall_mem_cons.1 small
      rw [List.foldlM_cons, addCost?_tallies here, List.foldl_cons]
      apply ih
      intro other member
      rw [Array.size_modify]
      exact later other member

/-- Summing up in one pass gives the means of the groups. -/
theorem dividedSums?_eq {count : Nat} (small : ∀ group ∈ map, group < count) :
    dividedSums? count costs map = some (mergedCosts count costs map).toList := by
  have blank : List.replicate count ((CostNumber.zero : α), 0) =
      tallies (Array.replicate count #[]) := by
    rw [tallies, Array.toList_replicate, List.map_replicate]
    rfl
  have inside (entry : Nat × α) (member : entry ∈ map.zip costs.toList) :
      entry.1 < (Array.replicate count (#[] : Array α)).size := by
    rw [Array.size_replicate]
    exact small entry.1 (List.of_mem_zip member).1
  rw [dividedSums?, blank, foldlM_addCost? inside, mergedCosts, Array.toList_map, tallies]
  simp only [Option.bind_eq_bind, Option.bind_some, Option.pure_def, List.map_map]
  rfl

variable {mesh next start : Mesh α} {config : MeshConfig} {tree : BlockTree} {flags : Array Bool}
  {balanced : Array α} {workers rank : Nat}

/-- How the costs of a coarsened mesh follow from those of the old one. -/
structure Averages (mesh : Mesh α) (flags : Array Bool) (next : Mesh α) : Prop where
  size : next.costs.size = next.numBlocks
  /-- Every old block lies in one new block, and so its cost is counted once. -/
  target : ∀ gid home, mesh.tree.location? gid = some home →
    ∃! new : Nat, ∃ loc, next.tree.location? new = some loc ∧ loc.contains home = true
  /-- The old costs inside a new block, pending or not, are added up from left to right in gid order, and
  the sum is divided by their number. -/
  cost : ∀ new loc, next.tree.location? new = some loc → next.costs[new]? =
    some ((mesh.costsWithin loc).foldl (· + ·) CostNumber.zero /
      CostNumber.ofCount (mesh.costsWithin loc).length)
  /-- What a new block stands for is itself alone, and then its cost stays where nothing is rounded, or
  the members of its family, which has been flagged and touches no finer block. -/
  step : ∀ new loc, next.tree.location? new = some loc →
    (∃ gid cost, mesh.tree.location? gid = some loc ∧ ¬mesh.tree.Keeps flags loc ∧
      mesh.costs[gid]? = some cost ∧ mesh.costsWithin loc = [cost] ∧
      (CostNumber.Exact α → next.costs[new]? = some cost)) ∨
    (∃ first, mesh.tree.FlaggedFamily flags loc ∧ mesh.tree.mayMerge loc = .ok true ∧
      (mesh.costsWithin loc).length = 2 ^ mesh.tree.grid.dim ∧
      ∀ k < 2 ^ mesh.tree.grid.dim, ∃ cost,
        mesh.tree.location? (first + k) = some (loc.child (.ofLinear k)) ∧
        mesh.costs[first + k]? = some cost ∧ (mesh.costsWithin loc)[k]? = some cost)
  /-- Summing up by the map in one pass, the new gids being those of the new tree, gives the same. -/
  divided : ∃ kept map, mesh.tree.balanceCoarsenFlags flags = .ok kept ∧
    mesh.tree.coarsen kept = .ok (next.tree, map) ∧
    dividedSums? next.numBlocks mesh.costs map = some next.costs.toList

theorem meanCost_of_exact (exact : CostNumber.Exact α) (cost : α) : meanCost [cost] = cost := by
  have value : meanCost [cost] = (CostNumber.zero + cost) / CostNumber.ofCount 1 := rfl
  rw [value, exact.zero_add, exact.div_one]

section

variable {map : List Nat} {kept : Array Bool} {loc : Location} (derived : mesh.Derived)
  (fits : mesh.tree.Fits) (coarsening : mesh.tree.coarsen kept = .ok (tree, map))
  (named : tree.location? new = some loc)

include derived fits coarsening named

theorem costsWithin_of_single (joins : mesh.tree.Joins kept map new first 1 loc)
    (block : mesh.tree.location? first = some loc) :
    ∃ cost, mesh.costs[first]? = some cost ∧ mesh.costsWithin loc = [cost] := by
  have bound : first < mesh.costs.size := by
    rw [derived.size_costs]
    exact BlockTree.location?_lt block
  have known := Array.getElem?_eq_getElem bound
  refine ⟨_, known, ?_⟩
  rw [costsWithin_eq fits coarsening named joins, List.take_one, List.head?_drop,
    Array.getElem?_toList, known]
  rfl

theorem getElem?_costsWithin (joins : mesh.tree.Joins kept map new first width loc)
    (members : ∀ k < width, mesh.tree.location? (first + k) = some (loc.child (.ofLinear k))) :
    (mesh.costsWithin loc).length = width ∧ ∀ k < width, ∃ cost,
      mesh.costs[first + k]? = some cost ∧ (mesh.costsWithin loc)[k]? = some cost := by
  have inside {k : Nat} (bound : k < width) : first + k < mesh.costs.size := by
    rw [derived.size_costs]
    exact BlockTree.location?_lt (members k bound)
  rw [costsWithin_eq fits coarsening named joins]
  constructor
  · have last := inside (Nat.sub_one_lt_of_lt joins.positive)
    rw [List.length_take, List.length_drop, Array.length_toList]
    omega
  · intro k bound
    have known := Array.getElem?_eq_getElem (inside bound)
    refine ⟨_, known, ?_⟩
    rw [List.getElem?_take_of_lt bound, List.getElem?_drop, Array.getElem?_toList, known]

end

theorem averages_of_coarsen (derived : mesh.Derived) (words : mesh.tree.grid.Words)
    (run : mesh.coarsen flags = .ok next) : mesh.Averages flags next := by
  have acted : mesh.act (.coarsen flags) = .ok next := run
  obtain ⟨derivedNext, _⟩ := derived.act acted
  rw [act_eq_rebuild nofun] at acted
  obtain ⟨⟨tree, costs⟩, planned, rebuilt⟩ := Outcome.bind_ok_iff.1 acted
  obtain ⟨_, _, _, _, same⟩ := assemble_ok_iff.1 rebuilt
  have parts : next.tree = tree ∧ next.costs = costs := by
    rw [same]
    exact ⟨rfl, rfl⟩
  obtain ⟨rfl, rfl⟩ := parts
  obtain ⟨kept, map, keeping, coarsening, merged⟩ := plan_coarsen_ok_iff.1 planned
  have fits := BlockTree.fits_of_words words
  have gathers := BlockTree.gathers_of_coarsen fits coarsening
  obtain ⟨_, checked, _⟩ := Outcome.bind_ok_iff.1 keeping
  have size := BlockTree.checkFlagCount_ok_iff.1 checked
  have mean {new : Nat} {loc : Location} (named : next.tree.location? new = some loc) :
      next.costs[new]? = some (meanCost (mesh.costsWithin loc)) := by
    rw [merged, getElem?_mergedCosts (BlockTree.location?_lt named),
      filterMap_zip_eq_costsWithin fits coarsening named]
  refine ⟨derivedNext.size_costs,
    fun gid home block => BlockTree.existsUnique_target fits coarsening block,
    fun new loc named => mean named, fun new loc named => ?_,
    ⟨kept, map, keeping, coarsening, ?_⟩⟩
  · obtain ⟨first, width, joins⟩ := BlockTree.exists_joins fits coarsening named
    cases joins.kind with
    | inl kept =>
        obtain ⟨rfl, block, lowered⟩ := kept
        obtain ⟨cost, known, only⟩ := costsWithin_of_single derived fits coarsening named joins block
        refine .inl ⟨first, cost, block, fun keeps => ?_, known, only, fun exact => ?_⟩
        · rw [(BlockTree.kept_iff size keeping block).2 keeps] at lowered
          cases lowered
        · rw [mean named, only, meanCost_of_exact exact]
    | inr joined =>
        obtain ⟨whole, family, members⟩ := joined
        obtain ⟨flagged, allowed⟩ := BlockTree.flaggedFamily_of_kept size keeping family
        obtain ⟨length, each⟩ := getElem?_costsWithin derived fits coarsening named joins members
        rw [whole] at length members each
        refine .inr ⟨first, flagged, allowed, length, fun k bound => ?_⟩
        obtain ⟨cost, known, shown⟩ := each k bound
        exact ⟨cost, members k bound, known, shown⟩
  · rw [merged]
    exact dividedSums?_eq fun group member => (gathers.onto group).1 member

/-- Costs follow the blocks through coarsening, whatever has been done with a mesh since it was made of its
parts. Rational costs are not rounded. -/
theorem coarsen_averages_costs
    (made : restore config tree balanced costs workers rank = .ok start)
    (words : ∀ axis, config.rootBlocks axis < 2 ^ 64) (actions : List (Action α))
    (run : (start.run actions).coarsen flags = .ok next) :
    (start.run actions).Averages flags next ∧ CostNumber.Exact Rat := by
  obtain ⟨derived, place⟩ := (derived_of_restore made).run actions
  refine ⟨averages_of_coarsen derived (derived.words ?_) run, CostNumber.exact_rat⟩
  rwa [place.config, (place_of_restore made).1]

def pendingActions : List (Action Rat) :=
  [.refine #[true, false, false, false], .setCost 1 5, .setCost 4 3]

/-- Both costs are still pending when the children are merged. Their parent is as expensive as they are in
the mean, and the block beside them stays expensive, with the gid that it had at first. -/
theorem coarsen_averages_costs_corner : ∃ start next : Mesh Rat,
    create squareConfig 2 1 = .ok start ∧
    (start.run pendingActions).costs ≠ (start.run pendingActions).balanced ∧
    (start.run pendingActions).coarsen (Array.replicate 4 true ++ Array.replicate 3 false) = .ok next ∧
    (start.run pendingActions).Averages (Array.replicate 4 true ++ Array.replicate 3 false) next ∧
    next.tree.location? 0 = some ⟨1, ⟨0, 0, 0⟩⟩ ∧
    (start.run pendingActions).costsWithin ⟨1, ⟨0, 0, 0⟩⟩ = [1, 5, 1, 1] ∧
    next.costs[0]? = some 2 ∧ (start.run pendingActions).costs[4]? = some 3 ∧ next.costs[1]? = some 3 := by
  have computed : (create squareConfig 2 1 : Except (MeshError Rat) (Mesh Rat)).toOption.any
      (fun start => (start.run pendingActions).costs ≠ (start.run pendingActions).balanced &&
        (start.run pendingActions).costsWithin ⟨1, ⟨0, 0, 0⟩⟩ = [1, 5, 1, 1] &&
        (start.run pendingActions).costsWithin ⟨1, ⟨1, 0, 0⟩⟩ = [3] &&
        (start.run pendingActions).costs[4]? = some 3 &&
        ((start.run pendingActions).coarsen
          (Array.replicate 4 true ++ Array.replicate 3 false)).toOption.any fun next =>
            next.tree.location? 0 = some ⟨1, ⟨0, 0, 0⟩⟩ &&
              next.tree.location? 1 = some ⟨1, ⟨1, 0, 0⟩⟩) = true := by
    decide +kernel
  obtain ⟨start, made, computed⟩ := Outcome.exists_ok_of_any computed
  simp only [Bool.and_eq_true, decide_eq_true_eq] at computed
  obtain ⟨⟨⟨⟨pending, family⟩, beside⟩, dear⟩, computed⟩ := computed
  obtain ⟨next, run, computed⟩ := Outcome.exists_ok_of_any computed
  simp only [Bool.and_eq_true, decide_eq_true_eq] at computed
  obtain ⟨parent, kept⟩ := computed
  obtain ⟨_, _, _, _, restored⟩ := create_ok_iff.1 made
  obtain ⟨averages, _⟩ := coarsen_averages_costs restored (by decide) pendingActions run
  have mean := averages.cost 0 _ parent
  have alone := averages.cost 1 _ kept
  rw [family] at mean
  rw [beside] at alone
  have four : ([1, 5, 1, 1] : List Rat).foldl (· + ·) CostNumber.zero / CostNumber.ofCount 4 = 2 := by
    decide +kernel
  have one : ([3] : List Rat).foldl (· + ·) CostNumber.zero / CostNumber.ofCount 1 = 3 := by
    decide +kernel
  exact ⟨start, next, made, pending, run, averages, parent, family, mean.trans (congrArg some four), dear,
    alone.trans (congrArg some one)⟩

end Mesh

end AdaptiveMesh
