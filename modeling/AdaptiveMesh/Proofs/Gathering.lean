import AdaptiveMesh.Proofs.Families
import AdaptiveMesh.Proofs.Renumbering

/-!
# Gathering

Coarsening gathers the old blocks into new ones: a block that is not flagged stays alone, and the members
of a flagged family go into their parent. The flags are accepted exactly if they are those of whole
families; otherwise the first flagged block outside of such families is named. Since each new block stands
for a run of old ones, the new blocks come in Z order like the old ones, and the map from old gids to new
ones goes up by one from run to run.
-/

namespace AdaptiveMesh

set_option autoImplicit false

theorem Location.Precedes.around {a b c d : Location} (before : c.Precedes d)
    (aroundC : a.contains c = true) (aroundD : b.contains d = true) (apart : ¬a.Meets b) :
    a.Precedes b := by
  obtain ⟨above, o, other, ordered, insideC, insideD⟩ := before
  have aboveC := (contains_child_iff.1 insideC).1
  have aboveD := (contains_child_iff.1 insideD).1
  have deeperA : above.level < a.level := by
    by_contra shallow
    have outer := contains_of_common aroundC aboveC (Nat.le_of_not_lt shallow)
    exact apart (meets_of_contains_common (contains_trans outer aboveD) aroundD)
  have deeperB : above.level < b.level := by
    by_contra shallow
    have outer := contains_of_common aroundD aboveD (Nat.le_of_not_lt shallow)
    exact apart (meets_of_contains_common aroundC (contains_trans outer aboveC))
  exact ⟨above, o, other, ordered, contains_of_common insideC aroundC deeperA,
    contains_of_common insideD aroundD deeperB⟩

namespace BlockTree

variable {tree next : BlockTree} {grid : RootGrid} {gid new : Nat} {loc parent : Location}
  {flags : Array Bool} {map : List Nat} {pieces : List (Location × Nat)}

section

variable {skip : Nat} {leaves : List (Location × Bool)} {error : TreeError}

theorem merged_single_error {rest : List (Location × Bool)}
    (failed : merged grid ((loc, false) :: rest) 0 = .error error) :
    merged grid rest 0 = .error error := by
  cases run : merged grid rest 0 with
  | ok later => exact absurd (failed.symm.trans (merged_single_iff.2 ⟨later, run, rfl⟩)) nofun
  | error other =>
      rw [merged, run] at failed
      exact failed

theorem merged_family_error {rest : List (Location × Bool)}
    (failed : merged grid ((loc, true) :: rest) 0 = .error error) :
    (∃ parent, grid.familyParent? ((((loc, true) :: rest).take grid.numChildren).map Prod.fst) =
        some parent ∧ (((loc, true) :: rest).take grid.numChildren).all Prod.snd = true ∧
        merged grid rest (grid.numChildren - 1) = .error error) ∨
      ((∀ parent, grid.familyParent?
          ((((loc, true) :: rest).take grid.numChildren).map Prod.fst) = some parent →
          (((loc, true) :: rest).take grid.numChildren).all Prod.snd = false) ∧
        error = .invalidCoarsenFlags loc) := by
  rw [merged] at failed
  cases found : grid.familyParent? ((((loc, true) :: rest).take grid.numChildren).map Prod.fst) with
  | none =>
      simp only [found, if_true] at failed
      cases failed
      refine .inr ⟨fun parent named => ?_, rfl⟩
      cases named
  | some parent =>
      simp only [found, if_true] at failed
      cases whole : (((loc, true) :: rest).take grid.numChildren).all Prod.snd with
      | false =>
          rw [whole] at failed
          cases failed
          exact .inr ⟨fun _ _ => rfl, rfl⟩
      | true =>
          rw [whole, if_pos rfl] at failed
          refine .inl ⟨parent, rfl, rfl, ?_⟩
          cases run : merged grid rest (grid.numChildren - 1) with
          | ok later =>
              rw [run] at failed
              cases failed
          | error other =>
              rw [run] at failed
              exact failed

/-- Whether a block is flagged, but not in a family that is flagged as a whole. -/
structure Strays (tree : BlockTree) (flags : Array Bool) (loc : Location) : Prop where
  flagged : (loc, true) ∈ tree.withFlags flags
  alone : ∀ parent, tree.FlaggedFamily flags parent → loc ∉ tree.grid.children parent

/-- Merging fails at the first flagged leaf that is in no flagged family. What has been passed before is
not flagged or has been merged. -/
theorem exists_stray_of_error (listed : ∀ leaf ∈ leaves, leaf ∈ tree.withFlags flags)
    (ahead : tree.Ahead (tree.FlaggedFamily flags) ((leaves.drop skip).map Prod.fst))
    (failed : merged tree.grid leaves skip = .error error) :
    ∃ before loc after, leaves.drop skip = before ++ (loc, true) :: after ∧
      error = .invalidCoarsenFlags loc ∧ tree.Strays flags loc ∧
      ∀ leaf ∈ before, ¬tree.Strays flags leaf.1 := by
  induction leaves generalizing skip with
  | nil => cases skip <;> cases failed
  | cons leaf rest ih =>
      have later (skip : Nat) :=
        @ih skip fun other member => listed other (List.mem_cons_of_mem leaf member)
      cases skip with
      | succ skip => exact later skip ahead failed
      | zero =>
          rw [List.drop_zero] at ahead ⊢
          have here := listed leaf List.mem_cons_self
          obtain ⟨loc, flag⟩ := leaf
          cases flag with
          | false =>
              have lowered (parent : Location) (family : tree.FlaggedFamily flags parent) :
                  loc ∉ tree.grid.children parent := by
                intro below
                cases flag_unique here (family.flagged loc below)
              obtain ⟨before, stray, after, whole, same, strays, passed⟩ :=
                later 0 (ahead.tail lowered) (merged_single_error failed)
              refine ⟨(loc, false) :: before, stray, after, ?_, same, strays, ?_⟩
              · rw [← List.drop_zero (l := rest), whole, List.cons_append]
              · rw [List.forall_mem_cons]
                refine ⟨fun strays => ?_, passed⟩
                cases flag_unique here strays.flagged
          | true =>
              have members {parent : Location} (found : tree.grid.familyParent?
                  ((((loc, true) :: rest).take tree.grid.numChildren).map Prod.fst) = some parent) :=
                all_flagged_iff (fun other inside => listed other (List.mem_of_mem_take inside))
                  (RootGrid.familyParent?_iff.1 found).2
              cases merged_family_error failed with
              | inl onward =>
                  obtain ⟨parent, found, whole, failedRest⟩ := onward
                  obtain ⟨family, aheadRest⟩ := ahead.family_of_familyParent? found
                  have raised : tree.FlaggedFamily flags parent := ⟨family, (members found).1 whole⟩
                  obtain ⟨before, stray, after, split, same, strays, passed⟩ :=
                    later _ aheadRest failedRest
                  refine ⟨((loc, true) :: rest).take tree.grid.numChildren ++ before, stray, after, ?_,
                    same, strays, ?_⟩
                  · rw [List.append_assoc, ← split, ← List.drop_succ_cons,
                      ← tree.grid.numChildren_succ, List.take_append_drop]
                  · rw [List.forall_mem_append]
                    refine ⟨fun leaf inside strays => ?_, passed⟩
                    have below := List.mem_map_of_mem (f := Prod.fst) inside
                    rw [(RootGrid.familyParent?_iff.1 found).2] at below
                    exact strays.alone parent raised below
              | inr refused =>
                  obtain ⟨partly, same⟩ := refused
                  refine ⟨[], loc, rest, rfl, same, ⟨here, fun parent family below => ?_⟩, by simp⟩
                  have found := ahead.familyParent? family family.toFamily below
                  have whole := (members found).2 family.flagged
                  rw [partly parent found] at whole
                  cases whole

end

def gatherMap (pieces : List (Location × Nat)) : List Nat :=
  pieces.zipIdx.flatMap fun (piece, gid) => List.replicate piece.2 gid

theorem gatherMap_ordered (pieces : List (Location × Nat)) :
    (gatherMap pieces).Pairwise (· ≤ ·) := by
  have indices : pieces.zipIdx.Pairwise fun a b => a.2 < b.2 := by
    rw [← List.pairwise_map (f := Prod.snd), List.zipIdx_map_snd]
    exact List.pairwise_lt_range'
  rw [gatherMap, List.pairwise_flatMap]
  constructor
  · intro entry _
    exact List.pairwise_replicate.2 (.inr le_rfl)
  · apply indices.imp
    intro entry other before gid among later amongLater
    rw [(List.mem_replicate.1 among).2, (List.mem_replicate.1 amongLater).2]
    exact before.le

theorem getElem?_gatherMap_iff : (gatherMap pieces)[gid]? = some new ↔
    ∃ first merged, (startsOf 0 (pieces.map Prod.snd))[new]? = some first ∧
      pieces[new]? = some merged ∧ first ≤ gid ∧ gid < first + merged.2 := by
  have shape : gatherMap pieces =
      (pieces.zipIdx.map fun entry => List.replicate entry.1.2 entry.2).flatten := List.flatMap_def
  have lengths : (pieces.zipIdx.map fun entry => List.replicate entry.1.2 entry.2).map List.length =
      pieces.map Prod.snd := by
    have firsts : pieces.zipIdx.map Prod.fst = pieces := List.zipIdx_map_fst 0 pieces
    conv_rhs => rw [← firsts]
    rw [List.map_map, List.map_map]
    apply List.map_congr_left
    intro entry _
    exact List.length_replicate
  have shows {index first : Nat} {merged : Location × Nat}
      (found : (startsOf 0 (pieces.map Prod.snd))[index]? = some first)
      (listed : pieces[index]? = some merged) (lower : first ≤ gid) (upper : gid < first + merged.2) :
      (gatherMap pieces)[gid]? = some index := by
    have run : (pieces.zipIdx.map fun entry => List.replicate entry.1.2 entry.2)[index]? =
        some (List.replicate merged.2 index) := by
      rw [List.getElem?_map, List.getElem?_zipIdx, listed, Option.map_some, Option.map_some,
        Nat.zero_add]
    have inside : gid - first < merged.2 := by omega
    rw [← lengths] at found
    rw [shape, ← Nat.add_sub_cancel' lower, getElem?_flatten_of_start found run
      (by rwa [List.length_replicate]), List.getElem?_replicate, if_pos inside]
  constructor
  · intro mapped
    have bound := (List.getElem?_eq_some_iff.1 mapped).1
    rw [shape, List.length_flatten, lengths, ← Nat.zero_add (List.sum _)] at bound
    obtain ⟨index, first, width, found, wide, lower, upper⟩ := exists_start (Nat.zero_le gid) bound
    rw [List.getElem?_map, Option.map_eq_some_iff] at wide
    obtain ⟨merged, listed, rfl⟩ := wide
    rw [shows found listed lower upper, Option.some.injEq] at mapped
    rw [← mapped]
    exact ⟨first, merged, found, listed, lower, upper⟩
  · intro inside
    obtain ⟨first, merged, found, listed, lower, upper⟩ := inside
    exact shows found listed lower upper

section

variable (size : flags.size = tree.numLeaves)
  (run : merged tree.grid (tree.withFlags flags) 0 = .ok pieces)

include size run

/-- A run of old blocks consists of what its new block stands for. -/
theorem location?_of_run {first k : Nat} {merged : Location × Nat}
    (found : (startsOf 0 (pieces.map Prod.snd))[new]? = some first)
    (listed : pieces[new]? = some merged) (bound : k < merged.2) :
    tree.location? (first + k) = (refined tree.grid (piece merged))[k]? := by
  obtain ⟨expanded, counts⟩ := merged_expands size run
  have lengths : pieces.map Prod.snd =
      ((pieces.map piece).map (refined tree.grid)).map List.length := by
    rw [List.map_map, List.map_map]
    apply List.map_congr_left
    intro merged member
    exact (counts merged member).2
  have part : ((pieces.map piece).map (refined tree.grid))[new]? =
      some (refined tree.grid (piece merged)) := by
    rw [List.getElem?_map, List.getElem?_map, listed]
    rfl
  rw [(counts merged (List.mem_of_getElem? listed)).2] at bound
  rw [lengths] at found
  rw [location?, ← Array.getElem?_toList, ← expanded, List.flatMap_def]
  exact getElem?_flatten_of_start found part bound

theorem exists_gathered {flag : Bool} (block : tree.location? gid = some loc)
    (flagged : flags[gid]? = some flag) (mapped : (gatherMap pieces)[gid]? = some new) :
    ∃ first merged, (startsOf 0 (pieces.map Prod.snd))[new]? = some first ∧
      pieces[new]? = some merged ∧ loc ∈ refined tree.grid (piece merged) ∧
      (piece merged).2 = flag ∧ merged.2 = widthOf tree.grid flag := by
  obtain ⟨first, merged, found, listed, lower, upper⟩ := getElem?_gatherMap_iff.1 mapped
  have member := List.mem_of_getElem? listed
  have inside := location?_of_run size run found listed (k := gid - first) (by omega)
  rw [Nat.add_sub_cancel' lower, block] at inside
  have below := List.mem_of_getElem? inside.symm
  have same : (piece merged).2 = flag :=
    flag_unique (merged_flags run merged member loc below)
      (mem_withFlags_iff.2 ⟨gid, block, flagged⟩)
  refine ⟨first, merged, found, listed, below, same, ?_⟩
  rw [((merged_expands size run).2 merged member).2, ← same, widthOf, ← RootGrid.numChildren_eq]
  exact length_refined tree.grid merged.1 _

theorem merged_ordered (apart : (pieces.map Prod.fst).Pairwise fun a b => ¬a.Meets b) :
    (pieces.map Prod.fst).Pairwise Location.Precedes := by
  have ordered := tree.locations_ordered
  rw [← (merged_expands size run).1, List.flatMap_map, List.pairwise_flatMap] at ordered
  rw [List.pairwise_map] at apart ⊢
  refine (ordered.2.and apart).imp fun {a b} both => ?_
  obtain ⟨leaf, below, around⟩ := exists_refined tree.grid (piece a)
  obtain ⟨other, belowOther, aroundOther⟩ := exists_refined tree.grid (piece b)
  exact (both.1 leaf below other belowOther).around around aroundOther both.2

theorem toList_locations_of_coarsen (fits : tree.Fits)
    (built : ofLeaves tree.grid (pieces.map Prod.fst) = .ok next) :
    next.locations.toList = pieces.map Prod.fst := by
  obtain ⟨again, coarsening, grid, fitsAgain, _, members⟩ := coarsen_ok fits size run
  obtain ⟨_, _, runAgain, rebuilt, _⟩ := coarsen_ok_iff.1 coarsening
  cases run.symm.trans runAgain
  cases built.symm.trans rebuilt
  have levels (loc : Location) (member : loc ∈ pieces.map Prod.fst) :
      tree.grid.LevelFits loc.level := by
    rw [← grid]
    exact fitsAgain loc ((members loc).2 member)
  have tiles := (exists_ofLeaves_iff_tiles levels).1 ⟨next, built⟩
  exact toList_locations_of_ordered levels built (merged_ordered size run tiles.apart)

end

/-- How the blocks are numbered when flagged families have been merged. -/
structure Gathers (tree : BlockTree) (flags : Array Bool) (next : BlockTree) (map : List Nat) :
    Prop where
  length : map.length = tree.numLeaves
  ordered : map.Pairwise (· ≤ ·)
  onto : ∀ new : Nat, new ∈ map ↔ new < next.numLeaves
  /-- A block that is not flagged stays, alone. -/
  kept : ∀ gid loc new, tree.location? gid = some loc → flags[gid]? = some false →
    map[gid]? = some new →
      next.location? new = some loc ∧ ∀ other : Nat, map[other]? = some new ↔ other = gid
  /-- A flagged block goes into its parent, together with the rest of its family and nothing else. -/
  merged : ∀ gid loc new, tree.location? gid = some loc → flags[gid]? = some true →
    map[gid]? = some new → ∃ parent first, loc.parent? = some parent ∧
      tree.FlaggedFamily flags parent ∧ next.location? new = some parent ∧
      (∀ other : Nat, map[other]? = some new ↔ first ≤ other ∧ other < first + 2 ^ tree.grid.dim) ∧
      ∀ k < 2 ^ tree.grid.dim, tree.location? (first + k) = some (parent.child (.ofLinear k))

theorem gathers_of_coarsen (fits : tree.Fits) (coarsening : tree.coarsen flags = .ok (next, map)) :
    tree.Gathers flags next map := by
  obtain ⟨size, pieces, run, built, same⟩ := coarsen_ok_iff.1 coarsening
  have listed := toList_locations_of_coarsen size run fits built
  obtain ⟨length, onto⟩ := coarsen_map size run
  have total : next.numLeaves = pieces.length := by
    rw [← List.length_map (f := Prod.fst), ← listed]
    rfl
  have place {new : Nat} {merged : Location × Nat} (named : pieces[new]? = some merged) :
      next.location? new = some merged.1 := by
    rw [location?, ← Array.getElem?_toList, listed, List.getElem?_map, named]
    rfl
  have others {new first other : Nat} {merged : Location × Nat}
      (found : (startsOf 0 (pieces.map Prod.snd))[new]? = some first)
      (named : pieces[new]? = some merged) : map[other]? = some new ↔
        first ≤ other ∧ other < first + merged.2 := by
    rw [same]
    refine getElem?_gatherMap_iff.trans ⟨fun inside => ?_, fun bounds => ?_⟩
    · obtain ⟨_, _, foundAgain, namedAgain, bounds⟩ := inside
      cases found.symm.trans foundAgain
      cases named.symm.trans namedAgain
      exact bounds
    · exact ⟨first, merged, found, named, bounds⟩
  refine ⟨by rw [same]; exact length, by rw [same]; exact gatherMap_ordered pieces, fun new => ?_, ?_, ?_⟩
  · rw [same, total]
    exact onto new
  · intro gid loc new block lowered mapped
    have gathered := exists_gathered size run block lowered (same ▸ mapped)
    obtain ⟨first, merged, found, named, below, single, width⟩ := gathered
    have here := (others found named).1 mapped
    rw [refined, single] at below
    rw [List.mem_singleton.1 below]
    refine ⟨place named, fun other => (others found named).trans ?_⟩
    rw [width] at here ⊢
    change first ≤ gid ∧ gid < first + 1 at here
    change first ≤ other ∧ other < first + 1 ↔ _
    omega
  · intro gid loc new block raised mapped
    have gathered := exists_gathered size run block raised (same ▸ mapped)
    obtain ⟨first, merged, found, named, below, split, width⟩ := gathered
    have family : refined tree.grid (piece merged) = tree.grid.children merged.1 := by
      rw [refined, split, if_pos rfl]
      rfl
    rw [family] at below
    obtain ⟨o, _, child⟩ := RootGrid.mem_children.1 below
    have count : merged.2 = 2 ^ tree.grid.dim := width
    have flagged := flaggedFamily_of_merged size run (List.mem_of_getElem? named)
      (of_decide_eq_true split)
    refine ⟨merged.1, first, ?_, flagged, place named, fun other => ?_, fun k bound => ?_⟩
    · rw [← child, Location.parent?_child]
    · rw [← count]
      exact others found named
    · rw [location?_of_run size run found named (by rwa [count]), family]
      exact tree.grid.getElem?_children merged.1 (by rwa [RootGrid.numChildren_eq])

/-- Whether the flagged blocks are those of some families. -/
def FlagsFamilies (tree : BlockTree) (flags : Array Bool) : Prop :=
  ∃ chosen : Location → Prop, (∀ parent, chosen parent → tree.Family parent) ∧
    ∀ gid loc, tree.location? gid = some loc →
      (flags[gid]? = some true ↔ ∃ parent, chosen parent ∧ loc ∈ tree.grid.children parent)

theorem flagsFamilies_iff : tree.FlagsFamilies flags ↔ ∀ loc, ¬tree.Strays flags loc := by
  constructor
  · intro families loc strays
    obtain ⟨chosen, family, union⟩ := families
    obtain ⟨gid, block, raised⟩ := mem_withFlags_iff.1 strays.flagged
    obtain ⟨parent, picked, below⟩ := (union gid loc block).1 raised
    refine strays.alone parent ⟨family parent picked, fun member among => ?_⟩ below
    obtain ⟨other, found⟩ := mem_locations_iff.1 ((family parent picked).members member among)
    exact mem_withFlags_iff.2 ⟨other, found, (union other member found).2 ⟨parent, picked, among⟩⟩
  · intro settled
    refine ⟨tree.FlaggedFamily flags, fun parent family => family.toFamily, fun gid loc block => ?_⟩
    constructor
    · intro raised
      by_contra outside
      refine settled loc ⟨mem_withFlags_iff.2 ⟨gid, block, raised⟩, fun parent family below => ?_⟩
      exact outside ⟨parent, family, below⟩
    · intro among
      obtain ⟨parent, family, below⟩ := among
      obtain ⟨other, found, raised⟩ := mem_withFlags_iff.1 (family.flagged loc below)
      rwa [(eq_of_contains_block block found (Location.contains_refl loc)).1]

structure FirstStray (tree : BlockTree) (flags : Array Bool) (gid : Nat) (loc : Location) : Prop where
  block : tree.location? gid = some loc
  strays : tree.Strays flags loc
  first : ∀ other home, other < gid → tree.location? other = some home → ¬tree.Strays flags home

theorem firstStray_of_append {before after : List (Location × Bool)}
    (size : flags.size = tree.numLeaves) (whole : tree.withFlags flags = before ++ (loc, true) :: after)
    (strays : tree.Strays flags loc) (passed : ∀ leaf ∈ before, ¬tree.Strays flags leaf.1) :
    tree.FirstStray flags before.length loc := by
  have listed : tree.locations.toList = before.map Prod.fst ++ loc :: after.map Prod.fst := by
    rw [← map_fst_withFlags size, whole, List.map_append]
    rfl
  refine ⟨?_, strays, fun other home earlier found => ?_⟩
  · rw [location?, ← Array.getElem?_toList, listed, ← List.length_map (f := Prod.fst),
      List.getElem?_append_right le_rfl, Nat.sub_self]
    rfl
  · rw [location?, ← Array.getElem?_toList, listed,
      List.getElem?_append_left (by rwa [List.length_map])] at found
    obtain ⟨leaf, inside, rfl⟩ := List.mem_map.1 (List.mem_of_getElem? found)
    exact passed leaf inside

theorem not_strays_of_coarsen (coarsening : tree.coarsen flags = .ok (next, map)) :
    ¬tree.Strays flags loc := by
  intro strays
  obtain ⟨size, pieces, run, _, _⟩ := coarsen_ok_iff.1 coarsening
  obtain ⟨gid, block, raised⟩ := mem_withFlags_iff.1 strays.flagged
  have bound : gid < (gatherMap pieces).length := by
    rw [gatherMap, (coarsen_map size run).1]
    exact location?_lt block
  obtain ⟨_, merged, _, named, below, split, _⟩ :=
    exists_gathered size run block raised (List.getElem?_eq_getElem bound)
  have family := flaggedFamily_of_merged size run (List.mem_of_getElem? named)
    (of_decide_eq_true split)
  rw [refined, split, if_pos rfl] at below
  exact strays.alone merged.1 family below

/-- Coarsening succeeds, or there is a first block that strays, which is named. -/
theorem coarsen_ok_or_stray (fits : tree.Fits) (size : flags.size = tree.numLeaves) :
    (∃ next map, tree.coarsen flags = .ok (next, map)) ∨
      ∃ gid loc, tree.FirstStray flags gid loc ∧
        tree.coarsen flags = .error (.invalidCoarsenFlags loc) := by
  cases run : merged tree.grid (tree.withFlags flags) 0 with
  | ok pieces =>
      obtain ⟨next, coarsening, _⟩ := coarsen_ok fits size run
      exact .inl ⟨next, _, coarsening⟩
  | error error =>
      have ahead : tree.Ahead (tree.FlaggedFamily flags)
          (((tree.withFlags flags).drop 0).map Prod.fst) := by
        rw [List.drop_zero, map_fst_withFlags size]
        exact ahead_all fun parent family => family.toFamily
      obtain ⟨before, loc, after, whole, rfl, strays, passed⟩ :=
        exists_stray_of_error (fun leaf member => member) ahead run
      refine .inr ⟨before.length, loc, firstStray_of_append size whole strays passed, ?_⟩
      rw [coarsen, checkFlagCount, if_pos size, run]
      rfl

/-- The tree that is left when coarsening has been asked for. Flags that are refused change nothing. -/
def afterCoarsening (tree : BlockTree) (flags : Array Bool) : BlockTree :=
  match tree.coarsen flags with
  | .ok (next, _) => next
  | .error _ => tree

/-- Coarsening accepts the flags of whole families and no others. Refused flags leave the tree as it was,
and the first block that strays is named; accepted ones gather each family into its parent. -/
theorem coarsen_accepts_families (words : tree.grid.Words) (size : flags.size = tree.numLeaves) :
    ((∃ next map, tree.coarsen flags = .ok (next, map)) ↔ tree.FlagsFamilies flags) ∧
    (¬tree.FlagsFamilies flags → ∃ gid loc, tree.FirstStray flags gid loc ∧
      tree.coarsen flags = .error (.invalidCoarsenFlags loc) ∧ tree.afterCoarsening flags = tree) ∧
    ∀ next map, tree.coarsen flags = .ok (next, map) → next.grid = tree.grid ∧
      tree.Gathers flags next map ∧ tree.afterCoarsening flags = next := by
  have fits := fits_of_words words
  have outcome := coarsen_ok_or_stray fits size
  refine ⟨⟨?_, ?_⟩, ?_, ?_⟩
  · intro accepted
    obtain ⟨next, map, coarsening⟩ := accepted
    exact flagsFamilies_iff.2 fun loc => not_strays_of_coarsen coarsening
  · intro families
    cases outcome with
    | inl accepted => exact accepted
    | inr refused =>
        obtain ⟨_, loc, stray, _⟩ := refused
        exact absurd stray.strays (flagsFamilies_iff.1 families loc)
  · intro mixed
    cases outcome with
    | inl accepted =>
        obtain ⟨next, map, coarsening⟩ := accepted
        exact absurd (flagsFamilies_iff.2 fun loc => not_strays_of_coarsen coarsening) mixed
    | inr refused =>
        obtain ⟨gid, loc, stray, failed⟩ := refused
        exact ⟨gid, loc, stray, failed, by rw [afterCoarsening, failed]⟩
  · intro next map coarsening
    obtain ⟨_, _, _, built, _⟩ := coarsen_ok_iff.1 coarsening
    exact ⟨(ofLeaves_spec built).1, gathers_of_coarsen fits coarsening,
      by rw [afterCoarsening, coarsening]⟩

/-- Four children are gathered into the corner block, and with the flag of a root block beside theirs
nothing is. -/
theorem coarsen_accepts_families_oblong : ∃ tree next map, ofLeaves oblongGrid oblongLeaves = .ok tree ∧
    tree.FlagsFamilies #[true, true, true, true, false, false, false, false, false] ∧
    tree.coarsen #[true, true, true, true, false, false, false, false, false] = .ok (next, map) ∧
    map = [0, 0, 0, 0, 1, 2, 3, 4, 5] ∧ next.location? 0 = some ⟨2, ⟨0, 0, 0⟩⟩ ∧
    next.location? 5 = some ⟨2, ⟨2, 1, 0⟩⟩ ∧
    tree.FirstStray #[true, true, true, true, false, true, false, false, false] 5 ⟨2, ⟨0, 1, 0⟩⟩ ∧
    tree.coarsen #[true, true, true, true, false, true, false, false, false] =
      .error (.invalidCoarsenFlags ⟨2, ⟨0, 1, 0⟩⟩) := by
  have computed : (ofLeaves oblongGrid oblongLeaves).toOption.any (fun tree =>
      tree.grid = oblongGrid && tree.numLeaves = 9 && tree.location? 0 = some ⟨3, ⟨0, 0, 0⟩⟩ &&
        tree.location? 5 = some ⟨2, ⟨0, 1, 0⟩⟩ && tree.location? 8 = some ⟨2, ⟨2, 1, 0⟩⟩ &&
        (tree.coarsen #[true, true, true, true, false, false, false, false, false]).toOption.any
          (fun made => made.2 = [0, 0, 0, 0, 1, 2, 3, 4, 5]) &&
        match tree.coarsen #[true, true, true, true, false, true, false, false, false] with
        | .error (.invalidCoarsenFlags loc) => loc = ⟨2, ⟨0, 1, 0⟩⟩
        | _ => false) = true := by
    decide +kernel
  obtain ⟨tree, built, computed⟩ := Outcome.exists_ok_of_any computed
  simp only [Bool.and_eq_true, decide_eq_true_eq] at computed
  obtain ⟨⟨⟨⟨⟨⟨grid, count⟩, first⟩, fifth⟩, last⟩, computed⟩, named⟩ := computed
  obtain ⟨⟨next, map⟩, coarsening, shown⟩ := Outcome.exists_ok_of_any computed
  cases of_decide_eq_true shown
  have words : tree.grid.Words := by
    rw [grid]
    decide
  obtain ⟨accepts, _, gathers⟩ := coarsen_accepts_families words
    (by rw [count]; rfl : #[true, true, true, true, false, false, false, false, false].size = _)
  obtain ⟨_, gathers, _⟩ := gathers next _ coarsening
  obtain ⟨parent, _, above, _, corner, _⟩ := gathers.merged 0 _ 0 first rfl rfl
  cases above
  obtain ⟨acceptsMixed, refuses, _⟩ := coarsen_accepts_families words
    (by rw [count]; rfl : #[true, true, true, true, false, true, false, false, false].size = _)
  have mixed : ¬tree.FlagsFamilies #[true, true, true, true, false, true, false, false, false] := by
    intro families
    obtain ⟨_, _, accepted⟩ := acceptsMixed.2 families
    rw [accepted] at named
    cases named
  obtain ⟨gid, loc, stray, failed, _⟩ := refuses mixed
  rw [failed] at named
  cases of_decide_eq_true named
  have here := (eq_of_contains_block stray.block fifth (Location.contains_refl _)).1
  rw [here] at stray
  exact ⟨tree, next, _, built, accepts.1 ⟨next, _, coarsening⟩, coarsening, rfl, corner,
    (gathers.kept 8 _ 5 last rfl rfl).1, stray, failed⟩

end BlockTree

end AdaptiveMesh
