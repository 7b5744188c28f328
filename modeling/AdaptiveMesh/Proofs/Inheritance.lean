import AdaptiveMesh.Proofs.LeastRefinement
import AdaptiveMesh.Proofs.Reloading
import AdaptiveMesh.Proofs.Renumbering

/-!
# Inheritance

Costs follow the blocks through refining. The costs are written over the parts of the old blocks, from the
new gids that refining returns on, while the blocks themselves are numbered by walking the new tree. The
two agree, since the parts are laid end to end in Z order: every new block has the cost of the one old
block around it, and no entry is left unwritten.
-/

namespace AdaptiveMesh

set_option autoImplicit false

namespace BlockTree

variable {tree next : BlockTree} {gid new : Nat} {loc home : Location} {flags : Array Bool}
  {starts : List Nat}

/-- Whether a new block lies in the part of an old one, which is around it. -/
structure InPart (tree : BlockTree) (flags : Array Bool) (starts : List Nat) (gid new : Nat)
    (home loc : Location) : Prop where
  block : tree.location? gid = some home
  around : home.contains loc = true
  part : ∃ flag first k, flags[gid]? = some flag ∧ starts[gid]? = some first ∧
    k < widthOf tree.grid flag ∧ new = first + k
  /-- What has not been split is the block itself. -/
  kept : flags[gid]? = some false → loc = home
  split : flags[gid]? = some true → loc.parent? = some home

section

variable (words : tree.grid.Words) (refining : tree.refine flags = .ok (next, starts))
  (named : next.location? new = some loc)

include words refining named

theorem exists_inPart : ∃ gid home, tree.InPart flags starts gid new home loc := by
  have fits := fits_of_words words
  have deeper := levelFits_of_refine words refining
  obtain ⟨size, _, _⟩ := refine_ok_iff.1 refining
  obtain ⟨gid, ⟨flag, first, flagged, started, lower, upper⟩, _⟩ :=
    (renumbers_of_refine fits deeper refining).origin new (location?_lt named)
  have inside : gid < tree.locations.size := by
    have counted := (Array.getElem?_eq_some_iff.1 flagged).1
    rwa [size] at counted
  obtain ⟨home, block⟩ := exists_location? inside
  have within : new - first < widthOf tree.grid flag := by omega
  have whole : first + (new - first) = new := Nat.add_sub_cancel' lower
  have below := location?_of_refine fits deeper refining block flagged started (k := new - first)
    (by rwa [length_refined, RootGrid.numChildren_eq])
  rw [whole, named] at below
  have member := List.mem_of_getElem? below.symm
  refine ⟨gid, home, block, contains_of_mem_refined member,
    ⟨flag, first, new - first, flagged, started, within, whole.symm⟩, fun lowered => ?_, fun raised => ?_⟩
  · cases flagged.symm.trans lowered
    exact List.mem_singleton.1 member
  · cases flagged.symm.trans raised
    obtain ⟨o, _, child⟩ := RootGrid.mem_children.1 member
    rw [← child, Location.parent?_child]

theorem inPart_of_contains (block : tree.location? gid = some home)
    (around : home.contains loc = true) : tree.InPart flags starts gid new home loc := by
  obtain ⟨other, place, inPart⟩ := exists_inPart words refining named
  obtain ⟨rfl, rfl⟩ := eq_of_contains_common block around inPart.block inPart.around
  exact inPart

end

end BlockTree

namespace Mesh

variable {α : Type} {costs : Array α} {flags : Array Bool} {gid : Nat} {cost : α}

def fillPart? (filled : List α) (first width : Nat) (cost : α) : Option (List α) :=
  if first + width ≤ filled.length then
    some (filled.take first ++ List.replicate width cost ++ filled.drop (first + width))
  else none

def fillBlock? (children : Nat) (costs : Array α) (flags : Array Bool) (filled : List α) :
    Nat × Nat → Option (List α)
  | (first, gid) => do
      let flag ← flags[gid]?
      let cost ← costs[gid]?
      fillPart? filled first (if flag then children else 1) cost

/-- Writes the costs of all old blocks, where `starts` gives their new gids. -/
def fillCosts? (children : Nat) (costs : Array α) (flags : Array Bool) (starts : List Nat)
    (blank : List α) : Option (List α) :=
  starts.zipIdx.foldlM (fillBlock? children costs flags) blank

theorem fillBlock?_append {children : Nat} {flag : Bool} (before after : List α) (blank : α)
    (flagged : flags[gid]? = some flag) (known : costs[gid]? = some cost) :
    fillBlock? children costs flags
        (before ++ (List.replicate (if flag then children else 1) blank ++ after))
        (before.length, gid) =
      some (before ++ List.replicate (if flag then children else 1) cost ++ after) := by
  simp only [fillBlock?, flagged, known, Option.bind_eq_bind, Option.bind_some]
  rw [fillPart?, if_pos (by simp), List.take_left, ← List.append_assoc before,
    List.drop_left' (by simp)]

/-- Parts laid end to end are written one after another, and what has been written before stays. -/
theorem fillCosts?_from {children : Nat} {flagsLeft : List Bool} {costsLeft : List α} (before : List α)
    (blank : α) (flagsHere : flags.toList.drop gid = flagsLeft)
    (costsHere : costs.toList.drop gid = costsLeft) (same : costsLeft.length = flagsLeft.length) :
    ((BlockTree.startsOf before.length
        (flagsLeft.map fun flag => if flag then children else 1)).zipIdx gid).foldlM
      (fillBlock? children costs flags)
      (before ++ List.replicate (flagsLeft.map fun flag => if flag then children else 1).sum blank) =
    some (before ++ (costsLeft.zip flagsLeft).flatMap fun (cost, flag) =>
      List.replicate (if flag then children else 1) cost) := by
  induction flagsLeft generalizing gid costsLeft before with
  | nil => simp [BlockTree.startsOf]
  | cons flag flagsRest ih =>
      cases costsLeft with
      | nil => cases same
      | cons cost costsRest =>
          have flagged : flags[gid]? = some flag := by
            rw [← Array.getElem?_toList, ← List.head?_drop, flagsHere, List.head?_cons]
          have known : costs[gid]? = some cost := by
            rw [← Array.getElem?_toList, ← List.head?_drop, costsHere, List.head?_cons]
          have flagsNext : flags.toList.drop (gid + 1) = flagsRest := by
            rw [← List.tail_drop, flagsHere, List.tail_cons]
          have costsNext : costs.toList.drop (gid + 1) = costsRest := by
            rw [← List.tail_drop, costsHere, List.tail_cons]
          have later := ih (before ++ List.replicate (if flag then children else 1) cost) flagsNext
            costsNext (Nat.succ.inj same)
          rw [List.length_append, List.length_replicate] at later
          rw [List.map_cons, BlockTree.startsOf, List.zipIdx_cons, List.foldlM_cons, List.sum_cons,
            List.replicate_add, fillBlock?_append before _ blank flagged known]
          refine later.trans ?_
          rw [List.zip_cons_cons, List.flatMap_cons, List.append_assoc]

theorem fillCosts?_eq {children : Nat} (blank : α) (size : costs.size = flags.size) :
    fillCosts? children costs flags
        (BlockTree.startsOf 0 (flags.toList.map fun flag => if flag then children else 1))
        (List.replicate (spreadCosts children costs flags).size blank) =
      some (spreadCosts children costs flags).toList := by
  rw [size_spreadCosts children size, spreadCosts, fillCosts?]
  exact fillCosts?_from [] blank rfl rfl (by simpa using size)

theorem getElem?_spreadCosts {children first k : Nat} {flag : Bool} (size : costs.size = flags.size)
    (started : (BlockTree.startsOf 0
      (flags.toList.map fun flag => if flag then children else 1))[gid]? = some first)
    (flagged : flags[gid]? = some flag) (known : costs[gid]? = some cost)
    (bound : k < if flag then children else 1) :
    (spreadCosts children costs flags)[first + k]? = some cost := by
  have lengths : flags.toList.map (fun flag => if flag then children else 1) =
      ((costs.toList.zip flags.toList).map fun (cost, flag) =>
        List.replicate (if flag then children else 1) cost).map List.length := by
    rw [List.map_map]
    symm
    apply BlockTree.map_zip_flags (by simpa using size)
    intro cost flag
    exact List.length_replicate
  have piece : ((costs.toList.zip flags.toList).map fun (cost, flag) =>
      List.replicate (if flag then children else 1) cost)[gid]? =
        some (List.replicate (if flag then children else 1) cost) := by
    have here : (costs.toList.zip flags.toList)[gid]? = some (cost, flag) := by
      rw [List.getElem?_zip_eq_some, Array.getElem?_toList, Array.getElem?_toList]
      exact ⟨known, flagged⟩
    rw [List.getElem?_map, here, Option.map_some]
  rw [lengths] at started
  rw [spreadCosts, List.getElem?_toArray, List.flatMap_def,
    BlockTree.getElem?_flatten_of_start started piece (by rwa [List.length_replicate]),
    List.getElem?_replicate, if_pos bound]

variable [CostNumber α] {mesh next start : Mesh α} {config : MeshConfig} {tree : BlockTree}
  {balanced : Array α} {workers rank : Nat}

/-- How the costs of a refined mesh follow from those of the old one. -/
structure Inherits (mesh : Mesh α) (flags : Array Bool) (next : Mesh α) : Prop where
  size : next.costs.size = next.numBlocks
  /-- Around every new block there is one old block. -/
  source : ∀ new loc, next.tree.location? new = some loc → ∃! gid : Nat, ∃ home,
    mesh.tree.location? gid = some home ∧ home.contains loc = true
  /-- The old block has been kept, or it has been split because it was asked for or for balance. -/
  step : ∀ new loc gid home, next.tree.location? new = some loc →
    mesh.tree.location? gid = some home → home.contains loc = true →
      (loc = home ∧ ¬mesh.tree.Forced flags gid) ∨
        (loc.parent? = some home ∧ mesh.tree.Forced flags gid)
  /-- The new block has the cost of the old one, pending or not. -/
  cost : ∀ new loc gid home, next.tree.location? new = some loc →
    mesh.tree.location? gid = some home → home.contains loc = true →
      ∃ cost, mesh.costs[gid]? = some cost ∧ next.costs[new]? = some cost
  balanced : next.balanced = next.costs
  localCosts : next.topology.costs.size = next.topology.numBlocks ∧
    ∀ position < next.topology.numBlocks, ∃ gid cost, next.topology.gid? position = some gid ∧
      next.topology.local? gid = some position ∧ next.costs[gid]? = some cost ∧
      next.topology.costs[position]? = some cost
  /-- Writing the costs by the new gids leaves nothing of what was there before. -/
  written : ∃ raised starts, mesh.tree.balanceRefineFlags flags = .ok raised ∧
    mesh.tree.refine raised = .ok (next.tree, starts) ∧
    ∀ blank : α, fillCosts? mesh.tree.grid.numChildren mesh.costs raised starts
      (List.replicate next.numBlocks blank) = some next.costs.toList
  valid : ∀ cost ∈ next.costs, CostNumber.isCost cost = true

theorem inherits_of_refine (derived : mesh.Derived) (words : mesh.tree.grid.Words)
    (run : mesh.refine flags = .ok next) : mesh.Inherits flags next := by
  have acted : mesh.act (.refine flags) = .ok next := run
  obtain ⟨derivedNext, _⟩ := derived.act acted
  rw [act_eq_rebuild nofun] at acted
  obtain ⟨⟨tree, costs⟩, planned, rebuilt⟩ := Outcome.bind_ok_iff.1 acted
  obtain ⟨_, _, _, _, same⟩ := assemble_ok_iff.1 rebuilt
  have parts : next.tree = tree ∧ next.costs = costs ∧ next.balanced = costs := by
    rw [same]
    exact ⟨rfl, rfl, rfl⟩
  obtain ⟨rfl, rfl, balanced⟩ := parts
  obtain ⟨raised, starts, raising, refining, spread⟩ := plan_refine_ok_iff.1 planned
  obtain ⟨sizeRaised, _, started⟩ := BlockTree.refine_ok_iff.1 refining
  rw [BlockTree.lengths_refined sizeRaised] at started
  have size : mesh.costs.size = raised.size := derived.size_costs.trans sizeRaised.symm
  have forced {gid : Nat} : raised[gid]? = some true ↔ mesh.tree.Forced flags gid :=
    BlockTree.raised_iff_forced (BlockTree.fits_of_words words) raising
  refine ⟨derivedNext.size_costs, fun new loc named => ?_,
    fun new loc gid home named block around => ?_, fun new loc gid home named block around => ?_,
    balanced, derivedNext.coherent.localCosts,
    ⟨raised, starts, raising, refining, fun blank => ?_⟩, derivedNext.isCost_costs⟩
  · obtain ⟨gid, home, inPart⟩ := BlockTree.exists_inPart words refining named
    refine ⟨gid, ⟨home, inPart.block, inPart.around⟩, fun other found => ?_⟩
    obtain ⟨place, block, around⟩ := found
    exact (BlockTree.eq_of_contains_common block around inPart.block inPart.around).1
  · have inPart := BlockTree.inPart_of_contains words refining named block around
    obtain ⟨flag, _, _, flagged, _⟩ := inPart.part
    cases flag with
    | true => exact .inr ⟨inPart.split flagged, forced.1 flagged⟩
    | false =>
        refine .inl ⟨inPart.kept flagged, fun split => ?_⟩
        rw [forced.2 split] at flagged
        cases flagged
  · obtain ⟨flag, first, k, flagged, begins, within, rfl⟩ :=
      (BlockTree.inPart_of_contains words refining named block around).part
    have bound : gid < mesh.costs.size := by
      rw [derived.size_costs]
      exact BlockTree.location?_lt block
    have known := Array.getElem?_eq_getElem bound
    refine ⟨_, known, ?_⟩
    rw [started] at begins
    rw [BlockTree.widthOf, ← RootGrid.numChildren_eq] at within
    rw [spread]
    exact getElem?_spreadCosts size begins flagged known within
  · have count : next.numBlocks = next.costs.size := derivedNext.size_costs.symm
    rw [count, started, spread]
    exact fillCosts?_eq blank size

/-- Costs follow the blocks through refining, whatever has been done with a mesh since it was made of its
parts. -/
theorem refine_inherits_costs
    (made : restore config tree balanced costs workers rank = .ok start)
    (words : ∀ axis, config.rootBlocks axis < 2 ^ 64) (actions : List (Action α))
    (run : (start.run actions).refine flags = .ok next) :
    (start.run actions).Inherits flags next := by
  obtain ⟨derived, place⟩ := (derived_of_restore made).run actions
  refine inherits_of_refine derived (derived.words ?_) run
  rwa [place.config, (place_of_restore made).1]

/-- The block at the other end of the ring has become expensive, which is still pending when the corner is
split again. Balance splits that block too, and its children are as expensive. -/
theorem refine_inherits_costs_corner : ∃ start next : Mesh Rat, create squareConfig 2 1 = .ok start ∧
    (start.run (squareActions.take 2)).costs ≠ (start.run (squareActions.take 2)).balanced ∧
    (start.run (squareActions.take 2)).refine cornerFlags = .ok next ∧
    (start.run (squareActions.take 2)).Inherits cornerFlags next ∧ cornerFlags[4]? = some false ∧
    (start.run (squareActions.take 2)).tree.Forced cornerFlags 4 ∧
    next.tree.location? 7 = some ⟨2, ⟨2, 0, 0⟩⟩ ∧
    next.costs[7]? = some 3 ∧ next.costs[6]? = some 1 := by
  have computed : (create squareConfig 2 1 : Except (MeshError Rat) (Mesh Rat)).toOption.any
      (fun start => (start.run (squareActions.take 2)).costs ≠
          (start.run (squareActions.take 2)).balanced &&
        (start.run (squareActions.take 2)).costs[3]? = some 1 &&
        (start.run (squareActions.take 2)).costs[4]? = some 3 &&
        (start.run (squareActions.take 2)).tree.location? 3 = some ⟨2, ⟨1, 1, 0⟩⟩ &&
        (start.run (squareActions.take 2)).tree.location? 4 = some ⟨1, ⟨1, 0, 0⟩⟩ &&
        ((start.run (squareActions.take 2)).refine cornerFlags).toOption.any fun next =>
          next.tree.location? 6 = some ⟨2, ⟨1, 1, 0⟩⟩ &&
            next.tree.location? 7 = some ⟨2, ⟨2, 0, 0⟩⟩) = true := by
    decide +kernel
  obtain ⟨start, made, computed⟩ := Outcome.exists_ok_of_any computed
  simp only [Bool.and_eq_true, decide_eq_true_eq] at computed
  obtain ⟨⟨⟨⟨⟨pending, cheap⟩, dear⟩, beside⟩, across⟩, computed⟩ := computed
  obtain ⟨next, run, computed⟩ := Outcome.exists_ok_of_any computed
  simp only [Bool.and_eq_true, decide_eq_true_eq] at computed
  obtain ⟨sixth, seventh⟩ := computed
  obtain ⟨_, _, _, _, restored⟩ := create_ok_iff.1 made
  have inherits := refine_inherits_costs restored (by decide) (squareActions.take 2) run
  have inherited {new gid : Nat} {loc home : Location} {cost : Rat}
      (named : next.tree.location? new = some loc)
      (block : (start.run (squareActions.take 2)).tree.location? gid = some home)
      (around : home.contains loc = true)
      (known : (start.run (squareActions.take 2)).costs[gid]? = some cost) :
      next.costs[new]? = some cost := by
    obtain ⟨other, same, shown⟩ := inherits.cost new loc gid home named block around
    rwa [← same.symm.trans known]
  have forced : (start.run (squareActions.take 2)).tree.Forced cornerFlags 4 := by
    cases inherits.step 7 _ 4 _ seventh across (by decide) with
    | inl kept => cases kept.1
    | inr split => exact split.2
  exact ⟨start, next, made, pending, run, inherits, rfl, forced, seventh,
    inherited seventh across (by decide) dear, inherited sixth beside (by decide) cheap⟩

end Mesh

end AdaptiveMesh
