import AdaptiveMesh.Mesh.Action
import AdaptiveMesh.Proofs.Coarsening
import AdaptiveMesh.Proofs.Costs
import AdaptiveMesh.Proofs.Soundness

/-!
# A mesh's life

A mesh starts out sound, and every call keeps it so. From a sound mesh every call with one flag per
block succeeds, as long as its results can be represented.
-/

namespace AdaptiveMesh

set_option autoImplicit false

theorem BlockTree.balanced_uniform {grid : RootGrid} {tree : BlockTree}
    (built : BlockTree.uniform grid = .ok tree) : tree.grid = grid ∧ tree.Balanced := by
  obtain ⟨same, _, members⟩ := ofLeaves_spec built
  have level (loc : Location) (member : loc ∈ tree.locations) : loc.level = grid.rootLevel := by
    obtain ⟨leaf, listed, rfl⟩ := (members loc).1 member
    rw [Location.level_ofPath, Location.length_path]
    exact (RootGrid.mem_rootLocations.1 listed).1
  refine ⟨same, fun a memberA b memberB _ => ?_⟩
  rw [level a memberA, level b memberB]
  omega

namespace Mesh

variable {α : Type} [CostNumber α] {mesh next start : Mesh α} {tree : BlockTree} {costs : Array α}
  {action : Action α} {flags : Array Bool}

theorem plan_refine_ok_iff : mesh.plan (.refine flags) = .ok (tree, costs) ↔
    ∃ raised starts, mesh.tree.balanceRefineFlags flags = .ok raised ∧
      mesh.tree.refine raised = .ok (tree, starts) ∧
      costs = spreadCosts mesh.tree.grid.numChildren mesh.costs raised := by
  simp only [plan, Outcome.bind_ok_iff, lift_ok_iff, Outcome.pure_ok_iff, Prod.mk.injEq]
  constructor
  · rintro ⟨raised, raising, ⟨made, starts⟩, refining, rfl, rfl⟩
    exact ⟨raised, starts, raising, refining, rfl⟩
  · rintro ⟨raised, starts, raising, refining, rfl⟩
    exact ⟨raised, raising, (tree, starts), refining, rfl, rfl⟩

theorem plan_coarsen_ok_iff : mesh.plan (.coarsen flags) = .ok (tree, costs) ↔
    ∃ kept map, mesh.tree.balanceCoarsenFlags flags = .ok kept ∧
      mesh.tree.coarsen kept = .ok (tree, map) ∧
      costs = mergedCosts tree.numLeaves mesh.costs map := by
  simp only [plan, Outcome.bind_ok_iff, lift_ok_iff, Outcome.pure_ok_iff, Prod.mk.injEq]
  constructor
  · rintro ⟨kept, keeping, ⟨made, map⟩, coarsening, rfl, rfl⟩
    exact ⟨kept, map, keeping, coarsening, rfl⟩
  · rintro ⟨kept, map, keeping, coarsening, rfl⟩
    exact ⟨kept, keeping, (tree, map), coarsening, rfl, rfl⟩

theorem act_eq_rebuild (rebuilds : ∀ gid cost, action ≠ .setCost gid cost) :
    mesh.act action = mesh.plan action >>= fun planned => mesh.rebuild planned.1 planned.2 := by
  cases action with
  | refine flags =>
      rw [act, refine, plan]
      cases lift .tree (mesh.tree.balanceRefineFlags flags) with
      | error e => rfl
      | ok raised =>
          cases run : lift (α := α) .tree (mesh.tree.refine raised) with
          | error e => simp only [bind, Except.bind, run]
          | ok made => simp only [bind, Except.bind, run, pure, Except.pure]
  | coarsen flags =>
      rw [act, coarsen, plan]
      cases lift .tree (mesh.tree.balanceCoarsenFlags flags) with
      | error e => rfl
      | ok kept =>
          cases run : lift (α := α) .tree (mesh.tree.coarsen kept) with
          | error e => simp only [bind, Except.bind, run]
          | ok made => simp only [bind, Except.bind, run, pure, Except.pure]
  | rebalance => rfl
  | setCost gid cost => exact absurd rfl (rebuilds gid cost)

theorem exists_plan_of_act (run : mesh.act action = .ok next) :
    ∃ costs, mesh.plan action = .ok (next.tree, costs) := by
  by_cases changes : ∃ gid cost, action = .setCost gid cost
  · obtain ⟨gid, cost, rfl⟩ := changes
    obtain ⟨_, _, same⟩ := setCost_ok_iff.1 run
    exact ⟨_, by rw [same]; rfl⟩
  · rw [act_eq_rebuild fun gid cost same => changes ⟨gid, cost, same⟩] at run
    obtain ⟨⟨tree, costs⟩, planned, rebuilt⟩ := Outcome.bind_ok_iff.1 run
    obtain ⟨_, _, _, _, same⟩ := assemble_ok_iff.1 rebuilt
    exact ⟨costs, by rw [same]; exact planned⟩

theorem Derived.plan (derived : mesh.Derived) (planned : mesh.plan action = .ok (tree, costs)) :
    tree.grid = mesh.tree.grid ∧ costs.size = tree.numLeaves := by
  cases action with
  | refine flags =>
      obtain ⟨raised, starts, _, refining, rfl⟩ := plan_refine_ok_iff.1 planned
      obtain ⟨size, built, _⟩ := BlockTree.refine_ok_iff.1 refining
      obtain ⟨grid, count, _⟩ := BlockTree.ofLeaves_spec built
      refine ⟨grid, ?_⟩
      rw [count, List.length_flatMap, BlockTree.lengths_refined size,
        size_spreadCosts _ (derived.size_costs.trans size.symm)]
  | coarsen flags =>
      obtain ⟨kept, map, _, coarsening, rfl⟩ := plan_coarsen_ok_iff.1 planned
      obtain ⟨_, _, _, built, _⟩ := BlockTree.coarsen_ok_iff.1 coarsening
      exact ⟨(BlockTree.ofLeaves_spec built).1, size_mergedCosts _ _ _⟩
  | rebalance =>
      cases planned
      exact ⟨rfl, derived.size_costs⟩
  | setCost gid cost =>
      cases planned
      exact ⟨rfl, by rw [Array.size_setIfInBounds]; exact derived.size_costs⟩

theorem Sound.plan (sound : mesh.Sound) (words : mesh.tree.grid.Words)
    (planned : mesh.plan action = .ok (tree, costs)) :
    tree.grid = mesh.tree.grid ∧ tree.Balanced ∧ costs.size = tree.numLeaves := by
  obtain ⟨grid, size⟩ := sound.derived.plan planned
  refine ⟨grid, ?_, size⟩
  cases action with
  | refine flags =>
      obtain ⟨_, _, raising, refining, _⟩ := plan_refine_ok_iff.1 planned
      exact (BlockTree.balanced_refine words sound.balanced raising refining).2
  | coarsen flags =>
      obtain ⟨_, _, keeping, coarsening, _⟩ := plan_coarsen_ok_iff.1 planned
      exact (BlockTree.balanced_coarsen words sound.balanced keeping coarsening).2
  | rebalance =>
      cases planned
      exact sound.balanced
  | setCost gid cost =>
      cases planned
      exact sound.balanced

structure SamePlace (mesh next : Mesh α) : Prop where
  config : next.config = mesh.config
  workers : next.numWorkers = mesh.numWorkers
  rank : next.rank = mesh.rank

omit [CostNumber α] in
theorem SamePlace.trans {last : Mesh α} (first : mesh.SamePlace next) (then_ : next.SamePlace last) :
    mesh.SamePlace last :=
  ⟨then_.config.trans first.config, then_.workers.trans first.workers, then_.rank.trans first.rank⟩

theorem Derived.act (derived : mesh.Derived) (run : mesh.act action = .ok next) :
    next.Derived ∧ mesh.SamePlace next := by
  by_cases changes : ∃ gid cost, action = .setCost gid cost
  · obtain ⟨gid, cost, rfl⟩ := changes
    obtain ⟨_, _, same⟩ := setCost_ok_iff.1 run
    exact ⟨derived.setCost run, by rw [same], by rw [same]; rfl, by rw [same]⟩
  · have rebuilds (gid : Nat) (cost : α) : action ≠ .setCost gid cost :=
      fun same => changes ⟨gid, cost, same⟩
    rw [act_eq_rebuild rebuilds] at run
    obtain ⟨⟨tree, costs⟩, planned, rebuilt⟩ := Outcome.bind_ok_iff.1 run
    obtain ⟨grid, size⟩ := derived.plan planned
    obtain ⟨shares, _, sharing, _, same⟩ := assemble_ok_iff.1 rebuilt
    have workers : next.numWorkers = mesh.numWorkers := by
      rw [same]
      exact (Decomposition.shared_of_ofCosts sharing).size
    exact ⟨derived.rebuild grid size rebuilt, by rw [same], workers, by rw [same]⟩

theorem Derived.after (derived : mesh.Derived) (action : Action α) :
    (mesh.after action).Derived ∧ mesh.SamePlace (mesh.after action) := by
  rw [Mesh.after]
  cases run : mesh.act action with
  | error e => exact ⟨derived, rfl, rfl, rfl⟩
  | ok next => exact derived.act run

/-- Whatever is done with a mesh, everything in it follows from its configuration, tree and costs. -/
theorem Derived.run (derived : start.Derived) (actions : List (Action α)) :
    (start.run actions).Derived ∧ start.SamePlace (start.run actions) := by
  induction actions generalizing start with
  | nil => exact ⟨derived, rfl, rfl, rfl⟩
  | cons action rest ih =>
      obtain ⟨next, place⟩ := derived.after action
      obtain ⟨last, kept⟩ := ih next
      exact ⟨last, place.trans kept⟩

/-- Every call keeps a mesh sound. -/
theorem Sound.act (sound : mesh.Sound) (words : mesh.tree.grid.Words)
    (run : mesh.act action = .ok next) : next.Sound ∧ mesh.SamePlace next := by
  obtain ⟨derived, place⟩ := sound.derived.act run
  obtain ⟨_, planned⟩ := exists_plan_of_act run
  exact ⟨⟨(sound.plan words planned).2.1, derived⟩, place⟩

theorem Sound.after (sound : mesh.Sound) (words : mesh.tree.grid.Words) (action : Action α) :
    (mesh.after action).Sound ∧ mesh.SamePlace (mesh.after action) := by
  rw [Mesh.after]
  cases run : mesh.act action with
  | error e => exact ⟨sound, rfl, rfl, rfl⟩
  | ok next => exact sound.act words run

theorem Sound.run (sound : start.Sound) (words : ∀ axis, start.config.rootBlocks axis < 2 ^ 64)
    (actions : List (Action α)) : (start.run actions).Sound ∧ start.SamePlace (start.run actions) := by
  induction actions generalizing start with
  | nil => exact ⟨sound, rfl, rfl, rfl⟩
  | cons action rest ih =>
      obtain ⟨soundNext, place⟩ := sound.after (sound.words words) action
      obtain ⟨soundLast, kept⟩ := ih soundNext (by rwa [place.config])
      exact ⟨soundLast, place.trans kept⟩

/-- How a mesh comes about: with one block per root block, or with a tree that is given. -/
inductive Made : Mesh α → Option BlockTree → Prop where
  | create {mesh : Mesh α} (config : MeshConfig) (workers rank : Nat)
      (made : Mesh.create config workers rank = .ok mesh) : Made mesh none
  | ofTree {mesh : Mesh α} (config : MeshConfig) (tree : BlockTree) (costs : Array α)
      (workers rank : Nat) (made : Mesh.ofTree config tree costs workers rank = .ok mesh) :
      Made mesh (some tree)

variable {given : Option BlockTree}

theorem Made.derived (made : start.Made given) : start.Derived := by
  cases made with
  | create config workers rank made =>
      obtain ⟨_, _, _, _, restored⟩ := create_ok_iff.1 made
      exact derived_of_restore restored
  | ofTree config tree costs workers rank made => exact derived_of_restore made

theorem Made.sound (made : start.Made given) (smooth : ∀ tree ∈ given, tree.Balanced) :
    start.Sound := by
  cases made with
  | create config workers rank made =>
      obtain ⟨_, tree, _, built, restored⟩ := create_ok_iff.1 made
      exact sound_of_restore (BlockTree.balanced_uniform built).2 restored
  | ofTree config tree costs workers rank made => exact sound_of_restore (smooth tree rfl) made

/-- Whether calls with one flag per block succeed as far as their results can be represented, and
find all the blocks that they look up. -/
structure Dependable (mesh : Mesh α) : Prop where
  covered : mesh.costs.size = mesh.numBlocks ∧ mesh.decomposition.ranks.size = mesh.numBlocks
  inside : mesh.topology.blocks.start ≤ mesh.topology.blocks.stop ∧
    mesh.topology.blocks.stop ≤ mesh.numBlocks ∧
    mesh.topology.costs.size = mesh.topology.numBlocks
  refines : ∀ flags : Array Bool, flags.size = mesh.numBlocks →
    (∀ gid loc, mesh.tree.location? gid = some loc → flags[gid]? = some true →
      mesh.tree.grid.LevelFits (loc.level + 1)) →
    ∃ raised tree starts, mesh.tree.balanceRefineFlags flags = .ok raised ∧
      mesh.tree.refine raised = .ok (tree, starts) ∧
      (raised.size = mesh.numBlocks ∧ starts.length = mesh.numBlocks ∧
        ∀ (gid : Nat) (flag : Bool) (first : Nat), raised[gid]? = some flag →
          starts[gid]? = some first →
          first + (if flag then mesh.tree.grid.numChildren else 1) ≤ tree.numLeaves) ∧
      (tree.numLeaves ≤ 2147483648 → ∃ next, mesh.refine flags = .ok next)
  coarsens : ∀ flags : Array Bool, flags.size = mesh.numBlocks →
    ∃ kept tree map, mesh.tree.balanceCoarsenFlags flags = .ok kept ∧
      mesh.tree.coarsen kept = .ok (tree, map) ∧
      (kept.size = mesh.numBlocks ∧ map.length = mesh.numBlocks ∧
        ∀ gid ∈ map, gid < tree.numLeaves) ∧
      (tree.numLeaves ≤ 2147483648 →
        (∀ group ∈ grouped tree.numLeaves map mesh.costs.toList, 1 < group.size →
          CostNumber.isCost (meanCost group.toList) = true) →
        ∃ next, mesh.coarsen flags = .ok next)
  rebalances : mesh.numBlocks ≤ 2147483648 → ∃ next, mesh.rebalance = .ok next

theorem Sound.exists_act (sound : mesh.Sound) (words : mesh.tree.grid.Words)
    (narrow : mesh.numWorkers ≤ 2147483648) (rebuilds : ∀ gid cost, action ≠ .setCost gid cost)
    (planned : mesh.plan action = .ok (tree, costs)) (few : tree.numLeaves ≤ 2147483648)
    (valid : ∀ cost ∈ costs, CostNumber.isCost cost = true) :
    ∃ next, mesh.act action = .ok next := by
  obtain ⟨grid, smooth, size⟩ := sound.plan words planned
  have positive : 0 < mesh.numWorkers := Nat.lt_of_le_of_lt (Nat.zero_le _) sound.derived.rank_lt
  obtain ⟨shares, sharing⟩ := Decomposition.exists_ofCosts positive valid
  have fits : tree.Fits := BlockTree.fits_of_words (grid ▸ words)
  obtain ⟨next, built⟩ :=
    exists_assemble mesh.config costs fits smooth size few narrow sharing sound.derived.rank_lt
  rw [act_eq_rebuild rebuilds]
  exact ⟨next, Outcome.bind_ok_iff.2 ⟨(tree, costs), planned, built⟩⟩

section

variable (sound : mesh.Sound) (words : mesh.tree.grid.Words)
  (narrow : mesh.numWorkers ≤ 2147483648) (size : flags.size = mesh.numBlocks)

include sound words narrow size

theorem Sound.refines (deeper : ∀ gid loc, mesh.tree.location? gid = some loc →
      flags[gid]? = some true → mesh.tree.grid.LevelFits (loc.level + 1)) :
    ∃ raised tree starts, mesh.tree.balanceRefineFlags flags = .ok raised ∧
      mesh.tree.refine raised = .ok (tree, starts) ∧
      (raised.size = mesh.numBlocks ∧ starts.length = mesh.numBlocks ∧
        ∀ (gid : Nat) (flag : Bool) (first : Nat), raised[gid]? = some flag →
          starts[gid]? = some first →
          first + (if flag then mesh.tree.grid.numChildren else 1) ≤ tree.numLeaves) ∧
      (tree.numLeaves ≤ 2147483648 → ∃ next, mesh.refine flags = .ok next) := by
  have fits := BlockTree.fits_of_words words
  obtain ⟨raised, raising, sizeRaised, _, _, origin⟩ := BlockTree.balanceRefineFlags_ok fits size
  have deeperRaised (gid : Nat) (loc : Location) (block : mesh.tree.location? gid = some loc)
      (flagged : raised[gid]? = some true) : mesh.tree.grid.LevelFits (loc.level + 1) := by
    obtain ⟨other, home, found, requested, finer⟩ := origin gid loc block flagged
    exact (deeper other home found requested).mono (by omega)
  obtain ⟨tree, starts, refining, _⟩ := BlockTree.refine_ok fits sizeRaised deeperRaised
  obtain ⟨_, built, started⟩ := BlockTree.refine_ok_iff.1 refining
  have planned := plan_refine_ok_iff.2 ⟨raised, starts, raising, refining, rfl⟩
  rw [BlockTree.lengths_refined sizeRaised] at started
  refine ⟨raised, tree, starts, raising, refining, ⟨sizeRaised, ?_, ?_⟩, fun few => ?_⟩
  · rw [started, BlockTree.length_startsOf, List.length_map, Array.length_toList]
    exact sizeRaised
  · intro gid flag first flagged begins
    rw [started] at begins
    have wide : (raised.toList.map fun flag => if flag then mesh.tree.grid.numChildren else 1)[gid]? =
        some (if flag then mesh.tree.grid.numChildren else 1) := by
      rw [List.getElem?_map, Array.getElem?_toList, flagged]
      rfl
    have ends := BlockTree.startsOf_bound begins wide
    rwa [Nat.zero_add, ← BlockTree.lengths_refined sizeRaised, ← List.length_flatMap,
      ← (BlockTree.ofLeaves_spec built).2.1] at ends
  · exact sound.exists_act words narrow (by simp) planned few
      fun cost member => sound.derived.isCost_costs cost (mem_of_mem_spreadCosts member)

theorem Sound.coarsens [LawfulCost α] :
    ∃ kept tree map, mesh.tree.balanceCoarsenFlags flags = .ok kept ∧
      mesh.tree.coarsen kept = .ok (tree, map) ∧
      (kept.size = mesh.numBlocks ∧ map.length = mesh.numBlocks ∧
        ∀ gid ∈ map, gid < tree.numLeaves) ∧
      (tree.numLeaves ≤ 2147483648 →
        (∀ group ∈ grouped tree.numLeaves map mesh.costs.toList, 1 < group.size →
          CostNumber.isCost (meanCost group.toList) = true) →
        ∃ next, mesh.coarsen flags = .ok next) := by
  have fits := BlockTree.fits_of_words words
  obtain ⟨kept, pieces, keeping, sizeKept, merging, _⟩ :=
    BlockTree.balanceCoarsenFlags_ok fits size
  obtain ⟨tree, coarsening, _, _, count, _⟩ := BlockTree.coarsen_ok fits sizeKept merging
  obtain ⟨length, covers⟩ := BlockTree.coarsen_map sizeKept merging
  have planned := plan_coarsen_ok_iff.2 ⟨kept, _, keeping, coarsening, rfl⟩
  refine ⟨kept, tree, _, keeping, coarsening, ⟨sizeKept, length, fun gid member => ?_⟩,
    fun few means => ?_⟩
  · rw [count]
    exact (covers gid).1 member
  · apply sound.exists_act words narrow (by simp) planned few
    intro cost member
    exact isCost_mergedCosts (fun gid bound => (covers gid).2 (count ▸ bound))
      (length.trans sound.derived.size_costs.symm) sound.derived.isCost_costs means member

end

theorem Sound.dependable [LawfulCost α] (sound : mesh.Sound) (words : mesh.tree.grid.Words)
    (narrow : mesh.numWorkers ≤ 2147483648) : mesh.Dependable where
  covered := ⟨sound.derived.size_costs, sound.derived.shared.ranks⟩
  inside := sound.derived.inside
  refines := fun _ size => sound.refines words narrow size
  coarsens := fun _ size => sound.coarsens words narrow size
  rebalances := by
    intro few
    have planned : mesh.plan .rebalance = .ok (mesh.tree, mesh.costs) := rfl
    exact sound.exists_act words narrow (by simp) planned few sound.derived.isCost_costs

/-- Whatever is done with a mesh, its tree stays balanced, and the next call will not fail for a reason
within the mesh. -/
theorem balanced_for_life (made : start.Made given) (smooth : ∀ tree ∈ given, tree.Balanced)
    (words : ∀ axis, start.config.rootBlocks axis < 2 ^ 64) (actions : List (Action α)) :
    (start.run actions).tree.Balanced ∧
      ∀ [LawfulCost α], start.numWorkers ≤ 2147483648 → (start.run actions).Dependable := by
  obtain ⟨sound, place⟩ := (made.sound smooth).run words actions
  refine ⟨sound.balanced, fun narrow => ?_⟩
  exact sound.dependable (sound.words (by rwa [place.config])) (by rwa [place.workers])

def squareConfig : MeshConfig where
  dim := 2
  rootBlocks := ⟨2, 2, 1⟩
  boundary := .ofFn fun face => if face.axis = Axis.x1 then .periodic else .reflect

/-- Refines the first of four blocks, makes a block beside it expensive, and merges the children. -/
def squareActions : List (Action Rat) :=
  [.refine #[true, false, false, false], .setCost 4 3, .rebalance,
    .coarsen #[true, true, true, true, false, false, false]]

/-- The second of two workers sees the corner refined and merged again. -/
theorem balanced_for_life_square : ∃ start : Mesh Rat, create squareConfig 2 1 = .ok start ∧
    (start.run (squareActions.take 3)).numBlocks = 7 ∧ (start.run squareActions).numBlocks = 4 ∧
    (start.run squareActions).tree.Balanced ∧ (start.run squareActions).Dependable := by
  have computed : ((create squareConfig 2 1 : Except (MeshError Rat) (Mesh Rat)).toOption.map
      fun start => ((start.run (squareActions.take 3)).numBlocks,
        (start.run squareActions).numBlocks)) = some (7, 4) := by
    decide +kernel
  cases made : (create squareConfig 2 1 : Except (MeshError Rat) (Mesh Rat)) with
  | error e =>
      rw [made] at computed
      cases computed
  | ok start =>
      rw [made] at computed
      obtain ⟨refined, merged⟩ := Prod.mk.inj (Option.some.inj computed)
      obtain ⟨_, _, _, _, restored⟩ := create_ok_iff.1 made
      obtain ⟨config, workers, _⟩ := place_of_restore restored
      obtain ⟨smooth, dependable⟩ := balanced_for_life (.create squareConfig 2 1 made) (by simp)
        (by rw [config]; decide) squareActions
      exact ⟨start, rfl, refined, merged, smooth, dependable (by omega)⟩

end Mesh

end AdaptiveMesh
