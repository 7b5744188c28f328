import AdaptiveMesh.Proofs.Life

/-!
# Workers in lockstep

Workers that make the same mesh and then make the same calls on it stay together. They hold the same
tree, costs and shares, so they plan the same, and since a balanced tree can be shown by every worker,
a call succeeds for all of them or fails for all with the same error. Each worker's tables are built
alone, from its own blocks, but what one worker keeps for a block of another is answered there.
-/

namespace AdaptiveMesh

set_option autoImplicit false

namespace Topology

variable {α : Type} [CostNumber α] {tree : BlockTree} {conds : BoundaryConds} {workers : Nat}
  {shares : Decomposition α} {tables : Fin workers → Topology α} {worker : Fin workers}
  {position slot : Nat} {held : Array NeighborEntry} {entry : NeighborEntry}

/-- Whether the worker that an entry names owns the block that it names, and keeps an entry for the
block at this position in the slot that it names. -/
def Answered (tables : Fin workers → Topology α) (worker : Fin workers) (position slot : Nat)
    (entry : NeighborEntry) : Prop :=
  ∃ (peer : Fin workers) (gid level other home back : Nat) (answers : Array NeighborEntry),
    (tables worker).gid? position = some gid ∧ (tables worker).level? position = some level ∧
    entry.gid = other ∧ entry.rank = peer.val ∧ entry.destn = back ∧
    (tables peer).local? other = some home ∧ (tables peer).gid? home = some other ∧
    (tables peer).slot? home back = some answers ∧
    (⟨gid, level, worker.val, slot⟩ : NeighborEntry) ∈ answers

omit [CostNumber α] in
theorem lt_of_slot? {topology : Topology α} (shown : topology.slot? position slot = some held) :
    position < topology.numBlocks ∧ slot < topology.numSlots := by
  obtain ⟨row, rowShown, slotShown⟩ := Option.bind_eq_some_iff.1 shown
  constructor
  · by_contra beyond
    rw [row?, if_neg beyond] at rowShown
    cases rowShown
  · by_contra beyond
    rw [if_neg beyond] at slotShown
    cases slotShown

variable (shared : shares.Shared tree.numLeaves workers)
  (built : ∀ worker : Fin workers,
    build tree conds (shares.range worker) shares.ranks = .ok (tables worker))

include shared built

theorem exists_shown {gid rank : Nat} {loc : Location} (found : tree.location? gid = some loc)
    (known : shares.ranks[gid]? = some rank) :
    ∃ (peer : Fin workers) (home : Nat) (row : List NeighborEntry), peer.val = rank ∧
      (tables peer).local? gid = some home ∧
      (tables peer).Shows tree shares.ranks home gid loc row := by
  have small : rank < workers := shared.small rank (Array.mem_of_getElem? known)
  have owned := (shared.owner rank small gid).2 known
  have inside := owned
  simp only [Span.contains, Bool.and_eq_true, decide_eq_true_eq] at inside
  have bound : gid - (shares.range rank).start < (shares.range rank).size := by
    rw [Span.size]
    omega
  obtain ⟨again, row, foundAgain, shows⟩ := shows_of_build (built ⟨rank, small⟩) bound
  have whole : (shares.range rank).start + (gid - (shares.range rank).start) = gid := by omega
  rw [whole] at foundAgain shows
  cases found.symm.trans foundAgain
  refine ⟨⟨rank, small⟩, _, row, rfl, ?_, shows⟩
  rw [local?, blocks_of_build (built ⟨rank, small⟩), if_pos owned]

theorem exists_owned (bound : position < (tables worker).numBlocks) :
    ∃ gid loc row, shares.ranks[gid]? = some worker.val ∧ tree.location? gid = some loc ∧
      (tables worker).Shows tree shares.ranks position gid loc row := by
  rw [numBlocks, blocks_of_build (built worker)] at bound
  obtain ⟨loc, row, block, shows⟩ := shows_of_build (built worker) bound
  refine ⟨_, loc, row, (shared.owner worker worker.isLt _).1 ?_, block, shows⟩
  simp only [Span.contains, Bool.and_eq_true, decide_eq_true_eq]
  rw [Span.size] at bound
  omega

/-- Tables that workers build for their shares of a tree answer each other. -/
theorem answered_of_build (fits : tree.Fits)
    (shown : (tables worker).slot? position slot = some held)
    (member : entry ∈ held) (present : entry.isPresent = true) :
    Answered tables worker position slot entry := by
  obtain ⟨bound, few⟩ := lt_of_slot? shown
  rw [numSlots, dim_of_build (built worker)] at few
  obtain ⟨gid, loc, row, owned, block, shows⟩ := exists_owned shared built bound
  rw [shows.slotShown slot few, Option.some.injEq] at shown
  rw [← shown, List.mem_toArray] at member
  obtain ⟨_, _, _, _, holds⟩ := (BlockTree.row_slots fits block shows.run).2 slot few
  obtain ⟨other, place, rank, found, known, named⟩ := holds.names member present
  obtain ⟨peer, home, rowPeer, isRank, isLocal, showsPeer⟩ :=
    exists_shown shared built found known
  obtain ⟨r, back, _, _, holdsHere, answering⟩ :=
    BlockTree.exists_reverse_slots fits block found shows.run showsPeer.run few
  obtain ⟨toward, rankBack, knownBack, answer⟩ :=
    holdsHere.answered fits block found answering member (by rw [named])
  cases owned.symm.trans knownBack
  have fewBack := BlockTree.slot_lt_of_mem (BlockTree.row_slots fits found showsPeer.run).1 answer
  exact ⟨peer, gid, loc.level, other, home, back, _, shows.gidShown, shows.levelShown, by rw [named],
    by rw [named, isRank], toward, isLocal, showsPeer.gidShown, showsPeer.slotShown back fewBack,
    List.mem_toArray.2 answer⟩

end Topology

namespace Mesh

variable {α : Type} [CostNumber α] {a b aNext bNext : Mesh α} {config : MeshConfig} {tree : BlockTree}
  {balanced costs : Array α} {workers rank other : Nat} {meshes : Fin workers → Mesh α}
  {action : Action α}

structure Agrees (a b : Mesh α) : Prop where
  config : a.config = b.config
  tree : a.tree = b.tree
  costs : a.costs = b.costs
  balanced : a.balanced = b.balanced
  decomposition : a.decomposition = b.decomposition

theorem Agrees.plan (agree : a.Agrees b) (action : Action α) : a.plan action = b.plan action := by
  cases action <;> simp only [Mesh.plan, agree.tree, agree.costs]

theorem agrees_of_assemble (first : assemble config tree balanced costs workers rank = .ok a)
    (second : assemble config tree balanced costs workers other = .ok b) : a.Agrees b := by
  obtain ⟨shares, _, sharing, _, rfl⟩ := assemble_ok_iff.1 first
  obtain ⟨again, _, sharingAgain, _, rfl⟩ := assemble_ok_iff.1 second
  cases sharing.symm.trans sharingAgain
  exact ⟨rfl, rfl, rfl, rfl, rfl⟩

theorem Agrees.act (agree : a.Agrees b) (first : a.act action = .ok aNext)
    (second : b.act action = .ok bNext) : aNext.Agrees bNext := by
  by_cases changes : ∃ gid cost, action = .setCost gid cost
  · obtain ⟨gid, cost, rfl⟩ := changes
    obtain ⟨_, _, rfl⟩ := setCost_ok_iff.1 first
    obtain ⟨_, _, rfl⟩ := setCost_ok_iff.1 second
    exact ⟨agree.config, agree.tree, by rw [agree.costs], agree.balanced, agree.decomposition⟩
  · have rebuilds (gid : Nat) (cost : α) : action ≠ .setCost gid cost :=
      fun same => changes ⟨gid, cost, same⟩
    rw [act_eq_rebuild rebuilds] at first second
    obtain ⟨planned, planning, firstBuilt⟩ := Outcome.bind_ok_iff.1 first
    obtain ⟨again, planningAgain, secondBuilt⟩ := Outcome.bind_ok_iff.1 second
    rw [agree.plan] at planning
    cases planning.symm.trans planningAgain
    rw [rebuild, numWorkers, agree.config, agree.decomposition] at firstBuilt
    exact agrees_of_assemble firstBuilt secondBuilt

/-- Whether a step succeeds for all workers, or fails for all with the same error. -/
def OneOutcome {ε β : Type} (results : Fin workers → Except ε β) : Prop :=
  (∃ error, ∀ worker, results worker = .error error) ∨
    ∀ worker, ∃ value, results worker = .ok value

/-- A balanced tree can be shared out for all workers or for none. -/
theorem oneOutcome_assemble (config : MeshConfig) (costs : Array α) (fits : tree.Fits)
    (smooth : tree.Balanced) (size : balanced.size = tree.numLeaves)
    (few : tree.numLeaves ≤ 2147483648) (narrow : workers ≤ 2147483648) :
    OneOutcome fun worker : Fin workers =>
      assemble config tree balanced costs workers worker := by
  cases sharing : Decomposition.ofCosts balanced workers with
  | error e =>
      refine .inl ⟨.decompose e, fun worker => ?_⟩
      simp only [assemble, sharing]
      rfl
  | ok shares =>
      exact .inr fun worker =>
        exists_assemble config costs fits smooth size few narrow sharing worker.isLt

structure InStep (meshes : Fin workers → Mesh α) : Prop where
  sound : ∀ worker, (meshes worker).Sound
  rank : ∀ worker, (meshes worker).rank = worker
  workers : ∀ worker, (meshes worker).numWorkers = workers
  agree : ∀ worker peer, (meshes worker).Agrees (meshes peer)

theorem oneOutcome_setCost {count : Nat} (blocks : ∀ worker, (meshes worker).numBlocks = count)
    (gid : Nat) (cost : α) : OneOutcome fun worker => (meshes worker).setCost gid cost := by
  by_cases beyond : count ≤ gid
  · refine .inl ⟨.decompose (.invalidGid gid count), fun worker => ?_⟩
    simp only [setCost, blocks, if_pos beyond]
  · by_cases valid : CostNumber.isCost cost = true
    · refine .inr fun worker => ⟨_, setCost_ok_iff.2 ⟨?_, valid, rfl⟩⟩
      rw [blocks]
      omega
    · refine .inl ⟨.decompose (.invalidCost gid cost), fun worker => ?_⟩
      simp only [setCost, blocks, if_neg beyond, valid, Bool.not_false, if_true]

theorem InStep.oneOutcome (inStep : InStep meshes)
    (words : ∀ worker, (meshes worker).tree.grid.Words) (narrow : workers ≤ 2147483648)
    (few : ∀ worker, (meshes worker).plannedBlocks action ≤ 2147483648) :
    OneOutcome fun worker => (meshes worker).act action := by
  by_cases idle : workers = 0
  · subst idle
    exact .inr fun worker => worker.elim0
  · have first : Fin workers := ⟨0, Nat.pos_of_ne_zero idle⟩
    have agree (worker : Fin workers) := inStep.agree worker first
    by_cases changes : ∃ gid cost, action = .setCost gid cost
    · obtain ⟨gid, cost, rfl⟩ := changes
      have blocks (worker : Fin workers) : (meshes worker).numBlocks = (meshes first).numBlocks := by
        rw [numBlocks, (agree worker).tree]
        rfl
      exact oneOutcome_setCost blocks gid cost
    · have rebuilds (gid : Nat) (cost : α) : action ≠ .setCost gid cost :=
        fun same => changes ⟨gid, cost, same⟩
      have acts (worker : Fin workers) : (meshes worker).act action =
          (meshes first).plan action >>= fun planned =>
            assemble (meshes first).config planned.1 planned.2 planned.2 workers worker := by
        rw [act_eq_rebuild rebuilds, (agree worker).plan]
        simp only [rebuild, inStep.workers, inStep.rank, (agree worker).config]
      simp only [acts]
      cases planned : (meshes first).plan action with
      | error e => exact .inl ⟨e, fun worker => rfl⟩
      | ok made =>
          obtain ⟨tree, costs⟩ := made
          obtain ⟨grid, smooth, size⟩ := (inStep.sound first).plan (words first) planned
          have count : tree.numLeaves ≤ 2147483648 := by
            have bound := few first
            rwa [plannedBlocks, planned] at bound
          exact oneOutcome_assemble _ costs (BlockTree.fits_of_words (grid ▸ words first)) smooth
            size count narrow

theorem InStep.after (inStep : InStep meshes)
    (words : ∀ worker, (meshes worker).tree.grid.Words)
    (one : OneOutcome fun worker => (meshes worker).act action) :
    InStep fun worker => (meshes worker).after action := by
  refine ⟨fun worker => ?_, fun worker => ?_, fun worker => ?_, fun worker peer => ?_⟩
  · exact ((inStep.sound worker).after (words worker) action).1
  · rw [((inStep.sound worker).after (words worker) action).2.rank]
    exact inStep.rank worker
  · rw [((inStep.sound worker).after (words worker) action).2.workers]
    exact inStep.workers worker
  · rcases one with ⟨e, failed⟩ | done
    · simp only [Mesh.after, failed]
      exact inStep.agree worker peer
    · obtain ⟨mine, first⟩ := done worker
      obtain ⟨other, second⟩ := done peer
      simp only [Mesh.after, first, second]
      exact (inStep.agree worker peer).act first second

/-- Whether no call of a sequence leaves more blocks than an entry can number. -/
def Numbered (mesh : Mesh α) : List (Action α) → Prop
  | [] => True
  | action :: rest => mesh.plannedBlocks action ≤ 2147483648 ∧ (mesh.after action).Numbered rest

def decideNumbered (mesh : Mesh α) : (actions : List (Action α)) → Decidable (mesh.Numbered actions)
  | [] => .isTrue trivial
  | action :: rest =>
      have := (mesh.after action).decideNumbered rest
      inferInstanceAs (Decidable (_ ∧ _))

instance (mesh : Mesh α) (actions : List (Action α)) : Decidable (mesh.Numbered actions) :=
  mesh.decideNumbered actions

/-- Workers stay in step through any sequence of calls, each of which has one outcome for all. -/
theorem InStep.run (inStep : InStep meshes) (narrow : workers ≤ 2147483648)
    (words : ∀ worker, ∀ axis, (meshes worker).config.rootBlocks axis < 2 ^ 64)
    {actions : List (Action α)} (numbered : ∀ worker, (meshes worker).Numbered actions) :
    (∀ done rest, actions = done ++ rest → InStep fun worker => (meshes worker).run done) ∧
      ∀ done action rest, actions = done ++ action :: rest →
        OneOutcome fun worker => ((meshes worker).run done).act action := by
  induction actions generalizing meshes with
  | nil =>
      constructor
      · intro done rest split
        rw [(List.append_eq_nil_iff.1 split.symm).1]
        exact inStep
      · intro done action rest split
        cases done <;> cases split
  | cons action rest ih =>
      have grids (worker : Fin workers) := (inStep.sound worker).words (words worker)
      -- the first call has one outcome, so the meshes after it are in step again
      have one := inStep.oneOutcome grids narrow fun worker => (numbered worker).1
      have later (worker : Fin workers) (axis : Axis) :
          ((meshes worker).after action).config.rootBlocks axis < 2 ^ 64 := by
        rw [((inStep.sound worker).after (grids worker) action).2.config]
        exact words worker axis
      obtain ⟨states, outcomes⟩ :=
        ih (inStep.after grids one) later fun worker => (numbered worker).2
      constructor
      · intro done others split
        cases done with
        | nil => exact inStep
        | cons first done =>
            cases split
            exact states done others rfl
      · intro done next others split
        cases done with
        | nil =>
            cases split
            exact one
        | cons first done =>
            cases split
            exact outcomes done next others rfl

theorem restore_eq (described : config.rootGrid = .ok tree.grid)
    (sizes : balanced.size = tree.numLeaves) (size : costs.size = tree.numLeaves)
    (below : rank < workers) : restore config tree balanced costs workers rank =
      checkCosts costs >>= fun _ => assemble config tree balanced costs workers rank := by
  rw [restore, if_neg (Nat.not_le.2 below), described]
  simp only [lift, bind, Except.bind, ne_eq, not_true_eq_false, if_false, sizes, size]

theorem oneOutcome_restore (fits : tree.Fits) (smooth : tree.Balanced)
    (described : config.rootGrid = .ok tree.grid) (sizes : balanced.size = tree.numLeaves)
    (size : costs.size = tree.numLeaves) (few : tree.numLeaves ≤ 2147483648)
    (narrow : workers ≤ 2147483648) : OneOutcome fun worker : Fin workers =>
      restore config tree balanced costs workers worker := by
  simp only [restore_eq described sizes size (Fin.isLt _)]
  cases checkCosts costs with
  | error e => exact .inl ⟨e, fun worker => rfl⟩
  | ok => exact oneOutcome_assemble config costs fits smooth sizes few narrow

theorem oneOutcome_create (config : MeshConfig) (narrow : workers ≤ 2147483648)
    (few : config.rootBlocks.x1 * config.rootBlocks.x2 * config.rootBlocks.x3 ≤ 2147483648) :
    OneOutcome fun worker : Fin workers =>
      (create config workers worker : Except (MeshError α) (Mesh α)) := by
  unfold create
  cases described : config.rootGrid with
  | error e => exact .inl ⟨.config e, fun worker => rfl⟩
  | ok grid =>
      cases built : BlockTree.uniform grid with
      | error e =>
          refine .inl ⟨.tree e, fun worker => ?_⟩
          simp only [lift, bind, Except.bind, built]
      | ok tree =>
          simp only [lift, bind, Except.bind, built]
          obtain ⟨rfl, smooth⟩ := BlockTree.balanced_uniform built
          have words := MeshConfig.words_of_few described few
          have count : tree.numLeaves ≤ 2147483648 := by
            rw [(BlockTree.ofLeaves_spec built).2.1, RootGrid.length_rootLocations,
              RootGrid.numRootBlocks, MeshConfig.blocks_of_rootGrid described]
            exact few
          exact oneOutcome_restore (BlockTree.fits_of_words words) smooth described
            Array.size_replicate Array.size_replicate count narrow

/-- Whether the workers hold the same mesh, own its blocks between them in rank order, and answer each
other's entries. -/
structure Consistent (meshes : Fin workers → Mesh α) : Prop where
  tree : ∀ worker peer, (meshes worker).tree = (meshes peer).tree
  costs : ∀ worker peer, (meshes worker).costs = (meshes peer).costs
  balanced : ∀ worker peer, (meshes worker).balanced = (meshes peer).balanced
  decomposition : ∀ worker peer, (meshes worker).decomposition = (meshes peer).decomposition
  partition : ∀ worker, (List.finRange workers).flatMap (fun peer =>
    (meshes peer).topology.blocks.toList) = List.range (meshes worker).numBlocks
  answered : ∀ worker position slot held entry,
    (meshes worker).topology.slot? position slot = some held → entry ∈ held →
      entry.isPresent = true →
        Topology.Answered (fun peer => (meshes peer).topology) worker position slot entry

theorem InStep.consistent (inStep : InStep meshes)
    (words : ∀ worker, (meshes worker).tree.grid.Words) : Consistent meshes := by
  refine ⟨fun worker peer => (inStep.agree worker peer).tree,
    fun worker peer => (inStep.agree worker peer).costs,
    fun worker peer => (inStep.agree worker peer).balanced,
    fun worker peer => (inStep.agree worker peer).decomposition, fun worker => ?_,
    fun worker position slot held entry shown member present => ?_⟩
  · have blocks (peer : Fin workers) : (meshes peer).topology.blocks =
        (meshes worker).decomposition.range peer := by
      rw [(inStep.sound peer).derived.blocks, (inStep.agree peer worker).decomposition,
        inStep.rank peer]
    have order : (List.finRange workers).map Fin.val = List.range workers :=
      List.ext_getElem (by simp) (by simp)
    have shared := (inStep.sound worker).derived.shared
    rw [inStep.workers] at shared
    simp only [blocks]
    rw [← shared.partition, ← order, List.flatMap_map]
  · choose tables built using fun peer => (inStep.sound peer).derived.exists_built
    have topologies : (fun peer => (meshes peer).topology) =
        fun peer => withLocalCosts (tables peer) (meshes peer).costs := by
      funext peer
      exact (built peer).2.2
    have shared := (inStep.sound worker).derived.shared
    rw [inStep.workers] at shared
    have building (peer : Fin workers) : Topology.build (meshes worker).tree
        (meshes worker).config.boundary ((meshes worker).decomposition.range peer)
        (meshes worker).decomposition.ranks = .ok (tables peer) := by
      have run := (built peer).2.1
      have agree := inStep.agree peer worker
      rwa [inStep.rank, agree.tree, agree.config, agree.decomposition] at run
    rw [(built worker).2.2] at shown
    have answered : Topology.Answered tables worker position slot entry :=
      Topology.answered_of_build shared building (BlockTree.fits_of_words (words worker)) shown member
        present
    rw [topologies]
    -- the entries do not depend on the costs
    exact answered

theorem inStep_of_create (config : MeshConfig)
    (made : ∀ worker : Fin workers, create config workers worker = .ok (meshes worker)) :
    InStep meshes := by
  refine ⟨fun worker => (Made.create config workers worker (made worker)).sound (by simp),
    fun worker => ?_, fun worker => ?_, fun worker peer => ?_⟩
  · obtain ⟨_, _, _, _, restored⟩ := create_ok_iff.1 (made worker)
    exact (place_of_restore restored).2.2
  · obtain ⟨_, _, _, _, restored⟩ := create_ok_iff.1 (made worker)
    exact (place_of_restore restored).2.1
  · obtain ⟨_, _, described, built, first⟩ := create_ok_iff.1 (made worker)
    obtain ⟨_, _, describedAgain, builtAgain, second⟩ := create_ok_iff.1 (made peer)
    cases described.symm.trans describedAgain
    cases built.symm.trans builtAgain
    exact agrees_of_assemble (restore_ok_iff.1 first).2.2.2.2.2 (restore_ok_iff.1 second).2.2.2.2.2

/-- Workers that create a mesh and make the same calls on it all succeed or all fail alike, at every
step, and hold a consistent mesh before and after it. -/
theorem workers_in_lockstep (config : MeshConfig) (narrow : workers ≤ 2147483648)
    (few : config.rootBlocks.x1 * config.rootBlocks.x2 * config.rootBlocks.x3 ≤ 2147483648) :
    OneOutcome (fun worker : Fin workers =>
      (create config workers worker : Except (MeshError α) (Mesh α))) ∧
    ∀ (meshes : Fin workers → Mesh α) (actions : List (Action α)),
      (∀ worker : Fin workers, create config workers worker = .ok (meshes worker)) →
      (∀ worker, (meshes worker).Numbered actions) →
        (∀ done rest, actions = done ++ rest →
          Consistent fun worker => (meshes worker).run done) ∧
        ∀ done action rest, actions = done ++ action :: rest →
          OneOutcome fun worker => ((meshes worker).run done).act action := by
  refine ⟨oneOutcome_create config narrow few, fun meshes actions made numbered => ?_⟩
  have inStep := inStep_of_create config made
  have words (worker : Fin workers) (axis : Axis) :
      (meshes worker).config.rootBlocks axis < 2 ^ 64 := by
    have described := (inStep.sound worker).described
    obtain ⟨_, _, _, _, restored⟩ := create_ok_iff.1 (made worker)
    have same := (place_of_restore restored).1
    rw [← MeshConfig.blocks_of_rootGrid described]
    exact MeshConfig.words_of_few described (by rwa [same]) axis
  obtain ⟨states, outcomes⟩ := inStep.run narrow words numbered
  refine ⟨fun done rest split => (states done rest split).consistent fun worker => ?_, outcomes⟩
  obtain ⟨sound, place⟩ := (inStep.sound worker).run (words worker) done
  exact sound.words fun axis => by rw [place.config]; exact words worker axis

/-- Two workers that refine a corner and merge it again. In between, the second one has a block beside
the corner and keeps entries for finer blocks of the first. -/
theorem workers_in_lockstep_square : ∃ meshes : Fin 2 → Mesh Rat,
    (∀ worker : Fin 2, create squareConfig 2 worker = .ok (meshes worker)) ∧
    (∃ held, ((meshes 1).run (squareActions.take 3)).topology.slot? 0 0 = some held ∧
      ⟨1, 2, 0, 1⟩ ∈ held) ∧
    (Consistent fun worker => (meshes worker).run (squareActions.take 3)) ∧
    OneOutcome fun worker => ((meshes worker).run (squareActions.take 3)).act
      (.coarsen #[true, true, true, true, false, false, false]) := by
  have computed : ∀ worker : Fin 2,
      ((create squareConfig 2 worker : Except (MeshError Rat) (Mesh Rat)).toOption.any fun mesh =>
        decide (mesh.Numbered squareActions)) = true := by
    decide +kernel
  have created (worker : Fin 2) : ∃ mesh : Mesh Rat,
      create squareConfig 2 worker = .ok mesh ∧ mesh.Numbered squareActions := by
    have here := computed worker
    cases made : (create squareConfig 2 worker : Except (MeshError Rat) (Mesh Rat)) with
    | error e =>
        rw [made] at here
        cases here
    | ok mesh =>
        rw [made, Except.toOption, Option.any_some, decide_eq_true_eq] at here
        exact ⟨mesh, rfl, here⟩
  choose meshes made numbered using created
  have shown : ((create squareConfig 2 1 : Except (MeshError Rat) (Mesh Rat)).toOption.bind
      fun mesh => (mesh.run (squareActions.take 3)).topology.slot? 0 0) =
        some #[⟨1, 2, 0, 1⟩, ⟨3, 2, 0, 1⟩] := by
    decide +kernel
  have second : create squareConfig 2 1 = .ok (meshes 1) := made 1
  rw [second, Except.toOption, Option.bind_some] at shown
  obtain ⟨states, outcomes⟩ := (workers_in_lockstep squareConfig (by decide) (by decide)).2
    meshes squareActions made numbered
  have split : squareActions = squareActions.take 3 ++
      .coarsen #[true, true, true, true, false, false, false] :: [] := rfl
  exact ⟨meshes, made, ⟨_, shown, by simp⟩,
    states (squareActions.take 3) _ split, outcomes (squareActions.take 3) _ [] split⟩

end Mesh

end AdaptiveMesh
