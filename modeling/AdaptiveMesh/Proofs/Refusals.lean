import AdaptiveMesh.Proofs.LevelJumps
import AdaptiveMesh.Proofs.Lockstep

/-!
# Refusals

A mesh on a given tree is refused by all workers with the same error, or each worker decides by its own
blocks: it accepts exactly if none of them touches another block more than one level away. So no
unbalanced tree is accepted by all workers, but some may accept it, depending on how the blocks are shared
out. Only for a balanced tree, or for one that nobody accepts, is the answer of one worker the answer of
all.
-/

namespace AdaptiveMesh

set_option autoImplicit false

namespace Topology

variable {α : Type} [CostNumber α] {tree : BlockTree} {blocks : Span} {ranks : Array Nat}

theorem build_of_error {conds : BoundaryConds} {gids : List Int} {failure : TopologyError}
    (ordered : blocks.start ≤ blocks.stop) (inside : blocks.stop ≤ tree.numLeaves)
    (covered : ranks.size = tree.numLeaves)
    (numbered : blocks.toList.mapM NeighborEntry.field = .ok gids)
    (run : (located tree blocks).mapM (fun (loc, gid) => tree.rowAt ranks gid loc) =
      .error failure) :
    (build tree conds blocks ranks : Except TopologyError (Topology α)) = .error failure := by
  rw [located] at run
  simp only [build, Bool.or_eq_true, decide_eq_true_eq, Nat.not_lt.2 ordered, Nat.not_lt.2 inside,
    or_self, if_false, covered, ne_eq, not_true_eq_false, numbered, run, bind, Except.bind]

/-- The tables of a span can be built, or a block of the span is refused its row for a level jump, and
the tables with it. -/
theorem build_ok_or_jump (fits : tree.Fits) (few : tree.numLeaves ≤ 2147483648)
    (covered : ranks.size = tree.numLeaves) (small : ∀ rank ∈ ranks, rank < 2147483648)
    (ordered : blocks.start ≤ blocks.stop) (inside : blocks.stop ≤ tree.numLeaves)
    (conds : BoundaryConds) :
    (∃ topology : Topology α, build tree conds blocks ranks = .ok topology) ∨
      ∃ gid loc neighbor, blocks.contains gid = true ∧ tree.location? gid = some loc ∧
        tree.Jumps loc ∧
        (build tree conds blocks ranks : Except TopologyError (Topology α)) =
          .error (.levelJump gid neighbor) := by
  obtain ⟨gids, gidsRun⟩ := exists_gids few inside
  cases run : (located tree blocks).mapM fun (loc, gid) => tree.rowAt ranks gid loc with
  | ok rows =>
      left
      exact ⟨_, build_ok_iff.2 ⟨ordered, inside, covered, gids, rows, gidsRun, run, rfl⟩⟩
  | error failure =>
      right
      obtain ⟨⟨loc, gid⟩, member, failed⟩ := Outcome.exists_of_mapM_error run
      have block : tree.location? gid = some loc := mem_located inside member
      have refusedRow : tree.rowAt ranks gid loc = .error failure := failed
      have among := (List.of_mem_zip member).2
      rw [Span.mem_toList] at among
      have refused : (build tree conds blocks ranks : Except TopologyError (Topology α)) =
          .error failure := build_of_error ordered inside covered gidsRun run
      cases BlockTree.row_ok_or_jump fits few covered small block with
      | inl made =>
          obtain ⟨row, made⟩ := made
          rw [BlockTree.row?, block, Option.map_some, refusedRow] at made
          cases made
      | inr jumped =>
          obtain ⟨⟨neighbor, jump⟩, jumps⟩ := jumped
          rw [BlockTree.row?, block, Option.map_some, refusedRow] at jump
          cases jump
          exact ⟨gid, loc, neighbor, among, block, jumps, refused⟩

theorem not_jumps_of_build {topology : Topology α} {conds : BoundaryConds} {gid : Nat}
    {loc : Location} (fits : tree.Fits) (built : build tree conds blocks ranks = .ok topology)
    (among : blocks.contains gid = true) (block : tree.location? gid = some loc) :
    ¬tree.Jumps loc := by
  simp only [Span.contains, Bool.and_eq_true, decide_eq_true_eq] at among
  have bound : gid - blocks.start < blocks.size := by
    rw [Span.size]
    omega
  obtain ⟨again, row, found, shows⟩ := shows_of_build built bound
  rw [show blocks.start + (gid - blocks.start) = gid by omega] at found shows
  cases found.symm.trans block
  exact BlockTree.not_jumps_of_row fits block shows.run

end Topology

/-- Whether no block of a worker touches another block more than one level away. -/
def BlockTree.Calm (tree : BlockTree) (owners : Array Nat) (worker : Nat) : Prop :=
  ∀ gid loc, owners[gid]? = some worker → tree.location? gid = some loc → ¬tree.Jumps loc

/-- Every block has an owner, so a tree is balanced if the shares of all workers are calm. -/
theorem BlockTree.balanced_iff_calm {α : Type} {tree : BlockTree} {shares : Decomposition α}
    {workers : Nat} (shared : shares.Shared tree.numLeaves workers) :
    tree.Balanced ↔ ∀ worker : Fin workers, tree.Calm shares.ranks worker := by
  rw [balanced_iff]
  constructor
  · intro calm worker gid loc _ block
    exact calm loc (mem_locations_iff.2 ⟨gid, block⟩)
  · intro calm loc member
    obtain ⟨gid, block⟩ := mem_locations_iff.1 member
    have inside : gid < shares.ranks.size := by
      rw [shared.ranks]
      exact location?_lt block
    have owned := Array.getElem?_eq_getElem inside
    exact calm ⟨_, shared.small _ (Array.getElem_mem inside)⟩ gid loc owned block

namespace Mesh

variable {α : Type} [CostNumber α] {config : MeshConfig} {tree : BlockTree}
  {balanced costs : Array α} {workers : Nat}

/-- Whether a worker can make the mesh that has these parts. A mesh made from a tree has one list of
costs, a checkpoint keeps two. -/
def Accepts (config : MeshConfig) (tree : BlockTree) (balanced costs : Array α)
    (workers worker : Nat) : Prop :=
  ∃ mesh, restore config tree balanced costs workers worker = .ok mesh

structure Decides (config : MeshConfig) (tree : BlockTree) (balanced costs : Array α)
    (workers : Nat) (shares : Decomposition α) (worker : Nat) : Prop where
  accepts_iff : Accepts config tree balanced costs workers worker ↔ tree.Calm shares.ranks worker
  refused : ¬Accepts config tree balanced costs workers worker →
    ∃ gid neighbor, shares.ranks[gid]? = some worker ∧
      restore config tree balanced costs workers worker =
        .error (.topology (.levelJump gid neighbor))

/-- The shares that all workers compute alike, after what they check alike. -/
def sharesOf (config : MeshConfig) (tree : BlockTree) (balanced costs : Array α) (workers : Nat) :
    Except (MeshError α) (Decomposition α) := do
  if tree.grid ≠ (← lift .config config.rootGrid) then throw .gridMismatch
  if balanced.size ≠ tree.numLeaves then throw (.costCount tree.numLeaves balanced.size)
  if costs.size ≠ tree.numLeaves then throw (.costCount tree.numLeaves costs.size)
  checkCosts costs
  lift .decompose (Decomposition.ofCosts balanced workers)

theorem sharesOf_ok_iff {shares : Decomposition α} :
    sharesOf config tree balanced costs workers = .ok shares ↔
      config.rootGrid = .ok tree.grid ∧ balanced.size = tree.numLeaves ∧
        costs.size = tree.numLeaves ∧ checkCosts costs = .ok () ∧
        Decomposition.ofCosts balanced workers = .ok shares := by
  simp only [sharesOf, Outcome.check_ok_iff, Outcome.bind_ok_iff, lift_ok_iff, not_not]
  constructor
  · intro run
    obtain ⟨grid, described, same, sizes, size, _, valid, sharing⟩ := run
    exact ⟨same ▸ described, sizes, size, valid, sharing⟩
  · intro checked
    obtain ⟨described, sizes, size, valid, sharing⟩ := checked
    exact ⟨tree.grid, described, rfl, sizes, size, (), valid, sharing⟩

/-- Below the number of workers, the worker itself only matters once the shares are known. -/
theorem restore_eq_sharesOf (worker : Fin workers) :
    restore config tree balanced costs workers worker =
      sharesOf config tree balanced costs workers >>= fun shares => do
        let topology ← lift .topology
          (Topology.build tree config.boundary (shares.range worker) shares.ranks)
        return ⟨config, tree, costs, balanced, shares, worker, withLocalCosts topology costs⟩ := by
  rw [restore, sharesOf, if_neg (Nat.not_le.2 worker.isLt)]
  cases lift MeshError.config config.rootGrid with
  | error e => rfl
  | ok grid =>
      simp only [bind, Except.bind, assemble]
      by_cases mismatch : tree.grid ≠ grid
      · simp only [if_pos mismatch]
        rfl
      · simp only [if_neg mismatch]
        by_cases sizes : balanced.size ≠ tree.numLeaves
        · simp only [if_pos sizes]
          rfl
        · simp only [if_neg sizes]
          by_cases size : costs.size ≠ tree.numLeaves
          · simp only [if_pos size]
            rfl
          · simp only [if_neg size]
            cases checkCosts costs with
            | error e => rfl
            | ok done => rfl

section

variable (words : tree.grid.Words) (few : tree.numLeaves ≤ 2147483648)
  (narrow : workers ≤ 2147483648)

include words few narrow

theorem decides_of_sharesOf {shares : Decomposition α}
    (shared : sharesOf config tree balanced costs workers = .ok shares) (worker : Fin workers) :
    Decides config tree balanced costs workers shares worker := by
  have restored : restore config tree balanced costs workers worker =
      sharesOf config tree balanced costs workers >>= _ := restore_eq_sharesOf worker
  rw [shared] at restored
  obtain ⟨_, sizes, _, _, sharing⟩ := sharesOf_ok_iff.1 shared
  have spans := Decomposition.shared_of_ofCosts sharing
  rw [sizes] at spans
  obtain ⟨ordered, inside⟩ := spans.ordered worker worker.isLt
  have owner (gid : Nat) := spans.owner worker worker.isLt gid
  have fits := BlockTree.fits_of_words words
  have small (rank : Nat) (member : rank ∈ shares.ranks) : rank < 2147483648 :=
    Nat.lt_of_lt_of_le (spans.small rank member) narrow
  cases Topology.build_ok_or_jump (α := α) fits few spans.ranks small ordered inside
      config.boundary with
  | inl built =>
      obtain ⟨topology, built⟩ := built
      have accepted : Accepts config tree balanced costs workers worker := by
        refine ⟨⟨config, tree, costs, balanced, shares, worker, withLocalCosts topology costs⟩, ?_⟩
        rw [restored]
        simp only [bind, Except.bind, built, lift]
        rfl
      have calm : tree.Calm shares.ranks worker := fun gid loc owned block =>
        Topology.not_jumps_of_build fits built ((owner gid).2 owned) block
      exact ⟨iff_of_true accepted calm, fun refused => absurd accepted refused⟩
  | inr jumped =>
      obtain ⟨gid, loc, neighbor, among, block, jumps, failed⟩ := jumped
      have owned := (owner gid).1 among
      have refused : restore config tree balanced costs workers worker =
          .error (.topology (.levelJump gid neighbor)) := by
        rw [restored]
        simp only [bind, Except.bind, failed, lift]
      have rejected : ¬Accepts config tree balanced costs workers worker := by
        intro accepted
        obtain ⟨mesh, made⟩ := accepted
        rw [refused] at made
        cases made
      have uneasy : ¬tree.Calm shares.ranks worker := fun calm => calm gid loc owned block jumps
      exact ⟨iff_of_false rejected uneasy, fun _ => ⟨gid, neighbor, owned, refused⟩⟩

theorem all_accept_iff_balanced {shares : Decomposition α}
    (shared : sharesOf config tree balanced costs workers = .ok shares) :
    (∀ worker : Fin workers, Accepts config tree balanced costs workers worker) ↔
      tree.Balanced := by
  obtain ⟨_, sizes, _, _, sharing⟩ := sharesOf_ok_iff.1 shared
  have spans := Decomposition.shared_of_ofCosts sharing
  rw [sizes] at spans
  rw [BlockTree.balanced_iff_calm spans]
  exact forall_congr' fun worker => (decides_of_sharesOf words few narrow shared worker).accepts_iff

/-- A worker's answer is the answer of all workers exactly if the tree is balanced or nobody accepts it.
Either all refuse alike, or each accepts if its own blocks are calm and refuses one of them otherwise. -/
theorem acceptance_by_share (config : MeshConfig) (balanced costs : Array α) :
    ((∀ worker peer : Fin workers, Accepts config tree balanced costs workers worker →
        Accepts config tree balanced costs workers peer) ↔
      tree.Balanced ∨ ∀ worker : Fin workers, ¬Accepts config tree balanced costs workers worker) ∧
    ((∃ error, ∀ worker : Fin workers,
        restore config tree balanced costs workers worker = .error error) ∨
      ∃ shares, Decomposition.ofCosts balanced workers = .ok shares ∧
        ∀ worker : Fin workers, Decides config tree balanced costs workers shares worker) := by
  cases shared : sharesOf config tree balanced costs workers with
  | error e =>
      have failed (worker : Fin workers) :
          restore config tree balanced costs workers worker = .error e := by
        rw [restore_eq_sharesOf, shared]
        rfl
      have rejected (worker : Fin workers) :
          ¬Accepts config tree balanced costs workers worker := by
        intro accepted
        obtain ⟨mesh, made⟩ := accepted
        rw [failed] at made
        cases made
      refine ⟨iff_of_true ?_ (.inr rejected), .inl ⟨e, failed⟩⟩
      intro worker peer accepted
      exact absurd accepted (rejected worker)
  | ok shares =>
      have all_iff := all_accept_iff_balanced words few narrow shared
      refine ⟨?_, .inr ⟨shares, (sharesOf_ok_iff.1 shared).2.2.2.2,
        decides_of_sharesOf words few narrow shared⟩⟩
      constructor
      · intro uniform
        by_cases accepted : ∃ worker : Fin workers,
            Accepts config tree balanced costs workers worker
        · obtain ⟨worker, accepted⟩ := accepted
          exact .inl (all_iff.1 fun peer => uniform worker peer accepted)
        · exact .inr fun worker here => accepted ⟨worker, here⟩
      · intro settled worker peer accepted
        cases settled with
        | inl smooth => exact all_iff.2 smooth peer
        | inr rejected => exact absurd accepted (rejected worker)

end

def lineGrid : RootGrid where
  dim := 1
  blocks := ⟨2, 1, 1⟩
  periodic := .fill false
  one_le_dim := by decide
  dim_le_three := by decide
  blocks_pos := by decide
  blocks_degenerate := by decide
  active_of_periodic := by decide

def lineConfig : MeshConfig := ⟨1, ⟨2, 1, 1⟩, .fill .outflow⟩

/-- The first root block is refined twice towards the second, so that the last two leaves touch and
differ by two levels. -/
def stairLeaves : List Location :=
  [⟨2, ⟨0, 0, 0⟩⟩, ⟨3, ⟨2, 0, 0⟩⟩, ⟨3, ⟨3, 0, 0⟩⟩, ⟨1, ⟨1, 0, 0⟩⟩]

def stairCosts : Array Rat := Array.replicate 4 1

private theorem exists_stair : ∃ tree, BlockTree.ofLeaves lineGrid stairLeaves = .ok tree ∧
    tree.grid = lineGrid ∧ tree.numLeaves = 4 ∧
    Accepts lineConfig tree stairCosts stairCosts 2 0 ∧
    restore lineConfig tree stairCosts stairCosts 2 1 =
      .error (.topology (.levelJump 2 ⟨1, ⟨1, 0, 0⟩⟩)) := by
  have computed : (BlockTree.ofLeaves lineGrid stairLeaves).toOption.any (fun tree =>
      tree.grid = lineGrid && tree.numLeaves = 4 &&
        (restore lineConfig tree stairCosts stairCosts 2 0).isOk &&
        match restore lineConfig tree stairCosts stairCosts 2 1 with
        | .error (.topology error) => error = .levelJump 2 ⟨1, ⟨1, 0, 0⟩⟩
        | _ => false) = true := by
    decide +kernel
  obtain ⟨tree, built, computed⟩ := Outcome.exists_ok_of_any computed
  simp only [Bool.and_eq_true, decide_eq_true_eq] at computed
  obtain ⟨⟨⟨grid, count⟩, first⟩, second⟩ := computed
  refine ⟨tree, built, grid, count, Outcome.exists_ok_of_isOk first, ?_⟩
  split at second
  · rename_i error refused
    rw [refused, of_decide_eq_true second]
  · cases second

/-- Of two workers the second owns the block before the step and refuses the tree for it, while the
first accepts the same tree, costs and configuration. -/
theorem jump_refused_by_one_worker : ∃ tree, BlockTree.ofLeaves lineGrid stairLeaves = .ok tree ∧
    Accepts lineConfig tree stairCosts stairCosts 2 0 ∧
    restore lineConfig tree stairCosts stairCosts 2 1 =
      .error (.topology (.levelJump 2 ⟨1, ⟨1, 0, 0⟩⟩)) ∧
    ¬∀ worker peer : Fin 2, Accepts lineConfig tree stairCosts stairCosts 2 worker →
      Accepts lineConfig tree stairCosts stairCosts 2 peer := by
  obtain ⟨tree, built, _, _, accepted, refused⟩ := exists_stair
  refine ⟨tree, built, accepted, refused, fun uniform => ?_⟩
  obtain ⟨mesh, made⟩ := uniform 0 1 accepted
  have second : restore lineConfig tree stairCosts stairCosts 2 1 = .ok mesh := made
  rw [refused] at second
  cases second

/-- So this tree is not balanced, and the shares, not the tree, decide who accepts it. -/
theorem acceptance_by_share_stair : ∃ tree, BlockTree.ofLeaves lineGrid stairLeaves = .ok tree ∧
    ¬tree.Balanced ∧
    ∃ shares, Decomposition.ofCosts stairCosts 2 = .ok shares ∧
      tree.Calm shares.ranks 0 ∧ ¬tree.Calm shares.ranks 1 := by
  obtain ⟨tree, built, grid, count, accepted, refused⟩ := exists_stair
  have words : tree.grid.Words := by
    rw [grid]
    decide
  have narrow : 2 ≤ 2147483648 := by decide
  obtain ⟨uniform_iff, outcome⟩ :=
    acceptance_by_share words (by omega) narrow lineConfig stairCosts stairCosts
  have rejected : ¬Accepts lineConfig tree stairCosts stairCosts 2 1 := by
    intro here
    obtain ⟨mesh, made⟩ := here
    rw [refused] at made
    cases made
  refine ⟨tree, built, fun smooth => rejected (uniform_iff.2 (.inl smooth) 0 1 accepted), ?_⟩
  cases outcome with
  | inl failed =>
      obtain ⟨error, failed⟩ := failed
      obtain ⟨mesh, made⟩ := accepted
      cases made.symm.trans (failed 0)
  | inr shared =>
      obtain ⟨shares, sharing, decides⟩ := shared
      exact ⟨shares, sharing, (decides 0).accepts_iff.1 accepted,
        fun calm => rejected ((decides 1).accepts_iff.2 calm)⟩

end Mesh

end AdaptiveMesh
