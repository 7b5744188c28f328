import AdaptiveMesh.Mesh.Basic
import AdaptiveMesh.Proofs.Cells
import AdaptiveMesh.Proofs.Published
import AdaptiveMesh.Proofs.Shares

/-!
# Soundness

A mesh is derived if everything in it follows from its configuration, tree and costs, that is, if its
checkpoint restores it, and sound if its tree is also balanced. Sharing the blocks out afresh and
changing a cost keep a mesh derived. A balanced tree can always be shared out, where the numbers of
blocks and workers can be written into neighbour entries and all costs are valid.
-/

namespace AdaptiveMesh

set_option autoImplicit false

theorem Span.slice_setIfInBounds {β : Type} (s : Span) (values : Array β) (index : Nat) (value : β) :
    s.slice (values.setIfInBounds index value) =
      if s.contains index then (s.slice values).setIfInBounds (index - s.start) value
      else s.slice values := by
  apply Array.ext_getElem?
  intro position
  by_cases inside : s.contains index = true
  · rw [if_pos inside]
    simp only [contains, Bool.and_eq_true, decide_eq_true_eq] at inside
    simp only [slice, Array.getElem?_setIfInBounds, Array.getElem?_extract, Array.size_extract,
      Array.size_setIfInBounds]
    grind
  · rw [if_neg inside]
    simp only [contains, Bool.and_eq_true, decide_eq_true_eq] at inside
    simp only [slice, Array.getElem?_setIfInBounds, Array.getElem?_extract,
      Array.size_setIfInBounds]
    grind

namespace MeshConfig

variable {config : MeshConfig} {grid : RootGrid}

theorem blocks_of_rootGrid (described : config.rootGrid = .ok grid) :
    grid.blocks = config.rootBlocks := by
  unfold rootGrid at described
  split at described
  · cases described
  · obtain ⟨periodic, _, made⟩ := Outcome.bind_ok_iff.1 described
    unfold RootGrid.create at made
    split at made
    · rename_i grid' created
      split at created
      · split at created
        · cases created
        · cases created
          cases made
          rfl
      · cases created
    · cases made

theorem words_of_few (described : config.rootGrid = .ok grid)
    (few : config.rootBlocks.x1 * config.rootBlocks.x2 * config.rootBlocks.x3 ≤ 2147483648) :
    grid.Words := by
  have blocks := blocks_of_rootGrid described
  rw [← blocks] at few
  have first : 0 < grid.blocks.x1 := grid.blocks_pos Axis.x1
  have second : 0 < grid.blocks.x2 := grid.blocks_pos Axis.x2
  have third : 0 < grid.blocks.x3 := grid.blocks_pos Axis.x3
  have pair : grid.blocks.x1 * grid.blocks.x2 ≤ 2147483648 :=
    Nat.le_trans (Nat.le_mul_of_pos_right _ third) few
  intro axis
  match axis with
  | 0 =>
      have bound := Nat.le_trans (Nat.le_mul_of_pos_right _ second) pair
      show grid.blocks.x1 < 2 ^ 64
      omega
  | 1 =>
      have bound := Nat.le_trans (Nat.le_mul_of_pos_left _ first) pair
      show grid.blocks.x2 < 2 ^ 64
      omega
  | 2 =>
      have bound := Nat.le_trans (Nat.le_mul_of_pos_left _ (Nat.mul_pos first second)) few
      show grid.blocks.x3 < 2 ^ 64
      omega

end MeshConfig

namespace Mesh

variable {α : Type} [CostNumber α] {mesh next : Mesh α} {config : MeshConfig} {tree : BlockTree}
  {balanced costs : Array α} {workers rank gid : Nat} {cost : α}

omit [CostNumber α] in
theorem lift_ok_iff {ε β : Type} {wrap : ε → MeshError α} {step : Except ε β} {value : β} :
    lift wrap step = .ok value ↔ step = .ok value := by
  cases step <;> simp [lift]

theorem assemble_ok_iff : assemble config tree balanced costs workers rank = .ok mesh ↔
    ∃ shares built, Decomposition.ofCosts balanced workers = .ok shares ∧
      Topology.build tree config.boundary (shares.range rank) shares.ranks = .ok built ∧
      mesh = ⟨config, tree, costs, balanced, shares, rank, withLocalCosts built costs⟩ := by
  simp only [assemble, Outcome.bind_ok_iff, Outcome.pure_ok_iff, lift_ok_iff]
  constructor
  · rintro ⟨shares, sharing, built, building, rfl⟩
    exact ⟨shares, built, sharing, building, rfl⟩
  · rintro ⟨shares, built, sharing, building, rfl⟩
    exact ⟨shares, sharing, built, building, rfl⟩

theorem checkCosts_ok_iff {done : Unit} : checkCosts costs = .ok done ↔
    ∀ cost ∈ costs, CostNumber.isCost cost = true := by
  unfold checkCosts
  split
  · rename_i cost gid found
    have refused := List.find?_some found
    have listed := List.mem_of_find?_eq_some found
    simp only [reduceCtorEq, false_iff, not_forall]
    refine ⟨cost, ?_, by simpa using refused⟩
    exact Array.mem_of_getElem? (by simpa using List.mem_zipIdx_iff_getElem?.1 listed)
  · rename_i fine
    simp only [true_iff]
    intro cost member
    obtain ⟨gid, known⟩ := Array.getElem?_of_mem member
    have listed : (cost, gid) ∈ costs.toList.zipIdx :=
      List.mem_zipIdx_iff_getElem?.2 (by simpa using known)
    simpa using List.find?_eq_none.1 fine _ listed

theorem restore_ok_iff : restore config tree balanced costs workers rank = .ok mesh ↔
    rank < workers ∧ config.rootGrid = .ok tree.grid ∧ balanced.size = tree.numLeaves ∧
      costs.size = tree.numLeaves ∧ (∀ cost ∈ costs, CostNumber.isCost cost = true) ∧
      assemble config tree balanced costs workers rank = .ok mesh := by
  simp only [restore, Outcome.check_ok_iff, Outcome.bind_ok_iff, lift_ok_iff, checkCosts_ok_iff,
    not_not, Nat.not_le]
  constructor
  · rintro ⟨below, grid, described, rfl, sizes, size, _, valid, run⟩
    exact ⟨below, described, sizes, size, valid, run⟩
  · rintro ⟨below, described, sizes, size, valid, run⟩
    exact ⟨below, tree.grid, described, rfl, sizes, size, (), valid, run⟩

theorem setCost_ok_iff : mesh.setCost gid cost = .ok next ↔
    gid < mesh.numBlocks ∧ CostNumber.isCost cost = true ∧
      next = { mesh with
        costs := mesh.costs.setIfInBounds gid cost
        topology := ((mesh.topology.local? gid).bind fun position =>
          mesh.topology.setCost? position cost).getD mesh.topology } := by
  unfold setCost
  by_cases beyond : mesh.numBlocks ≤ gid
  · rw [if_pos beyond]
    simp only [reduceCtorEq, false_iff]
    omega
  · rw [if_neg beyond]
    by_cases valid : CostNumber.isCost cost = true
    · simp only [valid, Bool.not_true, Bool.false_eq_true, if_false, Except.ok.injEq, true_and]
      exact ⟨fun same => ⟨by omega, same.symm⟩, fun changed => changed.2.symm⟩
    · simp [valid]

omit [CostNumber α] in
theorem withLocalCosts_setIfInBounds (built : Topology α) (costs : Array α) (gid : Nat) (cost : α) :
    withLocalCosts built (costs.setIfInBounds gid cost) =
      (((withLocalCosts built costs).local? gid).bind fun position =>
        (withLocalCosts built costs).setCost? position cost).getD (withLocalCosts built costs) := by
  have shown := Span.slice_setIfInBounds built.blocks costs gid cost
  have spans : (withLocalCosts built costs).blocks = built.blocks := rfl
  rw [Topology.local?, spans]
  by_cases inside : built.blocks.contains gid = true
  · rw [if_pos inside] at shown
    rw [if_pos inside, Option.bind_some, Topology.setCost?]
    have listed : (withLocalCosts built costs).costs = built.blocks.slice costs := rfl
    rw [listed, withLocalCosts, shown]
    by_cases bound : gid - built.blocks.start < (built.blocks.slice costs).size
    · rw [if_pos bound]
      rfl
    · rw [if_neg bound, Array.setIfInBounds, dif_neg bound]
      rfl
  · rw [if_neg inside] at shown
    rw [if_neg inside, withLocalCosts, shown]
    rfl

/-- Where the numbers of blocks and workers can be written into entries, a balanced tree that has been
shared out has tables for every worker. -/
theorem exists_assemble {shares : Decomposition α} (config : MeshConfig) (costs : Array α)
    (fits : tree.Fits) (smooth : tree.Balanced) (size : balanced.size = tree.numLeaves)
    (few : tree.numLeaves ≤ 2147483648) (narrow : workers ≤ 2147483648)
    (sharing : Decomposition.ofCosts balanced workers = .ok shares) (below : rank < workers) :
    ∃ mesh, assemble config tree balanced costs workers rank = .ok mesh := by
  have shared := Decomposition.shared_of_ofCosts sharing
  rw [size] at shared
  obtain ⟨ordered, inside⟩ := shared.ordered rank below
  have small (owner : Nat) (member : owner ∈ shares.ranks) : owner < 2147483648 :=
    Nat.lt_of_lt_of_le (shared.small owner member) narrow
  obtain ⟨built, building⟩ : ∃ built : Topology α,
      Topology.build tree config.boundary (shares.range rank) shares.ranks = .ok built :=
    Topology.exists_build fits smooth few shared.ranks small ordered inside config.boundary
  exact ⟨_, assemble_ok_iff.2 ⟨shares, built, sharing, building, rfl⟩⟩

theorem create_ok_iff : create config workers rank = .ok mesh ↔
    ∃ grid tree, config.rootGrid = .ok grid ∧ BlockTree.uniform grid = .ok tree ∧
      restore config tree (Array.replicate tree.numLeaves CostNumber.unit)
        (Array.replicate tree.numLeaves CostNumber.unit) workers rank = .ok mesh := by
  simp only [create, ofTree, Outcome.bind_ok_iff, lift_ok_iff]
  constructor
  · rintro ⟨grid, described, tree, built, run⟩
    exact ⟨grid, tree, described, built, run⟩
  · rintro ⟨grid, tree, described, built, run⟩
    exact ⟨grid, described, tree, built, run⟩

theorem place_of_restore (run : restore config tree balanced costs workers rank = .ok mesh) :
    mesh.config = config ∧ mesh.numWorkers = workers ∧ mesh.rank = rank := by
  obtain ⟨shares, built, sharing, _, rfl⟩ := assemble_ok_iff.1 (restore_ok_iff.1 run).2.2.2.2.2
  exact ⟨rfl, (Decomposition.shared_of_ofCosts sharing).size, rfl⟩

/-- Whether the mesh follows from its configuration, tree and costs. -/
def Derived (mesh : Mesh α) : Prop := mesh.checkpoint.restore = .ok mesh

theorem derived_of_restore (run : restore config tree balanced costs workers rank = .ok mesh) :
    mesh.Derived := by
  obtain ⟨shares, built, sharing, building, same⟩ :=
    assemble_ok_iff.1 (restore_ok_iff.1 run).2.2.2.2.2
  have kept : mesh.checkpoint = ⟨config, tree, costs, balanced, workers, rank⟩ := by
    rw [checkpoint, (place_of_restore run).2.1, same]
  rw [Derived, kept]
  exact run

namespace Derived

variable (derived : mesh.Derived)

include derived

theorem rank_lt : mesh.rank < mesh.numWorkers := (restore_ok_iff.1 derived).1

theorem described : mesh.config.rootGrid = .ok mesh.tree.grid := (restore_ok_iff.1 derived).2.1

theorem size_balanced : mesh.balanced.size = mesh.numBlocks := (restore_ok_iff.1 derived).2.2.1

theorem size_costs : mesh.costs.size = mesh.numBlocks := (restore_ok_iff.1 derived).2.2.2.1

theorem isCost_costs : ∀ cost ∈ mesh.costs, CostNumber.isCost cost = true :=
  (restore_ok_iff.1 derived).2.2.2.2.1

theorem exists_built : ∃ built,
    Decomposition.ofCosts mesh.balanced mesh.numWorkers = .ok mesh.decomposition ∧
    Topology.build mesh.tree mesh.config.boundary (mesh.decomposition.range mesh.rank)
      mesh.decomposition.ranks = .ok built ∧
    mesh.topology = withLocalCosts built mesh.costs := by
  obtain ⟨shares, built, sharing, building, same⟩ :=
    assemble_ok_iff.1 (restore_ok_iff.1 derived).2.2.2.2.2
  have parts : mesh.decomposition = shares ∧ mesh.topology = withLocalCosts built mesh.costs :=
    ⟨congrArg decomposition same, congrArg topology same⟩
  obtain ⟨rfl, shown⟩ := parts
  exact ⟨built, sharing, building, shown⟩

theorem shared : mesh.decomposition.Shared mesh.numBlocks mesh.numWorkers := by
  obtain ⟨_, sharing, _⟩ := derived.exists_built
  rw [← derived.size_balanced]
  exact Decomposition.shared_of_ofCosts sharing

theorem blocks : mesh.topology.blocks = mesh.decomposition.range mesh.rank := by
  obtain ⟨built, _, building, shown⟩ := derived.exists_built
  have own := Topology.blocks_of_build building
  rw [shown]
  exact own

theorem localCosts : mesh.topology.costs = mesh.topology.blocks.slice mesh.costs := by
  obtain ⟨_, _, _, shown⟩ := derived.exists_built
  rw [shown]
  rfl

theorem inside : mesh.topology.blocks.start ≤ mesh.topology.blocks.stop ∧
    mesh.topology.blocks.stop ≤ mesh.numBlocks ∧
    mesh.topology.costs.size = mesh.topology.numBlocks := by
  obtain ⟨ordered, inside⟩ := derived.shared.ordered mesh.rank derived.rank_lt
  rw [← derived.blocks] at ordered inside
  refine ⟨ordered, inside, ?_⟩
  rw [derived.localCosts, Span.slice, Array.size_extract, derived.size_costs, Nat.min_eq_left inside,
    Topology.numBlocks, Span.size]

theorem words (few : ∀ axis, mesh.config.rootBlocks axis < 2 ^ 64) : mesh.tree.grid.Words := by
  intro axis
  rw [MeshConfig.blocks_of_rootGrid derived.described]
  exact few axis

theorem rebuild (grid : tree.grid = mesh.tree.grid) (size : costs.size = tree.numLeaves)
    (run : mesh.rebuild tree costs = .ok next) : next.Derived := by
  obtain ⟨_, _, sharing, _⟩ := assemble_ok_iff.1 run
  apply derived_of_restore
  refine restore_ok_iff.2 ⟨derived.rank_lt, ?_, size, size, ?_, run⟩
  · rw [grid]
    exact derived.described
  · exact (Decomposition.ofCosts_ok_iff.1 sharing).2.1

theorem setCost (run : mesh.setCost gid cost = .ok next) : next.Derived := by
  obtain ⟨_, valid, rfl⟩ := setCost_ok_iff.1 run
  obtain ⟨built, sharing, building, shown⟩ := derived.exists_built
  have size : (mesh.costs.setIfInBounds gid cost).size = mesh.numBlocks := by
    rw [Array.size_setIfInBounds]
    exact derived.size_costs
  have fine (other : α) (member : other ∈ mesh.costs.setIfInBounds gid cost) :
      CostNumber.isCost other = true := by
    rcases Array.mem_or_eq_of_mem_setIfInBounds member with old | rfl
    · exact derived.isCost_costs other old
    · exact valid
  apply derived_of_restore
  rw [restore_ok_iff, assemble_ok_iff]
  refine ⟨derived.rank_lt, derived.described, derived.size_balanced, size, fine, mesh.decomposition,
    built, sharing, building, ?_⟩
  rw [withLocalCosts_setIfInBounds, ← shown]

end Derived

/-- Whether the mesh follows from its configuration, tree and costs, and the tree is balanced. -/
structure Sound (mesh : Mesh α) : Prop where
  balanced : mesh.tree.Balanced
  restored : mesh.checkpoint.restore = .ok mesh

theorem sound_of_restore (smooth : tree.Balanced)
    (run : restore config tree balanced costs workers rank = .ok mesh) : mesh.Sound := by
  refine ⟨?_, derived_of_restore run⟩
  obtain ⟨_, _, _, _, same⟩ := assemble_ok_iff.1 (restore_ok_iff.1 run).2.2.2.2.2
  rw [same]
  exact smooth

namespace Sound

variable (sound : mesh.Sound)

include sound

theorem derived : mesh.Derived := sound.restored

theorem described : mesh.config.rootGrid = .ok mesh.tree.grid := sound.derived.described

theorem words (few : ∀ axis, mesh.config.rootBlocks axis < 2 ^ 64) : mesh.tree.grid.Words :=
  sound.derived.words few

end Sound

end Mesh

end AdaptiveMesh
