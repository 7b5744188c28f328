import AdaptiveMesh.Proofs.Life
import AdaptiveMesh.Proofs.Numbering

/-!
# Reloading

A mesh is a function of its checkpoint. What is kept of it, its grid by the numbers and its tree by
the leaves, gives back the very same mesh, whatever has been done with it: shares, tables and local
costs all follow from what is kept, and no call leaves a trace beside it. So a mesh and its reloaded
copy answer all later calls alike.
-/

namespace AdaptiveMesh

set_option autoImplicit false

theorem RootGrid.create_self (grid : RootGrid) :
    create grid.dim grid.blocks grid.periodic = .ok grid := by
  have faultless : Axis.all.findSome? (axisFault? grid.dim grid.blocks) = none := by
    rw [List.findSome?_eq_none_iff]
    intro axis _
    have positive := grid.blocks_pos axis
    have degenerate := grid.blocks_degenerate axis
    rw [axisFault?, if_neg (by omega), if_neg (by tauto)]
  have periodic : (Triple.ofFn fun axis : Axis => axis.val < grid.dim && grid.periodic axis) =
      grid.periodic := by
    apply Triple.ext_get
    intro axis
    rw [Triple.get_ofFn]
    cases along : grid.periodic axis with
    | false => exact Bool.and_false _
    | true => simpa using grid.active_of_periodic axis along
  unfold create
  rw [dif_pos ⟨grid.one_le_dim, grid.dim_le_three⟩]
  split
  · rename_i fault found
    rw [faultless] at found
    cases found
  · simp only [periodic]

namespace Mesh

variable {α : Type} [CostNumber α] {mesh start : Mesh α} {given : Option BlockTree}

/-- The mesh that is read back from what is kept of it: the grid from its numbers, the tree from the
leaves, and the mesh from its checkpoint. -/
def reload (mesh : Mesh α) : Except (MeshError α) (Mesh α) := do
  let kept := mesh.checkpoint
  let grid ← lift (fun error => .config (.grid error))
    (RootGrid.create kept.tree.grid.dim kept.tree.grid.blocks kept.tree.grid.periodic)
  let tree ← lift .tree (TreeCheckpoint.restore ⟨grid, kept.tree.checkpoint.leaves⟩)
  MeshCheckpoint.restore { kept with tree }

theorem Derived.reload (derived : mesh.Derived) (words : mesh.tree.grid.Words) :
    mesh.reload = .ok mesh := by
  have grid := mesh.tree.grid.create_self
  have tree : TreeCheckpoint.restore ⟨mesh.tree.grid, mesh.tree.locations.toList⟩ = .ok mesh.tree :=
    BlockTree.ofLeaves_locations (BlockTree.fits_of_words words)
  apply Outcome.bind_ok_iff.2
  refine ⟨mesh.tree.grid, lift_ok_iff.2 grid, ?_⟩
  apply Outcome.bind_ok_iff.2
  exact ⟨mesh.tree, lift_ok_iff.2 tree, derived⟩

/-- Whether the shares belong to the costs that they were computed from, the tables to the present
tree and shares, and every cost in the tables to its block. -/
structure Coherent (mesh : Mesh α) : Prop where
  shares : Decomposition.ofCosts mesh.balanced mesh.numWorkers = .ok mesh.decomposition
  tables : ∃ built : Topology α, Topology.build mesh.tree mesh.config.boundary
    (mesh.decomposition.range mesh.rank) mesh.decomposition.ranks = .ok built ∧
      mesh.topology = { built with costs := mesh.topology.costs }
  localCosts : mesh.topology.costs.size = mesh.topology.numBlocks ∧
    ∀ position < mesh.topology.numBlocks, ∃ gid cost, mesh.topology.gid? position = some gid ∧
      mesh.topology.local? gid = some position ∧ mesh.costs[gid]? = some cost ∧
      mesh.topology.costs[position]? = some cost

/-- The cost that the tables show for a block is the present one, whether or not it is pending. -/
theorem Derived.exists_localCost (derived : mesh.Derived) {position : Nat}
    (bound : position < mesh.topology.numBlocks) :
    ∃ gid cost, mesh.topology.gid? position = some gid ∧
      mesh.topology.local? gid = some position ∧ mesh.costs[gid]? = some cost ∧
      mesh.topology.costs[position]? = some cost := by
  obtain ⟨built, _, building, shown⟩ := derived.exists_built
  obtain ⟨_, inside, _⟩ := derived.inside
  have here : position < (mesh.decomposition.range mesh.rank).size := by
    rw [← derived.blocks]
    exact bound
  obtain ⟨_, _, _, shows⟩ := Topology.shows_of_build building here
  rw [← derived.blocks] at shows
  have gidShown : mesh.topology.gid? position = some (mesh.topology.blocks.start + position) := by
    have same : mesh.topology.gid? position = built.gid? position := by
      rw [shown]
      rfl
    rw [same]
    exact shows.gidShown
  have below : mesh.topology.blocks.start + position < mesh.topology.blocks.stop := by
    rw [Topology.numBlocks, Span.size] at bound
    omega
  have among : mesh.topology.blocks.contains (mesh.topology.blocks.start + position) = true := by
    rw [Span.contains, Bool.and_eq_true, decide_eq_true_eq, decide_eq_true_eq]
    exact ⟨Nat.le_add_right _ _, below⟩
  have known : mesh.topology.blocks.start + position < mesh.costs.size := by
    rw [derived.size_costs]
    omega
  have listed := Array.getElem?_eq_getElem known
  refine ⟨mesh.topology.blocks.start + position, _, gidShown, ?_, listed, ?_⟩
  · rw [Topology.local?, if_pos among, Nat.add_sub_cancel_left]
  · rw [derived.localCosts, Span.slice, Array.getElem?_extract, if_pos (by omega)]
    exact listed

theorem Derived.coherent (derived : mesh.Derived) : mesh.Coherent := by
  obtain ⟨built, sharing, building, shown⟩ := derived.exists_built
  refine ⟨sharing, ⟨built, building, ?_⟩, derived.inside.2.2, ?_⟩
  · rw [shown]
    rfl
  · intro position bound
    exact derived.exists_localCost bound

/-- Whatever has been done with a mesh, it is read back unchanged from what is kept of it, and so its
copy answers all later calls as the mesh does. -/
theorem reload_of_run (made : start.Made given)
    (words : ∀ axis, start.config.rootBlocks axis < 2 ^ 64) (actions : List (Action α)) :
    (start.run actions).reload = .ok (start.run actions) ∧ (start.run actions).Coherent ∧
      ∀ copy later action, (start.run actions).reload = .ok copy →
        (copy.run later).act action = ((start.run actions).run later).act action := by
  obtain ⟨derived, place⟩ := made.derived.run actions
  have wordsLast : (start.run actions).tree.grid.Words := by
    apply derived.words
    rwa [place.config]
  have reloaded := derived.reload wordsLast
  refine ⟨reloaded, derived.coherent, fun copy later action again => ?_⟩
  cases reloaded.symm.trans again
  rfl

/-- A refined mesh with a cost that is still pending. -/
theorem reload_of_run_square : ∃ start : Mesh Rat, create squareConfig 2 1 = .ok start ∧
    (start.run (squareActions.take 2)).costs ≠ (start.run (squareActions.take 2)).balanced ∧
    (start.run (squareActions.take 2)).reload = .ok (start.run (squareActions.take 2)) ∧
    (start.run (squareActions.take 2)).Coherent := by
  have computed : ((create squareConfig 2 1 : Except (MeshError Rat) (Mesh Rat)).toOption.any
      fun start => decide ((start.run (squareActions.take 2)).costs ≠
        (start.run (squareActions.take 2)).balanced)) = true := by
    decide +kernel
  obtain ⟨start, made, pending⟩ := Outcome.exists_ok_of_any computed
  obtain ⟨_, _, _, _, restored⟩ := create_ok_iff.1 made
  obtain ⟨config, _, _⟩ := place_of_restore restored
  obtain ⟨reloaded, coherent, _⟩ := reload_of_run (.create squareConfig 2 1 made)
    (by rw [config]; decide) (squareActions.take 2)
  exact ⟨start, made, of_decide_eq_true pending, reloaded, coherent⟩

end Mesh

end AdaptiveMesh
