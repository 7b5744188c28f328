import AdaptiveMesh.Proofs.Life

/-!
# Least refinement

Refining a mesh splits the blocks that were asked for and those that balance forces: from a block that
is split, every coarser one that touches it. A balanced tree on the same grid that is at least as fine
as the old one and splits what was asked for must split these as well, since what it has inside a split
block would touch a coarser block two levels away. So the new tree is the coarsest of all such trees.
-/

namespace AdaptiveMesh

set_option autoImplicit false

namespace BlockTree

variable {tree other next : BlockTree} {gid neighbor : Nat} {loc home leaf : Location}
  {flags raised : Array Bool} {starts : List Nat}

/-- Whether every leaf of a tree lies in a leaf of another one. -/
def Refines (fine coarse : BlockTree) : Prop :=
  ∀ leaf ∈ fine.locations, ∃ loc ∈ coarse.locations, loc.contains leaf = true

def Divides (tree : BlockTree) (loc : Location) (parts : List Location) : Prop :=
  ∀ leaf, leaf ∈ tree.locations ∧ loc.contains leaf = true ↔ leaf ∈ parts

/-- The blocks that have to be refined for balance, given those that are to be refined anyway. -/
inductive Forced (tree : BlockTree) (flags : Array Bool) : Nat → Prop where
  | asked {gid : Nat} (flagged : flags[gid]? = some true) : Forced tree flags gid
  | spread {gid neighbor : Nat} {loc home : Location} (forced : Forced tree flags gid)
      (block : tree.location? gid = some loc) (found : tree.location? neighbor = some home)
      (coarser : home.level < loc.level) (adjacent : tree.grid.Adjacent loc home) :
      Forced tree flags neighbor

theorem Forced.mono {more : Array Bool}
    (wider : ∀ gid : Nat, flags[gid]? = some true → tree.Forced more gid)
    (forced : tree.Forced flags gid) : tree.Forced more gid := by
  induction forced with
  | asked flagged => exact wider _ flagged
  | spread _ block found coarser adjacent ih => exact .spread ih block found coarser adjacent

theorem Forced.flagged {more : Array Bool} (closed : tree.FlagsClosed more)
    (kept : ∀ gid : Nat, flags[gid]? = some true → more[gid]? = some true)
    (forced : tree.Forced flags gid) : more[gid]? = some true := by
  induction forced with
  | asked flagged => exact kept _ flagged
  | spread _ block found coarser adjacent ih =>
      exact closed _ _ block ih _ _ found coarser adjacent

theorem forced_flagCoarser {marked result : Array Bool} (fits : tree.Fits)
    (block : tree.location? gid = some loc)
    (forced : ∀ gid : Nat, marked[gid]? = some true → tree.Forced flags gid)
    (run : tree.flagCoarser marked (loc, gid) = .ok result) :
    ∀ gid : Nat, result[gid]? = some true → tree.Forced flags gid := by
  obtain ⟨again, same, _, step⟩ := flagCoarser_ok fits block marked
  cases run.symm.trans same
  intro neighbor flagged
  cases (step neighbor).1 flagged with
  | inl before => exact forced neighbor before
  | inr touched =>
      obtain ⟨here, _, home, found, coarser, adjacent⟩ := touched
      exact .spread (forced gid here) block found coarser adjacent

theorem forced_sweep {blocks : List (Location × Nat)} {marked result : Array Bool}
    (fits : tree.Fits) (each : ∀ block ∈ blocks, tree.location? block.2 = some block.1)
    (forced : ∀ gid : Nat, marked[gid]? = some true → tree.Forced flags gid)
    (run : blocks.foldlM tree.flagCoarser marked = .ok result) :
    ∀ gid : Nat, result[gid]? = some true → tree.Forced flags gid := by
  induction blocks generalizing marked with
  | nil =>
      cases run
      exact forced
  | cons first rest ih =>
      rw [List.foldlM_cons] at run
      obtain ⟨next, step, later⟩ := Outcome.bind_ok_iff.1 run
      apply ih _ _ later
      · intro block member
        exact each block (List.mem_cons_of_mem first member)
      · exact forced_flagCoarser fits (each first List.mem_cons_self) forced step

/-- The completed flags are those of the forced blocks. -/
theorem raised_iff_forced (fits : tree.Fits)
    (raising : tree.balanceRefineFlags flags = .ok raised) :
    raised[gid]? = some true ↔ tree.Forced flags gid := by
  obtain ⟨_, _, closed, kept⟩ := completed_of_balanceRefineFlags fits raising
  constructor
  · obtain ⟨_, _, run⟩ := Outcome.bind_ok_iff.1 raising
    exact forced_sweep fits (fun _ => mem_sweep_iff.1) (fun _ => .asked) run gid
  · exact Forced.flagged closed kept

section

variable (words : tree.grid.Words) (grid : other.grid = tree.grid) (balanced : other.Balanced)
  (finer : other.Refines tree)

include words grid balanced finer

/-- If a finer balanced tree splits a block, it splits the coarser ones that touch it too. -/
theorem not_mem_of_coarser (block : tree.location? gid = some loc)
    (found : tree.location? neighbor = some home) (coarser : home.level < loc.level)
    (adjacent : tree.grid.Adjacent loc home) (split : loc ∉ other.locations) :
    home ∉ other.locations := by
  intro whole
  have fits := fits_of_words words
  have fitsOther : other.Fits := fits_of_words (grid ▸ words)
  have fine := rootLevel_le_level block
  have inside := contains_block fits block
  have level := fits.level block
  have touch := (RootGrid.adjacent_comm level (fits.level found) fine
    (rootLevel_le_level found)).1 adjacent
  rw [← grid] at level fine inside touch
  obtain ⟨index, there⟩ := mem_locations_iff.1 whole
  cases exists_cover level (by omega) inside with
  | inl covered =>
      -- a leaf around the block lies in a block, which can only be this one
      obtain ⟨third, leaf, named, around⟩ := covered
      have member : leaf ∈ other.locations := mem_locations_iff.2 ⟨third, named⟩
      obtain ⟨outer, listed, outside⟩ := finer leaf member
      obtain ⟨fourth, outerBlock⟩ := mem_locations_iff.1 listed
      have same := (eq_of_contains_block outerBlock block
        (Location.contains_trans outside around)).2
      rw [same] at outside
      have equal := Location.eq_of_contains outside (Location.level_le_of_contains around)
      rw [← equal] at member
      exact split member
  | inr internal =>
      obtain ⟨f, refined⟩ := internal
      obtain ⟨turns, winds, touches⟩ := touch
      have placed : Location.ofPath loc.path = loc :=
        Location.ofPath_path (root_contains_block block)
      have depth : loc.path.length = loc.level := Location.length_path loc
      obtain ⟨third, leaf, named, within, touching⟩ := exists_touching_block fitsOther there winds
        refined (Node.ofChildren_ne_absent f) (by rwa [placed]) (by rwa [depth])
        (by rw [placed]; exact Location.touches_comm.1 touches)
      have deeper := lt_level_of_refined refined named within
      have levels := balanced.levels there named winds (Location.touches_comm.1 touching)
      omega

/-- A balanced tree that splits what was asked for splits whatever that forces. -/
theorem Forced.not_mem (split : ∀ gid loc, tree.location? gid = some loc →
      flags[gid]? = some true → loc ∉ other.locations)
    (forced : tree.Forced flags gid) (block : tree.location? gid = some loc) :
    loc ∉ other.locations := by
  induction forced generalizing loc with
  | asked flagged => exact split _ loc block flagged
  | spread _ source found coarser adjacent ih =>
      cases found.symm.trans block
      exact not_mem_of_coarser words grid balanced finer source found coarser adjacent (ih source)

end

theorem eq_of_contains_common {place : Location} {index : Nat} (block : tree.location? gid = some loc)
    (around : loc.contains leaf = true) (found : tree.location? index = some place)
    (outside : place.contains leaf = true) : gid = index ∧ loc = place := by
  cases Location.meets_of_contains_common around outside with
  | inl coarser => exact eq_of_contains_block block found coarser
  | inr finer =>
      obtain ⟨sameGid, sameLoc⟩ := eq_of_contains_block found block finer
      exact ⟨sameGid.symm, sameLoc.symm⟩

theorem divides_refined (words : tree.grid.Words)
    (refining : tree.refine flags = .ok (next, starts)) {flag : Bool}
    (block : tree.location? gid = some loc) (flagged : flags[gid]? = some flag) :
    next.Divides loc (refined tree.grid (loc, flag)) := by
  have members := (members_of_refine words refining).2
  intro leaf
  constructor
  · intro inside
    obtain ⟨member, around⟩ := inside
    obtain ⟨⟨outer, mark⟩, listed, below⟩ := (members leaf).1 member
    obtain ⟨other, outerBlock, marked⟩ := mem_withFlags_iff.1 listed
    have outside : outer.contains leaf = true := contains_of_mem_refined below
    obtain ⟨sameGid, sameLoc⟩ := eq_of_contains_common block around outerBlock outside
    rw [← sameGid, flagged] at marked
    cases marked
    rwa [sameLoc]
  · intro below
    have listed : (loc, flag) ∈ tree.withFlags flags := mem_withFlags_iff.2 ⟨gid, block, flagged⟩
    exact ⟨(members leaf).2 ⟨_, listed, below⟩, contains_of_mem_refined below⟩

/-- Whether a tree is one that balance allows and that splits what was asked for. -/
structure Admits (tree : BlockTree) (flags : Array Bool) (other : BlockTree) : Prop where
  grid : other.grid = tree.grid
  balanced : other.Balanced
  finer : other.Refines tree
  split : ∀ gid loc, tree.location? gid = some loc → flags[gid]? = some true →
    loc ∉ other.locations

structure LeastRefinement (tree : BlockTree) (flags : Array Bool) (next : BlockTree) : Prop where
  grid : next.grid = tree.grid
  count : ∀ loc, (tree.grid.children loc).length = 2 ^ tree.grid.dim
  apart : ∀ loc, (tree.grid.children loc).Pairwise fun a b => ¬a.Meets b
  asked : ∀ gid loc, tree.location? gid = some loc → flags[gid]? = some true →
    next.Divides loc (tree.grid.children loc)
  /-- A block is kept or split, and split only for balance if it was not asked for. -/
  each : ∀ gid loc, tree.location? gid = some loc →
    (tree.Forced flags gid ∧ next.Divides loc (tree.grid.children loc)) ∨
      (¬tree.Forced flags gid ∧ next.Divides loc [loc])
  admitted : tree.Balanced → tree.Admits flags next
  least : ∀ other, tree.Admits flags other → other.Refines next

section

variable (words : tree.grid.Words) (raising : tree.balanceRefineFlags flags = .ok raised)
  (refining : tree.refine raised = .ok (next, starts))

include words raising refining

theorem divides_of_forced (block : tree.location? gid = some loc)
    (forced : tree.Forced flags gid) : next.Divides loc (tree.grid.children loc) :=
  divides_refined words refining block
    ((raised_iff_forced (fits_of_words words) raising).2 forced)

theorem divides_of_not_forced (block : tree.location? gid = some loc)
    (free : ¬tree.Forced flags gid) : next.Divides loc [loc] := by
  have fits := fits_of_words words
  obtain ⟨_, size, _⟩ := completed_of_balanceRefineFlags fits raising
  have bound := location?_lt block
  have lowered : raised[gid]? = some false := by
    cases flag : raised[gid]? with
    | none =>
        rw [Array.getElem?_eq_none_iff] at flag
        omega
    | some raisedHere =>
        cases raisedHere with
        | true => exact absurd ((raised_iff_forced fits raising).1 flag) free
        | false => exact rfl
  exact divides_refined words refining block lowered

/-- Whatever tree balance allows lies in the one that refining makes. -/
theorem refines_of_admits (admits : tree.Admits flags other) : other.Refines next := by
  intro leaf member
  obtain ⟨loc, listed, around⟩ := admits.finer leaf member
  obtain ⟨gid, block⟩ := mem_locations_iff.1 listed
  by_cases forced : tree.Forced flags gid
  · have apart := forced.not_mem words admits.grid admits.balanced admits.finer admits.split block
    have deeper : loc.level < leaf.level := by
      by_contra shallow
      rw [← Location.eq_of_contains around (Nat.le_of_not_lt shallow)] at member
      exact apart member
    have below := Location.contains_child_of_contains around deeper
    obtain ⟨third, named⟩ := mem_locations_iff.1 member
    have fitsOther : other.Fits := fits_of_words (admits.grid ▸ words)
    have fits := fitsOther.level named
    have inside := contains_block fitsOther named
    rw [admits.grid] at fits inside
    have fine := rootLevel_le_level block
    have domain := RootGrid.contains_of_contains fits (by rw [Location.level_child]; omega) below
      inside
    have child : loc.child (leaf.octantAt loc.level) ∈ tree.grid.children loc :=
      RootGrid.mem_children.2 ⟨_, RootGrid.isValidFor_of_contains_child domain, rfl⟩
    have made := (divides_of_forced words raising refining block forced _).2 child
    exact ⟨_, made.1, below⟩
  · have kept := (divides_of_not_forced words raising refining block forced loc).2
      (List.mem_singleton_self loc)
    exact ⟨loc, kept.1, around⟩

theorem leastRefinement_of_refine : tree.LeastRefinement flags next := by
  obtain ⟨grid, members⟩ := members_of_refine words refining
  have asked (gid : Nat) (loc : Location) (block : tree.location? gid = some loc)
      (flagged : flags[gid]? = some true) : next.Divides loc (tree.grid.children loc) :=
    divides_of_forced words raising refining block (.asked flagged)
  refine ⟨grid, ?_, RootGrid.children_apart tree.grid, asked, ?_, ?_, ?_⟩
  · intro loc
    rw [RootGrid.length_children, RootGrid.numChildren_eq]
  · intro gid loc block
    by_cases forced : tree.Forced flags gid
    · exact .inl ⟨forced, divides_of_forced words raising refining block forced⟩
    · exact .inr ⟨forced, divides_of_not_forced words raising refining block forced⟩
  · intro balanced
    refine ⟨grid, (balanced_refine words balanced raising refining).2, ?_, ?_⟩
    · intro leaf member
      obtain ⟨piece, listed, below⟩ := (members leaf).1 member
      obtain ⟨gid, block, _⟩ := mem_withFlags_iff.1 listed
      exact ⟨piece.1, mem_locations_iff.2 ⟨gid, block⟩, contains_of_mem_refined below⟩
    · intro gid loc block flagged member
      have child := (asked gid loc block flagged loc).1 ⟨member, Location.contains_refl loc⟩
      have level := RootGrid.level_of_mem_children child
      omega
  · intro other admits
    exact refines_of_admits words raising refining admits

end

end BlockTree

namespace Mesh

variable {α : Type} [CostNumber α] {mesh next : Mesh α} {flags : Array Bool}

/-- Refining a mesh splits what was asked for and what balance forces, and nothing else: every balanced
tree that is at least as fine as the old one and splits what was asked for is at least as fine as the
new one. -/
theorem refine_is_least (words : mesh.tree.grid.Words) (run : mesh.refine flags = .ok next) :
    mesh.tree.LeastRefinement flags next.tree := by
  have acted : mesh.act (.refine flags) = .ok next := run
  obtain ⟨_, planned⟩ := exists_plan_of_act acted
  obtain ⟨raised, starts, raising, refining, _⟩ := plan_refine_ok_iff.1 planned
  exact BlockTree.leastRefinement_of_refine words raising refining

def cornerFlags : Array Bool := #[true, false, false, false, false, false, false]

/-- When the corner block of a square has been split and its own corner is split next, balance forces
the block at the other end of the ring. The block above the corner is kept. -/
theorem refine_is_least_corner : ∃ start mesh next : Mesh Rat,
    create squareConfig 2 1 = .ok start ∧
    start.refine #[true, false, false, false] = .ok mesh ∧
    mesh.tree.location? 4 = some ⟨1, ⟨1, 0, 0⟩⟩ ∧ mesh.tree.location? 5 = some ⟨1, ⟨0, 1, 0⟩⟩ ∧
    mesh.tree.grid.Words ∧ mesh.refine cornerFlags = .ok next ∧ next.numBlocks = 13 ∧
    mesh.tree.Forced cornerFlags 4 ∧
    next.tree.Divides ⟨1, ⟨1, 0, 0⟩⟩ (mesh.tree.grid.children ⟨1, ⟨1, 0, 0⟩⟩) ∧
    ¬mesh.tree.Forced cornerFlags 5 ∧ next.tree.Divides ⟨1, ⟨0, 1, 0⟩⟩ [⟨1, ⟨0, 1, 0⟩⟩] ∧
    ∀ other, mesh.tree.Admits cornerFlags other → other.Refines next.tree := by
  have computed : (create squareConfig 2 1 : Except (MeshError Rat) (Mesh Rat)).toOption.any
      (fun start => (start.refine #[true, false, false, false]).toOption.any fun mesh =>
        mesh.tree.grid = BlockTree.squareGrid &&
          mesh.tree.location? 4 = some ⟨1, ⟨1, 0, 0⟩⟩ &&
          mesh.tree.location? 5 = some ⟨1, ⟨0, 1, 0⟩⟩ &&
          (mesh.refine cornerFlags).toOption.any fun next => next.numBlocks = 13 &&
            ⟨1, ⟨0, 1, 0⟩⟩ ∈ next.tree.locations && ⟨1, ⟨1, 0, 0⟩⟩ ∉ next.tree.locations) = true := by
    decide +kernel
  obtain ⟨start, made, computed⟩ := Outcome.exists_ok_of_any computed
  obtain ⟨mesh, refined, computed⟩ := Outcome.exists_ok_of_any computed
  simp only [Bool.and_eq_true, decide_eq_true_eq] at computed
  obtain ⟨⟨⟨grid, beside⟩, above⟩, computed⟩ := computed
  obtain ⟨next, run, computed⟩ := Outcome.exists_ok_of_any computed
  simp only [Bool.and_eq_true, decide_eq_true_eq] at computed
  obtain ⟨⟨count, whole⟩, gone⟩ := computed
  have words : mesh.tree.grid.Words := by
    rw [grid]
    decide
  have least := refine_is_least words run
  have split : mesh.tree.Forced cornerFlags 4 ∧
      next.tree.Divides ⟨1, ⟨1, 0, 0⟩⟩ (mesh.tree.grid.children ⟨1, ⟨1, 0, 0⟩⟩) := by
    cases least.each 4 _ beside with
    | inl split => exact split
    | inr kept => exact absurd ((kept.2 _).2 (List.mem_singleton_self _)).1 gone
  have kept : ¬mesh.tree.Forced cornerFlags 5 ∧
      next.tree.Divides ⟨1, ⟨0, 1, 0⟩⟩ [⟨1, ⟨0, 1, 0⟩⟩] := by
    cases least.each 5 _ above with
    | inl split =>
        have child := (split.2 _).1 ⟨whole, Location.contains_refl _⟩
        rw [grid] at child
        exact absurd child (by decide)
    | inr kept => exact kept
  exact ⟨start, mesh, next, made, refined, beside, above, words, run, count, split.1, split.2,
    kept.1, kept.2, least.least⟩

end Mesh

end AdaptiveMesh
