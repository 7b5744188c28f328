import AdaptiveMesh.Proofs.ClosedFlags
import AdaptiveMesh.Proofs.LeastRefinement
import AdaptiveMesh.Proofs.LevelJumps

/-!
# Passes over the flags

The flags that are missing can be found without regard to levels, by passes over all blocks: each flagged
block flags the coarser ones that touch it, and passes are repeated until one changes nothing. A pass only
raises flags, so every pass but the last leaves fewer blocks without one, and the passes come to an end.
What they raise is forced, and what a pass leaves as it is is closed. So whatever the order of the blocks,
the result is the least closed set of flags around the given ones, the same that the sweep from the finest
level to the coarsest finds.
-/

namespace AdaptiveMesh

set_option autoImplicit false

structure Raises (flags next : Array Bool) : Prop where
  size : next.size = flags.size
  kept : ∀ gid : Nat, flags[gid]? = some true → next[gid]? = some true

namespace Raises

variable {flags next last : Array Bool}

theorem refl (flags : Array Bool) : Raises flags flags := ⟨rfl, fun _ => id⟩

theorem trans (first : Raises flags next) (second : Raises next last) : Raises flags last where
  size := second.size.trans first.size
  kept := fun gid flagged => second.kept gid (first.kept gid flagged)

theorem antisymm (up : Raises flags next) (down : Raises next flags) : next = flags := by
  apply Array.ext up.size
  intro gid boundNext bound
  have kept := up.kept gid
  have back := down.kept gid
  rw [Array.getElem?_eq_getElem bound, Array.getElem?_eq_getElem boundNext] at kept back
  rw [Bool.eq_iff_iff]
  exact ⟨fun raised => Option.some.inj (back (congrArg some raised)),
    fun raised => Option.some.inj (kept (congrArg some raised))⟩

end Raises

/-- Raising flags leaves no more of them cleared, and as many only if it changes nothing. -/
theorem count_false_of_raised {before after : List Bool}
    (raised : List.Forall₂ (fun old new => old = true → new = true) before after) :
    after.count false ≤ before.count false ∧
      (after.count false = before.count false → after = before) := by
  induction raised with
  | nil => exact ⟨le_rfl, fun _ => rfl⟩
  | @cons old new before after step _ ih =>
      obtain ⟨fewer, equal⟩ := ih
      cases old with
      | true =>
          rw [step rfl]
          constructor
          · simpa using fewer
          · intro same
            rw [equal (by simpa using same)]
      | false =>
          cases new with
          | true =>
              have lost : (true :: after).count false < (false :: before).count false := by
                rw [List.count_cons_of_ne (by decide), List.count_cons_self]
                omega
              exact ⟨lost.le, fun same => absurd same lost.ne⟩
          | false =>
              constructor
              · simpa using fewer
              · intro same
                rw [equal (by simpa using same)]

namespace Raises

variable {flags next : Array Bool}

theorem paired (raises : Raises flags next) :
    List.Forall₂ (fun old new => old = true → new = true) flags.toList next.toList := by
  rw [List.forall₂_iff_get]
  constructor
  · exact raises.size.symm
  · intro gid bound boundNext flagged
    have kept := raises.kept gid
    rw [← Array.getElem?_toList, ← Array.getElem?_toList, List.getElem?_eq_getElem bound,
      List.getElem?_eq_getElem boundNext] at kept
    exact Option.some.inj (kept (congrArg some flagged))

theorem count_lt (raises : Raises flags next) (changed : next ≠ flags) :
    next.count false < flags.count false := by
  obtain ⟨fewer, equal⟩ := count_false_of_raised raises.paired
  rw [Array.count_toList, Array.count_toList] at fewer equal
  exact fewer.lt_of_ne fun same => changed (Array.toList_inj.1 (equal same))

end Raises

namespace BlockTree

variable {tree : BlockTree} {gid : Nat} {loc : Location} {flags next result : Array Bool}
  {order : List (Location × Nat)}

theorem raises_raiseFlags (flags : Array Bool) (gids : List Nat) :
    Raises flags (raiseFlags flags gids) where
  size := size_raiseFlags flags gids
  kept := fun gid flagged => (raiseFlags_iff flags gids gid).2 (.inl flagged)

theorem raises_flagCoarser {block : Location × Nat}
    (run : tree.flagCoarser flags block = .ok next) : Raises flags next := by
  unfold flagCoarser at run
  split at run
  · obtain ⟨gids, _, same⟩ := Outcome.bind_ok_iff.1 run
    cases same
    exact raises_raiseFlags flags gids
  · cases run
    exact .refl _

def blocks (tree : BlockTree) : List (Location × Nat) := tree.locations.toList.zipIdx

/-- One pass over blocks. A block that has been flagged in the course of the pass flags others in its
turn. -/
def raisePass (tree : BlockTree) (order : List (Location × Nat)) (flags : Array Bool) :
    Except TreeError (Array Bool) := order.foldlM tree.flagCoarser flags

theorem raises_raisePass (run : tree.raisePass order flags = .ok next) : Raises flags next := by
  unfold raisePass at run
  induction order generalizing flags with
  | nil =>
      cases run
      exact .refl _
  | cons first rest ih =>
      rw [List.foldlM_cons] at run
      obtain ⟨middle, step, later⟩ := Outcome.bind_ok_iff.1 run
      exact (raises_flagCoarser step).trans (ih later)

/-- Repeats passes over blocks until one changes nothing. -/
def settle (tree : BlockTree) (order : List (Location × Nat)) (flags : Array Bool) :
    Except TreeError (Array Bool) :=
  match run : tree.raisePass order flags with
  | .error error => .error error
  | .ok next =>
      if same : next = flags then .ok flags
      else
        have : next.count false < flags.count false := (raises_raisePass run).count_lt same
        tree.settle order next
termination_by flags.count false

def balanceInPasses (tree : BlockTree) (order : List (Location × Nat)) (flags : Array Bool) :
    Except TreeError (Array Bool) := do
  tree.checkFlagCount flags
  tree.settle order flags

section

variable (fits : tree.Fits) (each : ∀ block ∈ order, tree.location? block.2 = some block.1)

include fits each

theorem exists_raisePass (flags : Array Bool) :
    ∃ next, tree.raisePass order flags = .ok next := by
  unfold raisePass
  induction order generalizing flags with
  | nil => exact ⟨flags, rfl⟩
  | cons first rest ih =>
      obtain ⟨middle, step, _⟩ := flagCoarser_ok fits (each first List.mem_cons_self) flags
      obtain ⟨next, later⟩ := ih (fun block member => each block (List.mem_cons_of_mem _ member)) middle
      exact ⟨next, by rw [List.foldlM_cons, step]; exact later⟩

/-- If a pass changes nothing, none of its steps does, so every block of the pass has found the coarser
ones that touch it flagged. -/
theorem closed_of_raisePass (size : flags.size = tree.numLeaves)
    (run : tree.raisePass order flags = .ok flags) :
    ∀ block ∈ order, flags[block.2]? = some true → ∀ other home,
      tree.location? other = some home → home.level < block.1.level →
        tree.grid.Adjacent block.1 home → flags[other]? = some true := by
  induction order with
  | nil => simp
  | cons first rest ih =>
      rw [raisePass, List.foldlM_cons] at run
      obtain ⟨middle, step, later⟩ := Outcome.bind_ok_iff.1 run
      have still : middle = flags := (raises_flagCoarser step).antisymm (raises_raisePass later)
      rw [still] at step later
      intro block member flagged other home found coarser adjacent
      cases List.mem_cons.1 member with
      | inl same =>
          obtain ⟨again, stepAgain, _, raised⟩ :=
            flagCoarser_ok fits (each first List.mem_cons_self) flags
          cases step.symm.trans stepAgain
          rw [same] at flagged coarser adjacent
          have bound := location?_lt found
          exact (raised other).2 (.inr ⟨flagged, by omega, home, found, coarser, adjacent⟩)
      | inr inside =>
          exact ih (fun block member => each block (List.mem_cons_of_mem _ member)) later block
            inside flagged other home found coarser adjacent

end

theorem settle_ok (fits : tree.Fits)
    (every : ∀ block, block ∈ order ↔ tree.location? block.2 = some block.1)
    (size : flags.size = tree.numLeaves) :
    ∃ result, tree.settle order flags = .ok result ∧ Raises flags result ∧
      ∀ gid : Nat, result[gid]? = some true ↔ tree.Forced flags gid := by
  have each (block : Location × Nat) (member : block ∈ order) := (every block).1 member
  fun_induction settle tree order flags with
  | case1 flags error run =>
      obtain ⟨next, again⟩ := exists_raisePass fits each flags
      cases run.symm.trans again
  | case2 flags run =>
      refine ⟨flags, rfl, .refl flags, fun gid => ⟨.asked, ?_⟩⟩
      have closed : tree.FlagsClosed flags := by
        intro gid loc block
        exact closed_of_raisePass fits each size run (loc, gid) ((every _).2 block)
      exact Forced.flagged closed fun _ => id
  | case3 flags next run changed _ ih =>
      have raises := raises_raisePass run
      obtain ⟨result, settled, raised, forced⟩ := ih (raises.size.trans size)
      refine ⟨result, settled, raises.trans raised, fun gid => ?_⟩
      rw [forced]
      constructor
      · exact Forced.mono fun _ => forced_sweep fits each (fun _ => .asked) run _
      · exact Forced.mono fun _ flagged => .asked (raises.kept _ flagged)

theorem eq_of_raised_iff (size : result.size = next.size)
    (same : ∀ gid : Nat, result[gid]? = some true ↔ next[gid]? = some true) : result = next :=
  Raises.antisymm ⟨size, fun gid => (same gid).2⟩ ⟨size.symm, fun gid => (same gid).1⟩

/-- Passes over all blocks, in whatever order, find the same flags as the sweep. -/
theorem balanceInPasses_eq (fits : tree.Fits) (listed : order.Perm tree.blocks) (flags : Array Bool) :
    tree.balanceInPasses order flags = tree.balanceRefineFlags flags := by
  by_cases size : flags.size = tree.numLeaves
  · have every (block : Location × Nat) :
        block ∈ order ↔ tree.location? block.2 = some block.1 := by
      rw [listed.mem_iff, blocks, mem_zipIdx_locations]
    obtain ⟨result, settled, raises, forced⟩ := settle_ok fits every size
    obtain ⟨swept, raising, sizeSwept, _⟩ := balanceRefineFlags_ok fits size
    have same : result = swept := by
      apply eq_of_raised_iff (by rw [raises.size, size, sizeSwept])
      intro gid
      rw [forced, raised_iff_forced fits raising]
    rw [raising, balanceInPasses, checkFlagCount, if_pos size, ← same]
    exact settled
  · rw [balanceInPasses, balanceRefineFlags, checkFlagCount, if_neg size]
    rfl

/-- What it means for flags to be the least closed ones around given ones. -/
structure LeastClosed (tree : BlockTree) (flags result : Array Bool) : Prop where
  size : result.size = tree.numLeaves
  kept : ∀ gid : Nat, flags[gid]? = some true → result[gid]? = some true
  closed : tree.FlagsClosed result
  least : ∀ other : Array Bool, (∀ gid : Nat, flags[gid]? = some true → other[gid]? = some true) →
    tree.FlagsClosed other → ∀ gid : Nat, result[gid]? = some true → other[gid]? = some true

theorem leastClosed_of_balanceRefineFlags (fits : tree.Fits)
    (raising : tree.balanceRefineFlags flags = .ok result) : tree.LeastClosed flags result := by
  obtain ⟨_, size, closed, kept⟩ := completed_of_balanceRefineFlags fits raising
  refine ⟨size, kept, closed, ?_⟩
  intro other keptOther closedOther gid flagged
  exact ((raised_iff_forced fits raising).1 flagged).flagged closedOther keptOther

theorem LeastClosed.balance_eq (fits : tree.Fits) (least : tree.LeastClosed flags result) :
    tree.balanceRefineFlags result = .ok result := by
  obtain ⟨again, raising, _⟩ := balanceRefineFlags_ok fits least.size
  have leastAgain := leastClosed_of_balanceRefineFlags fits raising
  have same : again = result := by
    apply eq_of_raised_iff (leastAgain.size.trans least.size.symm)
    intro gid
    exact ⟨leastAgain.least result (fun _ => id) least.closed gid, leastAgain.kept gid⟩
  rw [raising, same]

/-- Completing flags succeeds, in passes over all blocks in any order as in one sweep, with the least
closed flags around the given ones. So nothing is cleared, more flags lead to more, completed flags are
left as they are, and the check accepts them. -/
theorem balanceRefineFlags_least (words : tree.grid.Words) (size : flags.size = tree.numLeaves) :
    ∃ result, tree.balanceRefineFlags flags = .ok result ∧ tree.LeastClosed flags result ∧
      (∀ order : List (Location × Nat), order.Perm tree.blocks →
        tree.balanceInPasses order flags = .ok result) ∧
      tree.checkRefineFlags result = .ok true ∧
      tree.balanceRefineFlags result = .ok result ∧
      ∀ more wider : Array Bool, (∀ gid : Nat, flags[gid]? = some true → more[gid]? = some true) →
        tree.balanceRefineFlags more = .ok wider →
          ∀ gid : Nat, result[gid]? = some true → wider[gid]? = some true := by
  have fits := fits_of_words words
  obtain ⟨result, raising, _⟩ := balanceRefineFlags_ok fits size
  have least := leastClosed_of_balanceRefineFlags fits raising
  refine ⟨result, raising, least, ?_, ?_, least.balance_eq fits, ?_⟩
  · intro order listed
    rw [balanceInPasses_eq fits listed, raising]
  · obtain ⟨answer, checked, accepts⟩ := checkRefineFlags_ok fits least.size
    rw [checked, accepts.2 least.closed]
  · intro more wider kept raisingMore
    have leastMore := leastClosed_of_balanceRefineFlags fits raisingMore
    exact least.least wider (fun gid flagged => leastMore.kept gid (kept gid flagged))
      leastMore.closed

/-- In an unbalanced tree the flag of one of the finest blocks calls for those of all coarser ones. Taken
in reverse, the blocks need a pass more. -/
theorem balanceRefineFlags_least_steep : ∃ tree, ofLeaves squareGrid steepLeaves = .ok tree ∧
    tree.balanceRefineFlags #[false, false, false, true, false, false, false, false, false, false] =
      .ok #[false, false, false, true, true, true, true, true, true, true] ∧
    tree.balanceInPasses tree.blocks.reverse
        #[false, false, false, true, false, false, false, false, false, false] =
      .ok #[false, false, false, true, true, true, true, true, true, true] ∧
    tree.LeastClosed #[false, false, false, true, false, false, false, false, false, false]
      #[false, false, false, true, true, true, true, true, true, true] := by
  have computed : (ofLeaves squareGrid steepLeaves).toOption.any (fun tree =>
      tree.grid = squareGrid && tree.numLeaves = 10 &&
        (tree.balanceRefineFlags #[false, false, false, true, false, false, false, false, false,
          false]).toOption =
            some #[false, false, false, true, true, true, true, true, true, true]) = true := by
    decide +kernel
  obtain ⟨tree, built, computed⟩ := Outcome.exists_ok_of_any computed
  simp only [Bool.and_eq_true, decide_eq_true_eq] at computed
  obtain ⟨⟨grid, count⟩, raised⟩ := computed
  have words : tree.grid.Words := by
    rw [grid]
    decide
  have size : #[false, false, false, true, false, false, false, false, false, false].size =
      tree.numLeaves := by
    rw [count]
    rfl
  obtain ⟨result, raising, least, passes, _⟩ := balanceRefineFlags_least words size
  rw [raising] at raised
  cases Option.some.inj raised
  exact ⟨tree, built, raising, passes _ (List.reverse_perm _), least⟩

end BlockTree

end AdaptiveMesh
