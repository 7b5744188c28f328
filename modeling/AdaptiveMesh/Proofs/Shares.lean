import AdaptiveMesh.Decomposition
import AdaptiveMesh.Proofs.Outcome
import Mathlib.Data.List.Perm.Subperm

/-!
# Shares

The scan gives the blocks to workers in order, so each worker's blocks follow one another, the spans
of the workers follow one another, and the rank table and the spans say the same.
-/

namespace AdaptiveMesh

set_option autoImplicit false

namespace Decomposition

variable {α : Type} [CostNumber α]

@[simp] theorem length_assign (total : α) (workers rank : Nat) (occupied : Bool) (running : α)
    (costs : List α) :
    (assign total workers rank occupied running costs).length = costs.length := by
  induction costs generalizing rank occupied running with
  | nil => rfl
  | cons cost rest ih => simp [assign, ih]

theorem le_of_mem_assign {total : α} {workers rank : Nat} {occupied : Bool} {running : α}
    {costs : List α} {worker : Nat}
    (member : worker ∈ assign total workers rank occupied running costs) : rank ≤ worker := by
  induction costs generalizing rank occupied running with
  | nil => cases member
  | cons cost rest ih =>
      rw [assign] at member
      rcases List.mem_cons.1 member with rfl | later
      · split <;> omega
      · have above := ih later
        split at above <;> omega

theorem assign_ordered (total : α) (workers rank : Nat) (occupied : Bool) (running : α)
    (costs : List α) :
    (assign total workers rank occupied running costs).Pairwise (· ≤ ·) := by
  induction costs generalizing rank occupied running with
  | nil => exact .nil
  | cons cost rest ih =>
      rw [assign]
      apply List.pairwise_cons.2
      exact ⟨fun worker member => le_of_mem_assign member, ih _ _ _⟩

theorem assign_lt {total : α} {workers rank : Nat} {occupied : Bool} {running : α}
    {costs : List α} (bound : rank < workers) {worker : Nat}
    (member : worker ∈ assign total workers rank occupied running costs) : worker < workers := by
  induction costs generalizing rank occupied running with
  | nil => cases member
  | cons cost rest ih =>
      rw [assign] at member
      generalize advanced : (if (occupied && decide (0 < workers - 1 - rank) &&
        (decide (threshold total workers (rank + 1) < running + cost) ||
          decide (rest.length + 1 ≤ workers - 1 - rank))) = true then rank + 1 else rank) = next
        at member
      have inside : next < workers := by
        rw [← advanced]
        split
        · rename_i step
          simp only [Bool.and_eq_true, decide_eq_true_eq] at step
          omega
        · exact bound
      rcases List.mem_cons.1 member with rfl | later
      · exact inside
      · exact ih inside later

/-- In an ordered list, as many members lie below a number as positions hold one that does. -/
theorem countP_lt_le_iff {assigned : List Nat} (ordered : assigned.Pairwise (· ≤ ·)) {gid rank : Nat}
    (known : assigned[gid]? = some rank) (worker : Nat) :
    assigned.countP (· < worker) ≤ gid ↔ worker ≤ rank := by
  induction assigned generalizing gid with
  | nil => cases known
  | cons first rest ih =>
      obtain ⟨least, others⟩ := List.pairwise_cons.1 ordered
      rw [List.countP_cons]
      by_cases below : first < worker
      · cases gid with
        | zero =>
            cases known
            simp [below]
        | succ gid =>
            rw [if_pos (by simpa using below), Nat.add_le_add_iff_right]
            exact ih others (by simpa using known)
      · have none : rest.countP (· < worker) = 0 := by
          rw [List.countP_eq_zero]
          intro other member
          have above := least other member
          simp only [decide_eq_true_eq]
          omega
        rw [none, if_neg (by simpa using below)]
        have rankAbove : first ≤ rank := by
          cases gid with
          | zero =>
              cases known
              exact Nat.le_refl _
          | succ gid => exact least rank (List.mem_of_getElem? (by simpa using known))
        simp only [Nat.zero_add, Nat.zero_le, true_iff]
        omega

theorem rangeOf_contains_iff {assigned : List Nat} (ordered : assigned.Pairwise (· ≤ ·))
    (worker gid : Nat) :
    (rangeOf assigned worker).contains gid = true ↔ assigned[gid]? = some worker := by
  have next : assigned.countP (· ≤ worker) = assigned.countP (· < worker + 1) := by
    simp only [Nat.lt_succ_iff]
  simp only [rangeOf, Span.contains, Bool.and_eq_true, decide_eq_true_eq, next]
  cases known : assigned[gid]? with
  | none =>
      have outside := List.getElem?_eq_none_iff.1 known
      have few := List.countP_le_length (l := assigned) (p := (· < worker + 1))
      simp only [reduceCtorEq, iff_false, not_and, Nat.not_lt]
      omega
  | some rank =>
      have lower := countP_lt_le_iff ordered known worker
      have upper := countP_lt_le_iff ordered known (worker + 1)
      rw [Option.some.injEq, lower, ← Nat.not_le, upper]
      omega

theorem flatMap_rangeOf (assigned : List Nat) (workers : Nat) :
    (List.range workers).flatMap (fun worker => (rangeOf assigned worker).toList) =
      List.range (assigned.countP (· < workers)) := by
  induction workers with
  | zero => simp
  | succ workers ih =>
      have grows : assigned.countP (· < workers) ≤ assigned.countP (· ≤ workers) := by
        apply List.countP_mono_left
        intro worker _ below
        simp only [decide_eq_true_eq] at below ⊢
        omega
      have next : assigned.countP (· < workers + 1) = assigned.countP (· ≤ workers) := by
        simp only [Nat.lt_succ_iff]
      have joined : List.range' 0 (assigned.countP (· < workers)) ++
          List.range' (assigned.countP (· < workers))
            (assigned.countP (· ≤ workers) - assigned.countP (· < workers)) =
          List.range' 0 (assigned.countP (· ≤ workers)) := by
        rw [← Nat.add_sub_of_le grows, ← List.range'_append_1, Nat.zero_add, Nat.add_sub_cancel_left]
      rw [List.range_succ, List.flatMap_append, ih, List.flatMap_singleton, next,
        List.range_eq_range', List.range_eq_range']
      exact joined

section

variable {entries : List (Nat × Nat)} {gid rank : Nat}

private theorem getElem?_set_of_not_mem (absent : gid ∉ entries.map Prod.fst) (ranks : Array Nat) :
    (entries.foldl (fun ranks (gid, rank) => ranks.setIfInBounds gid rank) ranks)[gid]? =
      ranks[gid]? := by
  induction entries generalizing ranks with
  | nil => rfl
  | cons first rest ih =>
      rw [List.map_cons, List.mem_cons, not_or] at absent
      rw [List.foldl_cons, ih absent.2]
      exact Array.getElem?_setIfInBounds_ne (Ne.symm absent.1)

private theorem getElem?_set_of_mem (distinct : (entries.map Prod.fst).Nodup)
    (member : (gid, rank) ∈ entries) {ranks : Array Nat} (bound : gid < ranks.size) :
    (entries.foldl (fun ranks (gid, rank) => ranks.setIfInBounds gid rank) ranks)[gid]? =
      some rank := by
  induction entries generalizing ranks with
  | nil => cases member
  | cons first rest ih =>
      rw [List.map_cons, List.nodup_cons] at distinct
      rw [List.foldl_cons]
      cases List.mem_cons.1 member with
      | inl here =>
          rw [← here] at distinct ⊢
          rw [getElem?_set_of_not_mem distinct.1]
          exact Array.getElem?_setIfInBounds_self_of_lt bound
      | inr later =>
          apply ih distinct.2 later
          rw [Array.size_setIfInBounds]
          exact bound

end

@[simp] theorem size_byGid (order assigned : List Nat) :
    (byGid order assigned).size = order.length := by
  have kept (entries : List (Nat × Nat)) (ranks : Array Nat) :
      (entries.foldl (fun ranks (gid, rank) => ranks.setIfInBounds gid rank) ranks).size =
        ranks.size := by
    induction entries generalizing ranks with
    | nil => rfl
    | cons first rest ih =>
        rw [List.foldl_cons, ih]
        exact Array.size_setIfInBounds
  rw [byGid, kept, Array.size_replicate]

theorem getElem?_byGid {order assigned : List Nat} (distinct : order.Nodup)
    (small : ∀ gid ∈ order, gid < order.length) (length : assigned.length = order.length)
    {position gid : Nat} (listed : order[position]? = some gid) :
    (byGid order assigned)[gid]? = assigned[position]? := by
  have bound : position < assigned.length := by
    rw [length]
    exact (List.getElem?_eq_some_iff.1 listed).1
  have known := List.getElem?_eq_getElem bound
  have entry : (gid, assigned[position]) ∈ order.zip assigned :=
    List.mem_of_getElem? (List.getElem?_zip_eq_some.2 ⟨listed, known⟩)
  rw [known, byGid]
  apply getElem?_set_of_mem _ entry
  · rw [Array.size_replicate]
    exact small gid (List.mem_of_getElem? listed)
  · rw [List.map_fst_zip (Nat.le_of_eq length.symm)]
    exact distinct

theorem byGid_range (assigned : List Nat) :
    byGid (List.range assigned.length) assigned = assigned.toArray := by
  apply Array.ext_getElem?
  intro gid
  simp only [List.getElem?_toArray]
  by_cases bound : gid < assigned.length
  · apply getElem?_byGid List.nodup_range
    · intro other member
      rw [List.length_range]
      exact List.mem_range.1 member
    · exact List.length_range.symm
    · exact List.getElem?_range bound
  · rw [List.getElem?_eq_none (Nat.not_lt.1 bound)]
    apply Array.getElem?_eq_none
    rw [size_byGid, List.length_range]
    exact Nat.not_lt.1 bound

theorem checkBlocks_ok_iff (blocks : List (Nat × α)) (seen : Array Bool) :
    checkBlocks seen.size seen blocks = .ok () ↔ (blocks.map Prod.fst).Nodup ∧
      (∀ gid ∈ blocks.map Prod.fst, gid < seen.size ∧ seen.getD gid false = false) ∧
      ∀ cost ∈ blocks.map Prod.snd, CostNumber.isCost cost = true := by
  induction blocks generalizing seen with
  | nil => simp [checkBlocks]
  | cons block rest ih =>
      obtain ⟨gid, cost⟩ := block
      have later := ih (seen.setIfInBounds gid true)
      rw [Array.size_setIfInBounds] at later
      have fresh (other : Nat) (bound : gid < seen.size) :
          (seen.setIfInBounds gid true).getD other false = false ↔
            other ≠ gid ∧ seen.getD other false = false := by
        rw [Array.getD_eq_getD_getElem?, Array.getD_eq_getD_getElem?]
        by_cases same : gid = other
        · rw [← same, Array.getElem?_setIfInBounds_self_of_lt bound]
          simp
        · rw [Array.getElem?_setIfInBounds_ne same]
          simp [Ne.symm same]
      rw [checkBlocks, List.map_cons, List.map_cons, List.nodup_cons, List.forall_mem_cons,
        List.forall_mem_cons]
      by_cases outside : seen.size ≤ gid
      · simp [outside, Nat.not_lt.2 outside]
      rw [if_neg outside]
      have bound := Nat.not_le.1 outside
      cases met : seen.getD gid false with
      | true => simp
      | false =>
          cases valid : CostNumber.isCost cost with
          | false => simp
          | true =>
              simp only [Bool.false_eq_true, if_false, Bool.not_true, later, fresh _ bound]
              constructor
              · intro passed
                obtain ⟨distinct, unseen, costs⟩ := passed
                refine ⟨⟨fun member => (unseen gid member).2.1 rfl, distinct⟩,
                  ⟨⟨bound, trivial⟩, fun other member => ?_⟩, trivial, costs⟩
                exact ⟨(unseen other member).1, (unseen other member).2.2⟩
              · intro passed
                obtain ⟨⟨apart, distinct⟩, ⟨_, unseen⟩, _, costs⟩ := passed
                refine ⟨distinct, fun other member => ?_, costs⟩
                refine ⟨(unseen other member).1, ?_, (unseen other member).2⟩
                intro same
                exact apart (same ▸ member)

theorem perm_range_iff (gids : List Nat) :
    gids.Perm (List.range gids.length) ↔ gids.Nodup ∧ ∀ gid ∈ gids, gid < gids.length := by
  constructor
  · intro same
    refine ⟨same.nodup_iff.2 List.nodup_range, fun gid member => ?_⟩
    exact List.mem_range.1 (same.mem_iff.1 member)
  · intro numbered
    apply List.Subperm.perm_of_length_le
    · apply List.subperm_of_subset numbered.1
      intro gid member
      exact List.mem_range.2 (numbered.2 gid member)
    · exact Nat.le_of_eq List.length_range

def scan (costs : List α) (workers : Nat) : List Nat :=
  assign (CostNumber.sum costs) workers 0 false CostNumber.zero costs

/-- Blocks are shared out as the scan says if there is a worker, the gids number the blocks, and all
costs are valid. -/
theorem ofBlocks_ok_iff {blocks : List (Nat × α)} {workers : Nat} {d : Decomposition α} :
    ofBlocks blocks workers = .ok d ↔ 0 < workers ∧
      (blocks.map Prod.fst).Perm (List.range blocks.length) ∧
      (∀ cost ∈ blocks.map Prod.snd, CostNumber.isCost cost = true) ∧
      d = ⟨byGid (blocks.map Prod.fst) (scan (blocks.map Prod.snd) workers),
        (blocks.map Prod.fst).toArray,
        ((List.range workers).map (rangeOf (scan (blocks.map Prod.snd) workers))).toArray,
        ((List.range workers).map
          (loadOf (scan (blocks.map Prod.snd) workers) (blocks.map Prod.snd))).toArray⟩ := by
  have checked := checkBlocks_ok_iff blocks (Array.replicate blocks.length false)
  have unseen (gid : Nat) : (Array.replicate blocks.length false).getD gid false = false := by
    rw [Array.getD_eq_getD_getElem?, Array.getElem?_replicate]
    split <;> rfl
  have numbered := perm_range_iff (blocks.map Prod.fst)
  rw [List.length_map] at numbered
  simp only [Array.size_replicate, unseen, and_true] at checked
  unfold ofBlocks
  by_cases idle : workers = 0
  · simp [idle, throw, throwThe, MonadExceptOf.throw, bind, Except.bind]
  · rw [if_neg idle]
    simp only [Outcome.bind_ok_iff, Outcome.pure_ok_iff, checked, numbered]
    constructor
    · intro run
      obtain ⟨_, ⟨distinct, small, valid⟩, rfl⟩ := run
      exact ⟨Nat.pos_of_ne_zero idle, ⟨distinct, small⟩, valid, rfl⟩
    · intro shared
      obtain ⟨_, ⟨distinct, small⟩, valid, rfl⟩ := shared
      exact ⟨(), ⟨distinct, small, valid⟩, rfl⟩

theorem ofCosts_ok_iff {costs : Array α} {workers : Nat} {d : Decomposition α} :
    ofCosts costs workers = .ok d ↔
      0 < workers ∧ (∀ cost ∈ costs, CostNumber.isCost cost = true) ∧
        ∃ assigned, assigned = assign (CostNumber.sum costs.toList) workers 0 false CostNumber.zero
            costs.toList ∧
          d = ⟨assigned.toArray, (List.range costs.size).toArray,
            ((List.range workers).map (rangeOf assigned)).toArray,
            ((List.range workers).map (loadOf assigned costs.toList)).toArray⟩ := by
  have order : (costs.toList.zipIdx.map Prod.swap).map Prod.fst = List.range costs.size := by
    rw [List.map_map, List.range_eq_range', ← Array.length_toList, ← List.zipIdx_map_snd]
    rfl
  have listed : (costs.toList.zipIdx.map Prod.swap).map Prod.snd = costs.toList := by
    rw [List.map_map]
    exact List.zipIdx_map_fst 0 costs.toList
  have length : (costs.toList.zipIdx.map Prod.swap).length = costs.size := by simp
  have ranks := byGid_range (scan costs.toList workers)
  rw [scan, length_assign, Array.length_toList] at ranks
  rw [ofCosts, ofBlocks_ok_iff, order, listed, length, scan, ranks]
  simp only [Array.mem_toList_iff, List.Perm.refl, true_and, exists_eq_left]

/-- What the shares of numbered blocks look like. -/
structure Shared (d : Decomposition α) (blocks workers : Nat) : Prop where
  size : d.numWorkers = workers
  ranks : d.ranks.size = blocks
  small : ∀ rank ∈ d.ranks, rank < workers
  owner : ∀ worker < workers, ∀ gid : Nat,
    (d.range worker).contains gid = true ↔ d.ranks[gid]? = some worker
  ordered : ∀ worker < workers, (d.range worker).start ≤ (d.range worker).stop ∧
    (d.range worker).stop ≤ blocks
  partition : (List.range workers).flatMap (fun worker => (d.range worker).toList) =
    List.range blocks

theorem shared_of_ofCosts {costs : Array α} {workers : Nat} {d : Decomposition α}
    (sharing : ofCosts costs workers = .ok d) : d.Shared costs.size workers := by
  obtain ⟨positive, _, assigned, assigning, rfl⟩ := ofCosts_ok_iff.1 sharing
  have ordered : assigned.Pairwise (· ≤ ·) := assigning ▸ assign_ordered ..
  have length : assigned.length = costs.size := by
    rw [assigning, length_assign, Array.length_toList]
  have small (rank : Nat) (member : rank ∈ assigned) : rank < workers := by
    rw [assigning] at member
    exact assign_lt positive member
  have range (worker : Nat) (bound : worker < workers) :
      Decomposition.range ⟨assigned.toArray, (List.range costs.size).toArray,
        ((List.range workers).map (rangeOf assigned)).toArray,
        ((List.range workers).map (loadOf assigned costs.toList)).toArray⟩ worker =
          rangeOf assigned worker := by
    simp [Decomposition.range, Array.getD_eq_getD_getElem?, bound]
  refine ⟨by simp [numWorkers], by simp [length], ?_, ?_, ?_, ?_⟩
  · intro rank member
    exact small rank (by simpa using member)
  · intro worker bound gid
    rw [range worker bound, rangeOf_contains_iff ordered, List.getElem?_toArray]
  · intro worker bound
    rw [range worker bound]
    constructor
    · apply List.countP_mono_left
      intro rank _ below
      simp only [decide_eq_true_eq] at below ⊢
      omega
    · rw [← length]
      exact List.countP_le_length
  · have every : assigned.countP (· < workers) = costs.size := by
      rw [← length, List.countP_eq_length]
      intro rank member
      simpa using small rank member
    refine Eq.trans ?_ ((flatMap_rangeOf assigned workers).trans (congrArg List.range every))
    simp only [List.flatMap_def]
    congr 1
    apply List.map_congr_left
    intro worker member
    rw [range worker (List.mem_range.1 member)]

theorem exists_ofCosts {costs : Array α} {workers : Nat} (positive : 0 < workers)
    (valid : ∀ cost ∈ costs, CostNumber.isCost cost = true) :
    ∃ d, ofCosts costs workers = .ok d :=
  ⟨_, ofCosts_ok_iff.2 ⟨positive, valid, _, rfl, rfl⟩⟩

end Decomposition

end AdaptiveMesh
