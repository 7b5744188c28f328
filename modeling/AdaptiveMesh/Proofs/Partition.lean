import AdaptiveMesh.Proofs.FloatCosts
import AdaptiveMesh.Proofs.Shares

/-!
# Partitions

The spans of the workers divide the traversal order between consecutive cuts. A worker is never left
for a later one before it has a block, and as soon as only one block remains for each worker still to
come, every further block goes to a new worker. So the workers who get blocks are the first ones, as
many as there are blocks and workers for. The comparison of running costs with thresholds only decides
where the cuts lie: nothing here depends on how it turns out.
-/

namespace AdaptiveMesh

set_option autoImplicit false

namespace Decomposition

variable {α : Type} [CostNumber α]

section

variable {total : α} {workers rank worker : Nat} {running : α} {costs : List α}

/-- Up to a position the scan has moved on once for each block at most, and not for a worker's first
block. -/
theorem assign_le {occupied : Bool} {position : Nat}
    (known : (assign total workers rank occupied running costs)[position]? = some worker) :
    worker ≤ rank + position + occupied.toNat := by
  induction costs generalizing rank occupied running position with
  | nil => cases known
  | cons cost rest ih =>
      rw [assign] at known
      cases position with
      | zero =>
          rw [List.getElem?_cons_zero, Option.some.injEq] at known
          rw [← known]
          split
          · rename_i step
            simp only [Bool.and_eq_true] at step
            rw [step.1.1]
            exact Nat.le_refl _
          · omega
      | succ position =>
          rw [List.getElem?_cons_succ] at known
          have later := ih known
          rw [Bool.toNat_true] at later
          split at later
          · rename_i step
            simp only [Bool.and_eq_true] at step
            rw [step.1.1, Bool.toNat_true]
            omega
          · omega

/-- From a worker who has a block the scan reaches every later worker for whom a block remains. -/
theorem mem_assign (later : rank < worker) (enough : worker ≤ rank + costs.length)
    (bound : worker < workers) : worker ∈ assign total workers rank true running costs := by
  induction costs generalizing rank running with
  | nil =>
      rw [List.length_nil] at enough
      omega
  | cons cost rest ih =>
      rw [List.length_cons] at enough
      rw [assign]
      split
      · by_cases next : worker = rank + 1
        · rw [next]
          exact List.mem_cons_self
        · apply List.mem_cons_of_mem
          apply ih <;> omega
      · rename_i stays
        -- the scan only stays where more blocks remain than workers wait
        have plenty : worker ≤ rank + rest.length := by
          simp only [Bool.true_and, Bool.and_eq_true, Bool.or_eq_true, decide_eq_true_eq, not_and,
            not_or] at stays
          have waiting := (stays (by omega)).2
          omega
        apply List.mem_cons_of_mem
        exact ih later plenty

end

@[simp] theorem length_scan (costs : List α) (workers : Nat) :
    (scan costs workers).length = costs.length := length_assign ..

theorem scan_ordered (costs : List α) (workers : Nat) :
    (scan costs workers).Pairwise (· ≤ ·) := assign_ordered ..

theorem mem_scan_iff {workers : Nat} (positive : 0 < workers) (costs : List α) (worker : Nat) :
    worker ∈ scan costs workers ↔ worker < min costs.length workers := by
  rw [Nat.lt_min]
  constructor
  · intro member
    refine ⟨?_, assign_lt positive member⟩
    obtain ⟨position, known⟩ := List.getElem?_of_mem member
    have short := (List.getElem?_eq_some_iff.1 known).1
    have early := assign_le known
    rw [length_scan] at short
    rw [Bool.toNat_false] at early
    omega
  · intro few
    cases costs with
    | nil => exact absurd few.1 (Nat.not_lt_zero worker)
    | cons cost rest =>
        rw [List.length_cons] at few
        have first : scan (cost :: rest) workers =
            0 :: assign (CostNumber.sum (cost :: rest)) workers 0 true (CostNumber.zero + cost) rest :=
          rfl
        rw [first, List.mem_cons]
        cases worker with
        | zero => exact .inl rfl
        | succ worker =>
            right
            apply mem_assign <;> omega

section

variable {assigned : List Nat} {worker : Nat}

theorem rangeOf_eq (assigned : List Nat) (worker : Nat) : rangeOf assigned worker =
    ⟨assigned.countP (· < worker), assigned.countP (· < worker + 1)⟩ := by
  simp only [rangeOf, Nat.lt_succ_iff]

theorem countP_lt_succ (assigned : List Nat) (worker : Nat) :
    assigned.countP (· < worker + 1) = assigned.countP (· < worker) + assigned.count worker := by
  induction assigned with
  | nil => rfl
  | cons first rest ih =>
      simp only [List.countP_cons, List.count_cons, ih, decide_eq_true_eq, beq_iff_eq]
      split_ifs <;> omega

theorem rangeOf_nonempty_iff :
    (rangeOf assigned worker).start < (rangeOf assigned worker).stop ↔ worker ∈ assigned := by
  rw [rangeOf_eq, countP_lt_succ, Nat.lt_add_right_iff_pos, List.count_pos_iff]

theorem rangeOf_eq_of_iff (ordered : assigned.Pairwise (· ≤ ·)) {first stop : Nat}
    (occupied : first < stop)
    (owned : ∀ position : Nat, assigned[position]? = some worker ↔ first ≤ position ∧ position < stop) :
    rangeOf assigned worker = ⟨first, stop⟩ := by
  have bounds (position : Nat) : ((rangeOf assigned worker).start ≤ position ∧
      position < (rangeOf assigned worker).stop) ↔ first ≤ position ∧ position < stop := by
    rw [← owned, ← rangeOf_contains_iff ordered, Span.contains, Bool.and_eq_true, decide_eq_true_eq,
      decide_eq_true_eq]
  generalize rangeOf assigned worker = span at bounds
  obtain ⟨start, stops⟩ := span
  dsimp only at bounds
  have atFirst := bounds first
  have atLast := bounds (stop - 1)
  have atStart := bounds start
  have atStop := bounds stop
  have before := bounds (stops - 1)
  have sameStart : start = first := by omega
  have sameStop : stops = stop := by omega
  rw [sameStart, sameStop]

theorem rangeOf_of_forall_lt (above : ∀ other ∈ assigned, other < worker) :
    rangeOf assigned worker = ⟨assigned.length, assigned.length⟩ := by
  rw [rangeOf_eq]
  congr 1
  · rw [List.countP_eq_length]
    intro other member
    simpa using above other member
  · rw [List.countP_eq_length]
    intro other member
    have below := above other member
    simp only [decide_eq_true_eq]
    omega

omit [CostNumber α] in
theorem filterMap_zip (ordered : assigned.Pairwise (· ≤ ·)) (costs : List α) :
    ((assigned.zip costs).filterMap fun (rank, cost) => if rank = worker then some cost else none) =
      (costs.drop (assigned.countP (· < worker))).take (assigned.count worker) := by
  induction assigned generalizing costs with
  | nil => simp
  | cons first rest ih =>
      obtain ⟨least, ordered⟩ := List.pairwise_cons.1 ordered
      cases costs with
      | nil => simp
      | cons cost others =>
          have later := ih ordered others
          rw [List.zip_cons_cons, List.filterMap_cons, later, List.countP_cons, List.count_cons]
          rcases Nat.lt_trichotomy first worker with below | here | above
          · simp [below, Nat.ne_of_lt below]
          · have empty : rest.countP (· < worker) = 0 := by
              rw [List.countP_eq_zero]
              intro other member
              have floor := least other member
              simp only [decide_eq_true_eq]
              omega
            simp [here, empty]
          · have empty : rest.count worker = 0 := by
              rw [List.count_eq_zero]
              intro member
              have floor := least worker member
              omega
            simp [empty, Nat.ne_of_gt above]

theorem loadOf_eq (ordered : assigned.Pairwise (· ≤ ·)) (costs : List α) :
    loadOf assigned costs worker =
      CostNumber.sum ((rangeOf assigned worker).slice costs.toArray).toList := by
  rw [loadOf, filterMap_zip ordered, rangeOf_eq, Span.slice, List.extract_toArray,
    List.extract_eq_take_drop, countP_lt_succ, Nat.add_sub_cancel_left]

end

/-- What the shares of a list of blocks look like. -/
structure Partition (d : Decomposition α) (blocks : List (Nat × α)) (workers : Nat) : Prop where
  order : d.order.toList = blocks.map Prod.fst
  ranges : d.numWorkers = workers
  ranks : d.numBlocks = blocks.length
  first : (d.range 0).start = 0
  next : ∀ worker, worker + 1 < workers → (d.range (worker + 1)).start = (d.range worker).stop
  last : (d.range (workers - 1)).stop = blocks.length
  occupied : ∀ worker < min blocks.length workers, (d.range worker).start < (d.range worker).stop
  idle : ∀ worker < workers, min blocks.length workers ≤ worker →
    d.range worker = ⟨blocks.length, blocks.length⟩
  owner : ∀ position gid worker : Nat, d.order[position]? = some gid →
    (d.ranks[gid]? = some worker ↔ (d.range worker).contains position = true)
  ascending : ∀ early late gid other rank later : Nat, early ≤ late →
    d.order[early]? = some gid → d.order[late]? = some other →
      d.ranks[gid]? = some rank → d.ranks[other]? = some later → rank ≤ later
  costs : ∀ worker < workers, d.costs[worker]? =
    some (CostNumber.sum ((d.range worker).slice (blocks.map Prod.snd).toArray).toList)

section

variable {blocks : List (Nat × α)} {workers : Nat} {d : Decomposition α}
  (sharing : ofBlocks blocks workers = .ok d)

include sharing

theorem toList_order : d.order.toList = blocks.map Prod.fst := by
  obtain ⟨_, _, _, rfl⟩ := ofBlocks_ok_iff.1 sharing
  rfl

theorem range_eq {worker : Nat} (bound : worker < workers) :
    d.range worker = rangeOf (scan (blocks.map Prod.snd) workers) worker := by
  obtain ⟨_, _, _, rfl⟩ := ofBlocks_ok_iff.1 sharing
  simp [range, Array.getD_eq_getD_getElem?, bound]

theorem range_of_le {worker : Nat} (beyond : workers ≤ worker) : d.range worker = ⟨0, 0⟩ := by
  obtain ⟨_, _, _, rfl⟩ := ofBlocks_ok_iff.1 sharing
  simp [range, Array.getD_eq_getD_getElem?, Nat.not_lt.2 beyond]

theorem rank_eq {position gid : Nat} (listed : d.order[position]? = some gid) :
    d.ranks[gid]? = (scan (blocks.map Prod.snd) workers)[position]? := by
  obtain ⟨_, numbered, _, rfl⟩ := ofBlocks_ok_iff.1 sharing
  have gids := perm_range_iff (blocks.map Prod.fst)
  rw [List.length_map] at gids
  obtain ⟨distinct, small⟩ := gids.1 numbered
  apply getElem?_byGid distinct
  · rw [List.length_map]
    exact small
  · simp
  · simpa using listed

theorem cost_eq {worker : Nat} (bound : worker < workers) : d.costs[worker]? =
    some (CostNumber.sum ((d.range worker).slice (blocks.map Prod.snd).toArray).toList) := by
  rw [range_eq sharing bound, ← loadOf_eq (scan_ordered ..)]
  obtain ⟨_, _, _, rfl⟩ := ofBlocks_ok_iff.1 sharing
  simp [bound]

/-- The spans lie between consecutive cuts of the order. -/
theorem exists_cuts : ∃ cuts : Nat → Nat, cuts 0 = 0 ∧ cuts workers = blocks.length ∧
    (∀ cut, cuts cut ≤ cuts (cut + 1)) ∧
    ∀ worker < workers, d.range worker = ⟨cuts worker, cuts (worker + 1)⟩ := by
  generalize scanned : scan (blocks.map Prod.snd) workers = assigned
  have whole : assigned.countP (· < workers) = blocks.length := by
    rw [← List.length_map Prod.snd, ← length_scan _ workers, scanned, List.countP_eq_length]
    intro worker member
    rw [← scanned] at member
    exact decide_eq_true (assign_lt (ofBlocks_ok_iff.1 sharing).1 member)
  refine ⟨fun cut => assigned.countP (· < cut), ?_, whole, ?_, ?_⟩
  · simp
  · intro cut
    dsimp only
    rw [countP_lt_succ]
    exact Nat.le_add_right _ _
  · intro worker bound
    rw [range_eq sharing bound, scanned, rangeOf_eq]

theorem rank_iff {position gid : Nat} (listed : d.order[position]? = some gid) (worker : Nat) :
    d.ranks[gid]? = some worker ↔ (d.range worker).contains position = true := by
  rw [rank_eq sharing listed]
  by_cases bound : worker < workers
  · rw [range_eq sharing bound, rangeOf_contains_iff (scan_ordered ..)]
  · rw [range_of_le sharing (Nat.not_lt.1 bound)]
    have none : ¬(scan (blocks.map Prod.snd) workers)[position]? = some worker := by
      intro known
      exact bound (assign_lt (ofBlocks_ok_iff.1 sharing).1 (List.mem_of_getElem? known))
    simp [none, Span.contains]

theorem partition_of_ofBlocks : d.Partition blocks workers := by
  obtain ⟨positive, _⟩ := ofBlocks_ok_iff.1 sharing
  obtain ⟨cuts, first, last, _, spans⟩ := exists_cuts sharing
  have member := mem_scan_iff positive (blocks.map Prod.snd)
  simp only [List.length_map] at member
  exact {
    order := toList_order sharing
    ranges := by
      obtain ⟨_, _, _, rfl⟩ := ofBlocks_ok_iff.1 sharing
      simp [numWorkers]
    ranks := by
      obtain ⟨_, _, _, rfl⟩ := ofBlocks_ok_iff.1 sharing
      simp [numBlocks]
    first := by rw [spans 0 positive, first]
    next := by
      intro worker bound
      rw [spans (worker + 1) bound, spans worker (by omega)]
    last := by
      rw [spans (workers - 1) (by omega), ← last, Nat.sub_add_cancel positive]
    occupied := by
      intro worker few
      rw [range_eq sharing (by omega), rangeOf_nonempty_iff]
      exact (member worker).2 few
    idle := by
      intro worker bound many
      rw [range_eq sharing bound, rangeOf_of_forall_lt, length_scan, List.length_map]
      intro other among
      exact Nat.lt_of_lt_of_le ((member other).1 among) many
    owner := by
      intro position gid worker listed
      exact rank_iff sharing listed worker
    ascending := by
      intro early late gid other rank later before listed found known beyond
      rw [rank_eq sharing listed] at known
      rw [rank_eq sharing found] at beyond
      rcases Nat.lt_or_eq_of_le before with apart | same
      · obtain ⟨_, rfl⟩ := List.getElem?_eq_some_iff.1 known
        obtain ⟨_, rfl⟩ := List.getElem?_eq_some_iff.1 beyond
        exact List.pairwise_iff_getElem.1 (scan_ordered ..) early late _ _ apart
      · rw [same, beyond, Option.some.injEq] at known
        exact Nat.le_of_eq known.symm
    costs := by
      intro worker bound
      exact cost_eq sharing bound }

end

/-- Blocks are shared out exactly if there is a worker, the gids number the blocks, and all costs are
valid. Whatever comes of comparing costs, the shares then partition the blocks in their order, and no
worker goes without a block unless there are fewer blocks than workers. -/
theorem partition_starves_nobody (blocks : List (Nat × α)) (workers : Nat) :
    ((∃ d, ofBlocks blocks workers = .ok d) ↔
      1 ≤ workers ∧ (blocks.map Prod.fst).Perm (List.range blocks.length) ∧
        ∀ cost ∈ blocks.map Prod.snd, CostNumber.isCost cost = true) ∧
    (∀ d, ofBlocks blocks workers = .ok d → d.Partition blocks workers) ∧
    ∀ cost : Float, CostNumber.isCost cost = true ↔ cost.isFinite = true ∧ 0 < cost := by
  refine ⟨?_, fun d => partition_of_ofBlocks, CostNumber.isCost_float_iff⟩
  constructor
  · intro shared
    obtain ⟨d, sharing⟩ := shared
    obtain ⟨positive, numbered, valid, _⟩ := ofBlocks_ok_iff.1 sharing
    exact ⟨positive, numbered, valid⟩
  · intro accepted
    obtain ⟨positive, numbered, valid⟩ := accepted
    exact ⟨_, ofBlocks_ok_iff.2 ⟨positive, numbered, valid, rfl⟩⟩

/-- Four blocks, the most expensive one last, in an order of their own. -/
def lastHeavy : List (Nat × Rat) := [(2, 1), (0, 1), (3, 1), (1, 100)]

/-- Of three workers the second and the third get a block because no more remain, of six the last two
get none, and without the last block the list is refused. -/
theorem partition_starves_nobody_lastHeavy :
    (∃ d, ofBlocks lastHeavy 3 = .ok d ∧ d.ranges = #[⟨0, 2⟩, ⟨2, 3⟩, ⟨3, 4⟩] ∧
      d.Partition lastHeavy 3) ∧
    (∃ d, ofBlocks lastHeavy 6 = .ok d ∧ d.range 4 = ⟨4, 4⟩ ∧ d.range 5 = ⟨4, 4⟩) ∧
    ¬∃ d, ofBlocks (lastHeavy.take 3) 3 = .ok d := by
  refine ⟨?_, ?_, ?_⟩
  · have computed : (ofBlocks lastHeavy 3).toOption.any (fun d =>
        d.ranges = #[⟨0, 2⟩, ⟨2, 3⟩, ⟨3, 4⟩]) = true := by
      decide +kernel
    obtain ⟨d, sharing, ranges⟩ := Outcome.exists_ok_of_any computed
    exact ⟨d, sharing, of_decide_eq_true ranges,
      (partition_starves_nobody lastHeavy 3).2.1 d sharing⟩
  · obtain ⟨accepted_iff, parts, _⟩ := partition_starves_nobody lastHeavy 6
    obtain ⟨d, sharing⟩ := accepted_iff.2 ⟨by decide, by decide, by decide +kernel⟩
    have partition := parts d sharing
    exact ⟨d, sharing, partition.idle 4 (by decide) (by decide),
      partition.idle 5 (by decide) (by decide)⟩
  · intro accepted
    obtain ⟨_, numbered, _⟩ := (partition_starves_nobody (lastHeavy.take 3) 3).1.1 accepted
    exact absurd numbered (by decide)

end Decomposition

end AdaptiveMesh
