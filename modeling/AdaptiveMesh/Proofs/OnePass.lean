import AdaptiveMesh.Proofs.Partition

/-!
# Sharing out in one pass

The shares can be written down while the scan is under way: each block that is assigned sets its worker,
is appended to the order, ends the span of its worker behind it, and adds its cost to that worker's load.
Nothing but the tables tells the scan whether its worker has a block yet. After every block the tables
hold what the list of assigned workers says so far, so in the end they are the shares.
-/

namespace AdaptiveMesh

set_option autoImplicit false

namespace Decomposition

variable {α : Type} [CostNumber α]

/-- The tables as far as they are written, the worker that the scan is at, and the cost of all blocks so
far. -/
structure Pass (α : Type) where
  ranks : Array Nat
  order : Array Nat
  ranges : Array Span
  costs : Array α
  rank : Nat
  running : α

namespace Pass

def start (count workers : Nat) : Pass α where
  ranks := Array.replicate count 0
  order := #[]
  ranges := Array.replicate workers ⟨0, 0⟩
  costs := Array.replicate workers CostNumber.zero
  rank := 0
  running := CostNumber.zero

def occupied (pass : Pass α) : Bool :=
  let span := pass.ranges.getD pass.rank ⟨0, 0⟩
  span.start < span.stop

def nextWorker (pass : Pass α) (index : Nat) : Pass α :=
  { pass with
    rank := pass.rank + 1
    ranges := pass.ranges.setIfInBounds (pass.rank + 1) ⟨index, index⟩ }

def take (pass : Pass α) (index gid : Nat) (cost : α) : Pass α where
  ranks := pass.ranks.setIfInBounds gid pass.rank
  order := pass.order.push gid
  ranges := pass.ranges.modify pass.rank fun span => { span with stop := index + 1 }
  costs := pass.costs.modify pass.rank (· + cost)
  rank := pass.rank
  running := pass.running + cost

omit [CostNumber α] in
@[simp] theorem rank_nextWorker (pass : Pass α) (index : Nat) :
    (pass.nextWorker index).rank = pass.rank + 1 := rfl

@[simp] theorem rank_take (pass : Pass α) (index gid : Nat) (cost : α) :
    (pass.take index gid cost).rank = pass.rank := rfl

@[simp] theorem running_take (pass : Pass α) (index gid : Nat) (cost : α) :
    (pass.take index gid cost).running = pass.running + cost := rfl

def step (total : α) (count workers : Nat) (pass : Pass α) : (Nat × α) × Nat → Pass α
  | ((gid, cost), index) =>
      let remaining := count - index
      let waiting := workers - 1 - pass.rank
      let full : Bool := threshold total workers (pass.rank + 1) < pass.running + cost
      let scarce : Bool := remaining ≤ waiting
      if pass.occupied && 0 < waiting && (full || scarce) then
        (pass.nextWorker index).take index gid cost
      else pass.take index gid cost

def finish (pass : Pass α) (count workers : Nat) : Decomposition α where
  ranks := pass.ranks
  order := pass.order
  ranges := (List.range' (pass.rank + 1) (workers - (pass.rank + 1))).foldl
    (fun ranges worker => ranges.setIfInBounds worker ⟨count, count⟩) pass.ranges
  costs := pass.costs

end Pass

def ofBlocksInOnePass (blocks : List (Nat × α)) (workers : Nat) :
    Except (DecomposeError α) (Decomposition α) := do
  if workers = 0 then throw .noWorkers
  checkBlocks blocks.length (Array.replicate blocks.length false) blocks
  let total := CostNumber.sum (blocks.map Prod.snd)
  let pass := blocks.zipIdx.foldl (Pass.step total blocks.length workers)
    (Pass.start blocks.length workers)
  return pass.finish blocks.length workers

section

variable {assigned : List Nat} {worker rank : Nat}

theorem rangeOf_append_of_lt (earlier : worker < rank) :
    rangeOf (assigned ++ [rank]) worker = rangeOf assigned worker := by
  rw [rangeOf, rangeOf, List.countP_append, List.countP_append]
  simp [Nat.le_of_lt earlier, earlier]

theorem rangeOf_append_self (below : ∀ other ∈ assigned, other ≤ rank) :
    rangeOf (assigned ++ [rank]) rank =
      ⟨(rangeOf assigned rank).start, assigned.length + 1⟩ := by
  have whole : assigned.countP (· ≤ rank) = assigned.length := by
    rw [List.countP_eq_length]
    intro other member
    exact decide_eq_true (below other member)
  rw [rangeOf, rangeOf, List.countP_append, List.countP_append, whole]
  simp

theorem loadOf_append (worker rank : Nat) {costs : List α} (length : assigned.length = costs.length)
    (cost : α) : loadOf (assigned ++ [rank]) (costs ++ [cost]) worker =
      if rank = worker then loadOf assigned costs worker + cost else loadOf assigned costs worker := by
  rw [loadOf, List.zip_append length, List.filterMap_append, CostNumber.sum, List.foldl_append]
  by_cases here : rank = worker
  · simp [here, loadOf, CostNumber.sum]
  · simp [here, loadOf, CostNumber.sum]

end

namespace Pass

/-- Whether the tables are those of the blocks done so far, which have gone to the workers `assigned`. Spans
of workers that have not been reached are still blank. -/
structure Holds (pass : Pass α) (count workers : Nat) (done : List (Nat × α)) (assigned : List Nat) :
    Prop where
  length : assigned.length = done.length
  below : ∀ other ∈ assigned, other ≤ pass.rank
  inside : pass.rank < workers
  ranks : pass.ranks = ((done.map Prod.fst).zip assigned).foldl
    (fun ranks (gid, rank) => ranks.setIfInBounds gid rank) (Array.replicate count 0)
  order : pass.order = (done.map Prod.fst).toArray
  ranges : ∀ worker : Nat, pass.ranges[worker]? = if worker < workers then
    some (if worker ≤ pass.rank then rangeOf assigned worker else ⟨0, 0⟩) else none
  costs : ∀ worker : Nat, pass.costs[worker]? = if worker < workers then
    some (loadOf assigned (done.map Prod.snd) worker) else none
  running : pass.running = CostNumber.sum (done.map Prod.snd)

variable {pass : Pass α} {count workers : Nat} {done rest : List (Nat × α)} {assigned : List Nat}

theorem holds_start (count : Nat) (positive : 0 < workers) :
    (start count workers : Pass α).Holds count workers [] [] where
  length := rfl
  below := fun _ member => absurd member List.not_mem_nil
  inside := positive
  ranks := rfl
  order := rfl
  ranges := by
    intro worker
    rw [start, Array.getElem?_replicate]
    split
    · split <;> rfl
    · rfl
  costs := fun worker => Array.getElem?_replicate
  running := rfl

section

variable (holds : pass.Holds count workers done assigned)

include holds

theorem Holds.size_ranges : pass.ranges.size = workers := by
  have edge (worker : Nat) : pass.ranges.size ≤ worker ↔ workers ≤ worker := by
    rw [← Array.getElem?_eq_none_iff, holds.ranges]
    split
    · rename_i bound
      simpa using bound
    · rename_i beyond
      simpa using beyond
  exact Nat.le_antisymm ((edge workers).2 (Nat.le_refl _)) ((edge _).1 (Nat.le_refl _))

theorem Holds.occupied_iff : pass.occupied = true ↔ pass.rank ∈ assigned := by
  have span : pass.ranges.getD pass.rank ⟨0, 0⟩ = rangeOf assigned pass.rank := by
    rw [Array.getD_eq_getD_getElem?, holds.ranges, if_pos holds.inside, if_pos (Nat.le_refl _)]
    rfl
  rw [occupied, span, decide_eq_true_iff, rangeOf_nonempty_iff]

theorem Holds.nextWorker (more : pass.rank + 1 < workers) :
    (pass.nextWorker done.length).Holds count workers done assigned where
  length := holds.length
  below := fun other member => Nat.le_succ_of_le (holds.below other member)
  inside := more
  ranks := holds.ranks
  order := holds.order
  ranges := by
    intro worker
    -- the span of the new worker starts behind all blocks, as that of any worker that has none
    have fresh : rangeOf assigned (pass.rank + 1) = ⟨done.length, done.length⟩ := by
      rw [rangeOf_of_forall_lt, holds.length]
      intro other member
      exact Nat.lt_succ_of_le (holds.below other member)
    have known := holds.ranges worker
    have size : pass.rank + 1 < pass.ranges.size := by
      rw [holds.size_ranges]
      exact more
    rw [rank_nextWorker, Pass.nextWorker]
    by_cases here : pass.rank + 1 = worker
    · rw [← here, Array.getElem?_setIfInBounds_self_of_lt size, if_pos more,
        if_pos (Nat.le_refl _), fresh]
    · have same : worker ≤ pass.rank + 1 ↔ worker ≤ pass.rank := by omega
      rw [Array.getElem?_setIfInBounds_ne here, known]
      simp only [same]
  costs := holds.costs
  running := holds.running

theorem Holds.take (gid : Nat) (cost : α) :
    (pass.take done.length gid cost).Holds count workers (done ++ [(gid, cost)])
      (assigned ++ [pass.rank]) where
  length := by rw [List.length_append, List.length_append, holds.length]; rfl
  below := by
    intro other member
    cases List.mem_append.1 member with
    | inl before => exact holds.below other before
    | inr last => exact Nat.le_of_eq (List.mem_singleton.1 last)
  inside := holds.inside
  ranks := by
    have length : (done.map Prod.fst).length = assigned.length := by
      rw [List.length_map, holds.length]
    rw [Pass.take, List.map_append, List.zip_append length, List.foldl_append, ← holds.ranks]
    rfl
  order := by
    rw [Pass.take, holds.order, List.map_append, List.push_toArray]
    rfl
  ranges := by
    intro worker
    rw [rank_take, Pass.take, Array.getElem?_modify, holds.ranges]
    by_cases bound : worker < workers
    · rw [if_pos bound, if_pos bound]
      rcases Nat.lt_trichotomy worker pass.rank with earlier | here | later
      · have reached := Nat.le_of_lt earlier
        rw [if_neg (Nat.ne_of_gt earlier), if_pos reached, if_pos reached,
          rangeOf_append_of_lt earlier]
      · have reached := Nat.le_of_eq here
        rw [if_pos here.symm, if_pos reached, if_pos reached, here, rangeOf_append_self holds.below,
          holds.length]
        rfl
      · have blank := Nat.not_le.2 later
        rw [if_neg (Nat.ne_of_lt later), if_neg blank, if_neg blank]
    · rw [if_neg bound, if_neg bound]
      split <;> rfl
  costs := by
    intro worker
    have length : assigned.length = (done.map Prod.snd).length := by
      rw [List.length_map, holds.length]
    rw [Pass.take, Array.getElem?_modify, holds.costs, List.map_append]
    have more := loadOf_append worker pass.rank length cost
    by_cases bound : worker < workers
    · rw [if_pos bound, if_pos bound]
      by_cases here : pass.rank = worker
      · rw [if_pos here] at more ⊢
        exact congrArg some more.symm
      · rw [if_neg here] at more ⊢
        exact congrArg some more.symm
    · rw [if_neg bound, if_neg bound]
      split <;> rfl
  running := by
    rw [running_take, holds.running, List.map_append, CostNumber.sum, CostNumber.sum, List.foldl_append]
    rfl

theorem Holds.step (total : α) (gid : Nat) (cost : α)
    (whole : count = done.length + (rest.length + 1)) :
    ∃ worker, assign total workers pass.rank pass.occupied pass.running (cost :: rest.map Prod.snd) =
        worker :: assign total workers worker true (pass.running + cost) (rest.map Prod.snd) ∧
      (Pass.step total count workers pass ((gid, cost), done.length)).Holds count workers
        (done ++ [(gid, cost)]) (assigned ++ [worker]) ∧
      (Pass.step total count workers pass ((gid, cost), done.length)).rank = worker ∧
      (Pass.step total count workers pass ((gid, cost), done.length)).running =
        pass.running + cost := by
  have remaining : count - done.length = (rest.map Prod.snd).length + 1 := by
    rw [List.length_map]
    omega
  refine ⟨_, rfl, ?_⟩
  simp only [Pass.step, remaining]
  split
  · rename_i moves
    have more : pass.rank + 1 < workers := by
      simp only [Bool.and_eq_true, decide_eq_true_eq] at moves
      omega
    exact ⟨(holds.nextWorker more).take gid cost, rfl, rfl⟩
  · exact ⟨holds.take gid cost, rfl, rfl⟩

end

/-- The tables follow the scan from any block on. -/
theorem Holds.run (total : α) (holds : pass.Holds count workers done assigned)
    (whole : count = done.length + rest.length) :
    ((rest.zipIdx done.length).foldl (Pass.step total count workers) pass).Holds count workers
      (done ++ rest)
      (assigned ++ assign total workers pass.rank pass.occupied pass.running (rest.map Prod.snd)) := by
  induction rest generalizing pass done assigned with
  | nil => simpa [assign] using holds
  | cons block rest ih =>
      obtain ⟨gid, cost⟩ := block
      obtain ⟨worker, moves, next, rank, running⟩ :=
        holds.step total gid cost whole
      have busy : (Pass.step total count workers pass ((gid, cost), done.length)).occupied = true := by
        rw [next.occupied_iff, rank]
        exact List.mem_append_right _ (List.mem_singleton_self worker)
      have later := ih next (by rw [List.length_append, whole, List.length_cons]; simp; omega)
      rw [busy, rank, running, List.length_append] at later
      rw [List.zipIdx_cons, List.foldl_cons, List.map_cons, moves]
      simpa using later

omit [CostNumber α] in
theorem getElem?_foldl_set {β : Type} (positions : List Nat) (value : β) (array : Array β)
    (position : Nat) :
    (positions.foldl (fun array position => array.setIfInBounds position value) array)[position]? =
      if position ∈ positions ∧ position < array.size then some value else array[position]? := by
  induction positions generalizing array with
  | nil => simp
  | cons first rest ih =>
      rw [List.foldl_cons, ih, Array.size_setIfInBounds, Array.getElem?_setIfInBounds]
      by_cases bound : position < array.size
      · by_cases here : first = position
        · simp [here, bound]
        · simp [here, Ne.symm here, bound]
      · have missing : array[position]? = none := Array.getElem?_eq_none (Nat.not_lt.1 bound)
        simp only [bound, and_false, if_false, missing]
        split
        · rename_i here
          rw [here, if_neg bound]
        · rfl

section

variable {blocks : List (Nat × α)} (holds : pass.Holds blocks.length workers blocks assigned)

include holds

theorem Holds.finish_costs : pass.costs =
    ((List.range workers).map (loadOf assigned (blocks.map Prod.snd))).toArray := by
  apply Array.ext_getElem?
  intro worker
  rw [holds.costs, List.getElem?_toArray, List.getElem?_map]
  by_cases bound : worker < workers
  · rw [if_pos bound, List.getElem?_range bound, Option.map_some]
  · rw [if_neg bound, List.getElem?_eq_none (by simpa using bound), Option.map_none]

theorem Holds.finish_ranges : (pass.finish blocks.length workers).ranges =
    ((List.range workers).map (rangeOf assigned)).toArray := by
  apply Array.ext_getElem?
  intro worker
  have idle : worker ∈ List.range' (pass.rank + 1) (workers - (pass.rank + 1)) ∧ worker < workers ↔
      pass.rank < worker ∧ worker < workers := by
    rw [List.mem_range'_1]
    omega
  rw [finish, getElem?_foldl_set, holds.ranges, holds.size_ranges, List.getElem?_toArray,
    List.getElem?_map]
  simp only [idle]
  by_cases bound : worker < workers
  · rw [if_pos bound, List.getElem?_range bound, Option.map_some]
    by_cases reached : worker ≤ pass.rank
    · rw [if_neg (by omega), if_pos reached]
    · rw [if_pos (by omega), rangeOf_of_forall_lt, holds.length]
      intro other member
      exact Nat.lt_of_le_of_lt (holds.below other member) (Nat.not_le.1 reached)
  · rw [if_neg bound, if_neg fun behind => bound behind.2,
      List.getElem?_eq_none (by simpa using bound), Option.map_none]

theorem Holds.finish : pass.finish blocks.length workers =
    ⟨byGid (blocks.map Prod.fst) assigned, (blocks.map Prod.fst).toArray,
      ((List.range workers).map (rangeOf assigned)).toArray,
      ((List.range workers).map (loadOf assigned (blocks.map Prod.snd))).toArray⟩ := by
  have ranks : pass.ranks = byGid (blocks.map Prod.fst) assigned := by
    rw [holds.ranks, byGid, List.length_map]
  rw [← ranks, ← holds.order, ← holds.finish_ranges, ← holds.finish_costs]
  rfl

end

end Pass

/-- Writing the shares down block by block gives what reading them off the list of workers gives. -/
theorem ofBlocksInOnePass_eq (blocks : List (Nat × α)) (workers : Nat) :
    ofBlocksInOnePass blocks workers = ofBlocks blocks workers := by
  unfold ofBlocksInOnePass ofBlocks
  by_cases idle : workers = 0
  · rw [if_pos idle, if_pos idle]
    rfl
  · rw [if_neg idle, if_neg idle]
    have positive : 0 < workers := Nat.pos_of_ne_zero idle
    have run := (Pass.holds_start blocks.length positive).run
      (CostNumber.sum (blocks.map Prod.snd)) (Nat.zero_add blocks.length).symm
    have free : (Pass.start blocks.length workers : Pass α).occupied = false := by
      rw [← Bool.not_eq_true, (Pass.holds_start blocks.length positive).occupied_iff]
      exact List.not_mem_nil
    rw [free, List.nil_append, List.nil_append] at run
    have finished := run.finish
    cases checkBlocks blocks.length (Array.replicate blocks.length false) blocks with
    | error e => rfl
    | ok done => exact congrArg Except.ok finished

end Decomposition

end AdaptiveMesh
