import AdaptiveMesh.Cost

/-!
# Decompositions

A span holds the positions from a start up to but not including a stop. A decomposition hands every
worker a span of the traversal order, so consecutive blocks. One scan assigns the blocks: the next
worker starts when the running cost would pass the next multiple of the mean, or when only as many
blocks remain as there are workers still without one. Thus every worker gets a block as long as there
are enough. Everything is a function of the blocks and the number of workers, so all workers that
compute it agree.
-/

namespace AdaptiveMesh

set_option autoImplicit false

structure Span where
  start : Nat
  stop : Nat
deriving DecidableEq, Repr

namespace Span

def size (s : Span) : Nat := s.stop - s.start

def toList (s : Span) : List Nat := List.range' s.start s.size

def contains (s : Span) (position : Nat) : Bool := s.start ≤ position && position < s.stop

def slice {α : Type} (s : Span) (values : Array α) : Array α := values.extract s.start s.stop

@[simp] theorem mem_toList {s : Span} {position : Nat} :
    position ∈ s.toList ↔ s.contains position = true := by
  simp only [toList, size, contains, List.mem_range'_1, Bool.and_eq_true, decide_eq_true_eq]
  omega

@[simp] theorem length_toList (s : Span) : s.toList.length = s.size := by
  simp [toList]

end Span

inductive DecomposeError (α : Type) where
  | noWorkers
  | invalidGid (gid count : Nat)
  | duplicateGid (gid : Nat)
  | invalidCost (gid : Nat) (cost : α)
deriving Repr

def DecomposeError.message {α : Type} (costText : α → String) : DecomposeError α → String
  | noWorkers => "decomposition requires at least one worker"
  | invalidGid gid count => s!"block {gid} is out of range for {count} blocks"
  | duplicateGid gid => s!"block {gid} appears more than once"
  | invalidCost gid cost =>
      s!"block {gid} has invalid cost {costText cost}, costs must be finite and positive"

/-- The blocks of each worker. `order` lists the gids in traversal order, and `ranges` gives each
worker's span of that order. -/
structure Decomposition (α : Type) where
  /-- The worker of each block, by gid. -/
  ranks : Array Nat
  order : Array Nat
  ranges : Array Span
  /-- The summed cost of each worker. -/
  costs : Array α
deriving Repr

namespace Decomposition

variable {α : Type} [CostNumber α]

/-- Checks the blocks in order: each gid below the number of blocks and met for the first time, and
each cost finite and positive. `seen` marks the gids met before. -/
def checkBlocks (count : Nat) (seen : Array Bool) :
    List (Nat × α) → Except (DecomposeError α) Unit
  | [] => .ok ()
  | (gid, cost) :: rest =>
      if count ≤ gid then .error (.invalidGid gid count)
      else if seen.getD gid false then .error (.duplicateGid gid)
      else if !CostNumber.isCost cost then .error (.invalidCost gid cost)
      else checkBlocks count (seen.setIfInBounds gid true) rest

/-- The running cost that the first `k` of the workers are meant to carry together. -/
def threshold (total : α) (workers k : Nat) : α :=
  total * CostNumber.ofCount k / CostNumber.ofCount workers

/-- The worker of each block in traversal order. The scan is at worker `rank`, who already has a
block if `occupied`; `running` is the cost of all blocks before. -/
def assign (total : α) (workers : Nat) :
    (rank : Nat) → (occupied : Bool) → (running : α) → List α → List Nat
  | _, _, _, [] => []
  | rank, occupied, running, cost :: rest =>
      let waiting := workers - 1 - rank
      let full : Bool := threshold total workers (rank + 1) < running + cost
      let scarce : Bool := rest.length + 1 ≤ waiting
      let rank := if occupied && 0 < waiting && (full || scarce) then rank + 1 else rank
      rank :: assign total workers rank true (running + cost) rest

/-- The span of the traversal order with a given worker, where workers come in order. -/
def rangeOf (assigned : List Nat) (worker : Nat) : Span :=
  ⟨assigned.countP (· < worker), assigned.countP (· ≤ worker)⟩

def loadOf (assigned : List Nat) (costs : List α) (worker : Nat) : α :=
  CostNumber.sum ((assigned.zip costs).filterMap fun (rank, cost) =>
    if rank = worker then some cost else none)

def byGid (order assigned : List Nat) : Array Nat :=
  (order.zip assigned).foldl (fun ranks (gid, rank) => ranks.setIfInBounds gid rank)
    (Array.replicate order.length 0)

def ofBlocks (blocks : List (Nat × α)) (workers : Nat) :
    Except (DecomposeError α) (Decomposition α) := do
  if workers = 0 then throw .noWorkers
  checkBlocks blocks.length (Array.replicate blocks.length false) blocks
  let order := blocks.map Prod.fst
  let costs := blocks.map Prod.snd
  let assigned := assign (CostNumber.sum costs) workers 0 false CostNumber.zero costs
  return {
    ranks := byGid order assigned
    order := order.toArray
    ranges := ((List.range workers).map (rangeOf assigned)).toArray
    costs := ((List.range workers).map (loadOf assigned costs)).toArray }

def ofCosts (costs : Array α) (workers : Nat) : Except (DecomposeError α) (Decomposition α) :=
  ofBlocks (costs.toList.zipIdx.map Prod.swap) workers

def uniform (α : Type) [CostNumber α] (count workers : Nat) :
    Except (DecomposeError α) (Decomposition α) :=
  ofCosts (Array.replicate count CostNumber.unit) workers

variable (d : Decomposition α)

def numWorkers : Nat := d.ranges.size

def numBlocks : Nat := d.ranks.size

def range (worker : Nat) : Span := d.ranges.getD worker ⟨0, 0⟩

def blocksOf (worker : Nat) : Array Nat := (d.range worker).slice d.order

/-- The ratio of the largest cost of a worker to the mean; one if there is nothing to do. -/
def imbalance : α :=
  let total := CostNumber.sum d.costs.toList
  if total ≤ CostNumber.zero then CostNumber.unit
  else
    let largest := d.costs.toList.foldl CostNumber.larger CostNumber.zero
    largest * CostNumber.ofCount d.costs.size / total

end Decomposition

end AdaptiveMesh
