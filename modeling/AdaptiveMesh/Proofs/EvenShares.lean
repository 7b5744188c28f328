import AdaptiveMesh.Proofs.Loads
import Mathlib.Data.Nat.ModEq

/-!
# Even shares

In exact arithmetic blocks of equal cost are split evenly: the workers' spans end at the multiples of the
mean, rounded down. As long as there are blocks enough for all, the rule that leaves a worker for want of
blocks asks for nothing that the costs do not ask for: where no more blocks remain than workers wait, the
running cost has already reached the share.
-/

namespace AdaptiveMesh

set_option autoImplicit false

namespace Decomposition

section

variable {α : Type} [CostNumber α]

/-- The worker of each block if a worker is left only because of the costs, also when no more blocks remain
than workers wait. -/
def assignByCost (total : α) (workers : Nat) :
    (rank : Nat) → (occupied : Bool) → (running : α) → List α → List Nat
  | _, _, _, [] => []
  | rank, occupied, running, cost :: rest =>
      let full : Bool := threshold total workers (rank + 1) < running + cost
      let rank := if occupied && 0 < workers - 1 - rank && full then rank + 1 else rank
      rank :: assignByCost total workers rank true (running + cost) rest

end

section

variable {count workers worker position : Nat}

theorem mul_div_lt_mul_succ_div (few : workers ≤ count) (positive : 0 < workers) (worker : Nat) :
    count * worker / workers < count * (worker + 1) / workers := by
  calc count * worker / workers
      < count * worker / workers + 1 := Nat.lt_succ_self _
    _ = (count * worker + workers) / workers := (Nat.add_div_right _ positive).symm
    _ ≤ count * (worker + 1) / workers := by
        rw [Nat.mul_succ]
        exact Nat.div_le_div_right (Nat.add_le_add_left few _)

theorem mul_succ_div_le_of_scarce (few : workers ≤ count) (more : worker + 1 < workers)
    (bound : position < count) (scarce : count - position ≤ workers - 1 - worker) :
    count * (worker + 1) / workers ≤ position := by
  obtain ⟨waiting, rfl⟩ := Nat.exists_eq_add_of_lt more
  obtain ⟨remaining, rfl⟩ := Nat.exists_eq_add_of_lt bound
  rw [← Nat.lt_succ_iff, Nat.div_lt_iff_lt_mul (by omega)]
  have fewer : remaining + 1 ≤ waiting + 1 := by omega
  have reached : worker + 1 ≤ position := by omega
  calc (position + remaining + 1) * (worker + 1)
      = position * (worker + 1) + (remaining + 1) * (worker + 1) := by ring
    _ ≤ position * (worker + 1) + (waiting + 1) * position :=
        Nat.add_le_add_left (Nat.mul_le_mul fewer reached) _
    _ < position * (worker + 1) + (waiting + 1) * position + (worker + 1 + waiting + 1) := by omega
    _ = (position + 1) * (worker + 1 + waiting + 1) := by ring

theorem costBefore_ones (bound : position ≤ count) :
    costBefore (List.replicate count 1) position = position := by
  rw [costBefore, List.take_replicate, Nat.min_eq_left bound, List.sum_replicate, nsmul_eq_mul,
    mul_one]

/-- The running cost of equal blocks goes beyond a share as soon as their number reaches it. -/
theorem share_lt_iff (positive : 0 < workers) :
    share (List.replicate count 1) workers worker < ((position + 1 : Nat) : Rat) ↔
      count * (worker + 1) / workers ≤ position := by
  have staffed : (0 : Rat) < workers := Nat.cast_pos.2 positive
  rw [share, List.sum_replicate, nsmul_eq_mul, mul_one, div_lt_iff₀ staffed, ← Nat.cast_add_one,
    ← Nat.cast_mul, ← Nat.cast_mul, Nat.cast_lt, ← Nat.div_lt_iff_lt_mul positive, Nat.lt_succ_iff]

theorem moves_ones_iff (few : workers ≤ count) (bound : position < count) :
    Moves (List.replicate count 1) workers worker position ↔
      worker + 1 < workers ∧ count * (worker + 1) / workers ≤ position := by
  rw [Moves, costBefore_ones bound, List.length_replicate]
  apply and_congr_right
  intro more
  rw [share_lt_iff (Nat.zero_lt_of_lt more)]
  exact or_iff_left_of_imp (mul_succ_div_le_of_scarce few more bound)

theorem exists_scan_ones (workers : Nat) (bound : position < count) :
    ∃ worker, (scan (List.replicate count (1 : Rat)) workers)[position]? = some worker := by
  refine ⟨_, List.getElem?_eq_getElem ?_⟩
  rwa [length_scan, List.length_replicate]

/-- A worker's blocks lie between two multiples of the mean. -/
theorem scan_ones_bounds (few : workers ≤ count) (positive : 0 < workers)
    (known : (scan (List.replicate count (1 : Rat)) workers)[position]? = some worker) :
    count * worker / workers ≤ position ∧ position < count * (worker + 1) / workers := by
  have bound := (List.getElem?_eq_some_iff.1 known).1
  rw [length_scan, List.length_replicate] at bound
  -- the block before lies within its bounds, and the next worker starts just where these end
  induction position generalizing worker with
  | zero =>
      rw [scan_first (by rwa [List.length_replicate])] at known
      cases known
      rw [Nat.mul_zero, Nat.zero_div, Nat.zero_add, Nat.mul_one]
      exact ⟨le_rfl, Nat.div_pos few positive⟩
  | succ position ih =>
      obtain ⟨last, before⟩ := exists_scan_ones workers (Nat.lt_of_succ_lt bound)
      have small := assign_lt positive (List.mem_of_getElem? before)
      obtain ⟨lower, upper⟩ := ih before (by omega)
      cases scan_next before (by rwa [List.length_replicate]) with
      | inl next =>
          obtain ⟨moves, there⟩ := next
          cases there.symm.trans known
          have reached := ((moves_ones_iff few bound).1 moves).2
          have further := mul_div_lt_mul_succ_div few positive (last + 1)
          omega
      | inr stays =>
          obtain ⟨stays, there⟩ := stays
          cases there.symm.trans known
          rw [moves_ones_iff few bound] at stays
          refine ⟨by omega, ?_⟩
          by_cases more : worker + 1 < workers
          · by_contra reached
            exact stays ⟨more, by omega⟩
          · have whole : worker + 1 = workers := by omega
            rw [whole, Nat.mul_div_cancel _ positive]
            exact bound

theorem scan_ones_iff (few : workers ≤ count) (small : worker < workers) :
    (scan (List.replicate count (1 : Rat)) workers)[position]? = some worker ↔
      count * worker / workers ≤ position ∧ position < count * (worker + 1) / workers := by
  have positive := Nat.zero_lt_of_lt small
  have ascending {early late : Nat} (before : early < late) :
      count * (early + 1) / workers ≤ count * late / workers :=
    Nat.div_le_div_right (Nat.mul_le_mul_left count before)
  constructor
  · intro known
    exact scan_ones_bounds few positive known
  · intro between
    have whole := ascending small
    rw [Nat.mul_div_cancel _ positive] at whole
    obtain ⟨owner, known⟩ := exists_scan_ones workers (between.2.trans_le whole)
    obtain ⟨lower, upper⟩ := scan_ones_bounds few positive known
    rcases Nat.lt_trichotomy owner worker with early | same | late
    · have apart := ascending early
      omega
    · rw [known, same]
    · have apart := ascending late
      omega

theorem scan_ones_of_few (few : count < workers) (bound : position < count) :
    (scan (List.replicate count (1 : Rat)) workers)[position]? = some position := by
  induction position with
  | zero => exact scan_first (by rwa [List.length_replicate])
  | succ position ih =>
      cases scan_next (ih (by omega)) (by rwa [List.length_replicate]) with
      | inl next => exact next.2
      | inr stays =>
          refine absurd ⟨by omega, .inr ?_⟩ stays.1
          rw [List.length_replicate]
          omega

theorem threshold_lt_of_scarce {rank remaining : Nat} (few : workers ≤ count) (left : remaining < count)
    (waiting : 0 < workers - 1 - rank) (scarce : remaining + 1 ≤ workers - 1 - rank) :
    threshold (count : Rat) workers (rank + 1) < ((count - remaining : Nat) : Rat) := by
  have reached : count * (rank + 1) / workers ≤ count - (remaining + 1) :=
    mul_succ_div_le_of_scarce few (by omega) (by omega) (by omega)
  have beyond := (share_lt_iff (by omega)).2 reached
  have next : count - (remaining + 1) + 1 = count - remaining := by omega
  rw [next, share, List.sum_replicate, nsmul_eq_mul, mul_one, ← Nat.cast_add_one] at beyond
  exact beyond

/-- Without the rule that leaves a worker for want of blocks the scan goes the same way. -/
theorem assign_eq_assignByCost {rank remaining : Nat} {occupied : Bool} (few : workers ≤ count)
    (left : remaining ≤ count) :
    assign (count : Rat) workers rank occupied ((count - remaining : Nat) : Rat)
        (List.replicate remaining 1) =
      assignByCost (count : Rat) workers rank occupied ((count - remaining : Nat) : Rat)
        (List.replicate remaining 1) := by
  induction remaining generalizing rank occupied with
  | zero => rfl
  | succ remaining ih =>
      have step : ((count - (remaining + 1) : Nat) : Rat) + 1 = ((count - remaining : Nat) : Rat) := by
        rw [← Nat.cast_add_one]
        congr 1
        omega
      have sameChoice : (occupied && decide (0 < workers - 1 - rank) &&
          (decide (threshold (count : Rat) workers (rank + 1) < ((count - remaining : Nat) : Rat)) ||
            decide (remaining + 1 ≤ workers - 1 - rank))) =
          (occupied && decide (0 < workers - 1 - rank) &&
            decide (threshold (count : Rat) workers (rank + 1) < ((count - remaining : Nat) : Rat))) := by
        by_cases waiting : 0 < workers - 1 - rank
        · by_cases scarce : remaining + 1 ≤ workers - 1 - rank
          · rw [decide_eq_true (threshold_lt_of_scarce few left waiting scarce), Bool.true_or]
          · rw [decide_eq_false scarce, Bool.or_false]
        · rw [decide_eq_false waiting, Bool.and_false, Bool.false_and, Bool.false_and]
      rw [List.replicate_succ, assign, assignByCost, List.length_replicate, step]
      rw [sameChoice, ih (Nat.le_of_succ_le left)]

theorem scan_ones_eq_assignByCost (few : workers ≤ count) :
    scan (List.replicate count (1 : Rat)) workers =
      assignByCost (count : Rat) workers 0 false 0 (List.replicate count 1) := by
  have nothing : ((count - count : Nat) : Rat) = 0 := by rw [Nat.sub_self, Nat.cast_zero]
  rw [scan, CostNumber.sum_rat, CostNumber.zero_rat, List.sum_replicate, nsmul_eq_mul, mul_one,
    ← nothing]
  exact assign_eq_assignByCost few le_rfl

theorem mul_succ_div_sub_mul_div (count workers worker : Nat) :
    count / workers ≤ count * (worker + 1) / workers - count * worker / workers ∧
      count * (worker + 1) / workers - count * worker / workers ≤ count / workers + 1 := by
  have least : count * worker / workers + count / workers ≤ (count * worker + count) / workers :=
    Nat.div_add_div_le_add_div
  have most := Nat.add_div_le_div_add_div_add_one (count * worker) count workers
  rw [Nat.mul_succ, Nat.sub_le_iff_le_add']
  exact ⟨Nat.le_sub_of_add_le' least, most⟩

theorem toList_slice_range {start stop : Nat} (ordered : start ≤ stop) (inside : stop ≤ count) :
    ((⟨start, stop⟩ : Span).slice (List.range count).toArray).toList =
      (⟨start, stop⟩ : Span).toList := by
  obtain ⟨size, rfl⟩ := Nat.exists_eq_add_of_le ordered
  obtain ⟨rest, rfl⟩ := Nat.exists_eq_add_of_le inside
  have before : List.range' 0 start ++ List.range' (0 + start) (size + rest) =
      List.range' 0 (start + (size + rest)) := List.range'_append_1
  have after : List.range' (0 + start) size ++ List.range' (0 + start + size) rest =
      List.range' (0 + start) (size + rest) := List.range'_append_1
  rw [Span.slice, Span.toList, Span.size, List.extract_toArray, List.extract_eq_take_drop,
    List.range_eq_range', Nat.add_assoc, ← before, ← after, List.drop_left' List.length_range',
    Nat.add_sub_cancel_left, Nat.zero_add]
  exact List.take_left' List.length_range'

section

variable {d : Decomposition Rat} (sharing : uniform Rat count workers = .ok d)

include sharing

theorem ranks_of_uniform : d.ranks.toList = scan (List.replicate count (1 : Rat)) workers := by
  have unit : (CostNumber.unit : Rat) = 1 := Nat.cast_one
  obtain ⟨_, _, assigned, assigning, rfl⟩ := ofCosts_ok_iff.1 sharing
  rw [Array.toList_replicate, unit] at assigning
  exact assigning

theorem range_of_uniform (small : worker < workers) {first stop : Nat} (occupied : first < stop)
    (owned : ∀ position : Nat,
      (scan (List.replicate count (1 : Rat)) workers)[position]? = some worker ↔
        first ≤ position ∧ position < stop) : d.range worker = ⟨first, stop⟩ := by
  rw [← ranks_of_uniform sharing] at owned
  rw [← rangeOf_eq_of_iff _ occupied owned]
  all_goals obtain ⟨_, _, assigned, assigning, rfl⟩ := ofCosts_ok_iff.1 sharing
  · simp [range, Array.getD_eq_getD_getElem?, small]
  · rw [assigning]
    exact assign_ordered ..

theorem blocksOf_of_uniform (small : worker < workers) :
    (d.blocksOf worker).toList = (d.range worker).toList := by
  have inside := (shared_of_ofCosts sharing).ordered worker small
  rw [Array.size_replicate] at inside
  have order : d.order = (List.range count).toArray := by
    obtain ⟨_, _, _, _, rfl⟩ := ofCosts_ok_iff.1 sharing
    rw [Array.size_replicate]
  rw [blocksOf, order, toList_slice_range inside.1 inside.2]

end

/-- What an even split of blocks looks like. -/
structure Even (d : Decomposition Rat) (count workers : Nat) : Prop where
  range : ∀ worker < workers, d.range worker =
    ⟨count * worker / workers, count * (worker + 1) / workers⟩
  blocks : ∀ worker < workers, (d.blocksOf worker).toList = (d.range worker).toList
  sizes : ∀ worker < workers, ∀ other < workers,
    (d.blocksOf worker).size ≤ (d.blocksOf other).size + 1
  /-- The costs alone lead to the same shares. -/
  byCost : d.ranks.toList = assignByCost (count : Rat) workers 0 false 0 (List.replicate count 1)

theorem even_of_uniform {d : Decomposition Rat} (sharing : uniform Rat count workers = .ok d)
    (few : workers ≤ count) : d.Even count workers := by
  have positive := (ofCosts_ok_iff.1 sharing).1
  have ranges (worker : Nat) (small : worker < workers) : d.range worker =
      ⟨count * worker / workers, count * (worker + 1) / workers⟩ := by
    apply range_of_uniform sharing small (mul_div_lt_mul_succ_div few positive worker)
    intro position
    exact scan_ones_iff few small
  have size (worker : Nat) (small : worker < workers) : (d.blocksOf worker).size =
      count * (worker + 1) / workers - count * worker / workers := by
    rw [← Array.length_toList, blocksOf_of_uniform sharing small, Span.length_toList, Span.size,
      ranges worker small]
  exact {
    range := ranges
    blocks := by
      intro worker small
      exact blocksOf_of_uniform sharing small
    sizes := by
      intro worker small other among
      have most := (mul_succ_div_sub_mul_div count workers worker).2
      have least := (mul_succ_div_sub_mul_div count workers other).1
      rw [size worker small, size other among]
      omega
    byCost := by
      rw [ranks_of_uniform sharing]
      exact scan_ones_eq_assignByCost few }

/-- In exact arithmetic blocks of equal cost are split evenly, or each goes to a worker of its own. -/
theorem uniform_splits_evenly (count : Nat) {workers : Nat} (positive : 0 < workers) :
    ∃ d, uniform Rat count workers = .ok d ∧ (workers ≤ count → d.Even count workers) ∧
      (count < workers → ∀ worker < count,
        d.range worker = ⟨worker, worker + 1⟩ ∧ d.blocksOf worker = #[worker]) := by
  obtain ⟨d, sharing⟩ : ∃ d, uniform Rat count workers = .ok d := by
    apply exists_ofCosts positive
    intro cost member
    rw [(Array.mem_replicate.1 member).2, CostNumber.isCost_rat_iff]
    exact Nat.cast_pos.2 Nat.one_pos
  refine ⟨d, sharing, even_of_uniform sharing, ?_⟩
  intro few worker small
  have range : d.range worker = ⟨worker, worker + 1⟩ := by
    apply range_of_uniform sharing (small.trans few) (Nat.lt_succ_self worker)
    intro position
    constructor
    · intro known
      have bound := (List.getElem?_eq_some_iff.1 known).1
      rw [length_scan, List.length_replicate] at bound
      cases (scan_ones_of_few few bound).symm.trans known
      omega
    · intro between
      have same : position = worker := by omega
      rw [same]
      exact scan_ones_of_few few small
  refine ⟨range, ?_⟩
  apply Array.toList_inj.1
  rw [blocksOf_of_uniform sharing (small.trans few), range, Span.toList, Span.size,
    Nat.add_sub_cancel_left]
  rfl

/-- Seven blocks go to three workers in twos and a three, two blocks to the first two of five workers. -/
theorem uniform_splits_evenly_seven :
    (∃ d, uniform Rat 7 3 = .ok d ∧ d.Even 7 3 ∧ d.range 0 = ⟨0, 2⟩ ∧ d.range 1 = ⟨2, 4⟩ ∧
      d.range 2 = ⟨4, 7⟩) ∧
    ∃ d, uniform Rat 2 5 = .ok d ∧ d.blocksOf 0 = #[0] ∧ d.blocksOf 1 = #[1] := by
  obtain ⟨split, shared, even, _⟩ := uniform_splits_evenly 7 (by decide : 0 < 3)
  obtain ⟨single, sharing, _, own⟩ := uniform_splits_evenly 2 (by decide : 0 < 5)
  have even := even (by decide)
  have own := own (by decide)
  exact ⟨⟨split, shared, even, even.range 0 (by decide), even.range 1 (by decide),
    even.range 2 (by decide)⟩, single, sharing, (own 0 (by decide)).2, (own 1 (by decide)).2⟩

end

end Decomposition

end AdaptiveMesh
