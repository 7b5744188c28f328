import AdaptiveMesh.Proofs.Partition
import Mathlib.Algebra.Order.BigOperators.Group.List
import Mathlib.Data.Rat.Cast.Order
import Mathlib.Tactic.FieldSimp
import Mathlib.Tactic.Linarith
import Mathlib.Tactic.Ring

/-!
# Loads

In exact arithmetic the scan keeps every worker's load near the mean. A worker keeps taking blocks only as
long as the running cost stays within the worker's threshold, and the scan leaves the worker before only
because no more blocks remain than workers wait. From then on every worker gets one block, so whoever has
more than one started beyond the threshold of the one before, up to the first block.
-/

namespace AdaptiveMesh

set_option autoImplicit false

namespace CostNumber

theorem zero_rat : (zero : Rat) = 0 := Nat.cast_zero

theorem isCost_rat_iff {cost : Rat} : isCost cost = true ↔ 0 < cost := by
  have split : isCost cost = true ↔ ¬cost ≤ zero := by
    simp only [isCost, Bool.and_eq_true, Bool.not_eq_true', decide_eq_false_iff_not]
    exact and_iff_right rfl
  rw [split, zero_rat]
  exact not_le

theorem foldl_rat (running : Rat) (costs : List Rat) :
    costs.foldl (· + ·) running = running + costs.sum := by
  induction costs generalizing running with
  | nil => simp
  | cons cost rest ih => rw [List.foldl_cons, ih, List.sum_cons, add_assoc]

theorem sum_rat (costs : List Rat) : sum costs = costs.sum := by
  have folded := foldl_rat zero costs
  rw [zero_rat, zero_add] at folded
  rw [← folded]
  rfl

theorem larger_rat (a b : Rat) : larger a b = max a b := by
  by_cases less : a < b
  · exact (if_pos less).trans (max_eq_right less.le).symm
  · exact (if_neg less).trans (max_eq_left (not_lt.1 less)).symm

theorem foldl_larger_le_iff {start bound : Rat} {costs : List Rat} :
    costs.foldl larger start ≤ bound ↔ start ≤ bound ∧ ∀ cost ∈ costs, cost ≤ bound := by
  induction costs generalizing start with
  | nil => simp
  | cons cost rest ih =>
      rw [List.foldl_cons, ih, larger_rat, max_le_iff, List.forall_mem_cons, and_assoc]

theorem foldl_larger_mem (start : Rat) (costs : List Rat) :
    costs.foldl larger start = start ∨ costs.foldl larger start ∈ costs := by
  induction costs generalizing start with
  | nil => exact .inl rfl
  | cons cost rest ih =>
      rw [List.foldl_cons]
      cases ih (larger start cost) with
      | inr later => exact .inr (List.mem_cons_of_mem cost later)
      | inl same =>
          rw [same, larger_rat]
          cases max_choice start cost with
          | inl kept => exact .inl kept
          | inr taken =>
              rw [taken]
              exact .inr List.mem_cons_self

end CostNumber

namespace Decomposition

section

variable {α : Type} [CostNumber α] {total running cost : α} {workers rank worker position : Nat}
  {occupied : Bool} {costs : List α}

/-- Whether the scan leaves a worker who has a block, with `remaining` blocks still to be assigned. -/
def Leaves (total : α) (workers worker : Nat) (reached : α) (remaining : Nat) : Prop :=
  worker + 1 < workers ∧
    (threshold total workers (worker + 1) < reached ∨ remaining ≤ workers - 1 - worker)

instance (total : α) (workers worker : Nat) (reached : α) (remaining : Nat) :
    Decidable (Leaves total workers worker reached remaining) :=
  inferInstanceAs (Decidable (_ ∧ (_ ∨ _)))

theorem getElem?_assign_succ
    (known : (assign total workers rank occupied running costs)[position]? = some worker)
    (next : costs[position + 1]? = some cost) :
    (assign total workers rank occupied running costs)[position + 1]? =
      some (if Leaves total workers worker ((costs.take (position + 1)).foldl (· + ·) running + cost)
        (costs.length - (position + 1)) then worker + 1 else worker) := by
  induction costs generalizing rank occupied running position with
  | nil => cases known
  | cons first rest ih =>
      rw [assign] at known ⊢
      cases position with
      | zero =>
          rw [List.getElem?_cons_zero, Option.some.injEq] at known
          rw [known, List.getElem?_cons_succ]
          cases rest with
          | nil => cases next
          | cons second others =>
              rw [List.getElem?_cons_succ, List.getElem?_cons_zero, Option.some.injEq] at next
              rw [assign, List.getElem?_cons_zero, next]
              congr 1
              apply if_congr _ rfl rfl
              simp only [Bool.true_and, Bool.and_eq_true, Bool.or_eq_true, decide_eq_true_eq, Leaves]
              apply and_congr
              · omega
              · rfl
      | succ position =>
          rw [List.getElem?_cons_succ] at known next ⊢
          rw [ih known next, List.take_succ_cons, List.foldl_cons, List.length_cons,
            Nat.add_sub_add_right]

end

def costBefore (costs : List Rat) (position : Nat) : Rat := (costs.take position).sum

section

variable {costs : List Rat} {workers worker rank position start stop : Nat} {first : Rat}

@[simp] theorem costBefore_zero (costs : List Rat) : costBefore costs 0 = 0 := rfl

@[simp] theorem costBefore_length (costs : List Rat) : costBefore costs costs.length = costs.sum := by
  rw [costBefore, List.take_length]

theorem costBefore_succ (known : costs[position]? = some first) :
    costBefore costs (position + 1) = costBefore costs position + first := by
  rw [costBefore, List.take_add_one, known, List.sum_append]
  simp [costBefore]

theorem sum_slice (before : start ≤ stop) :
    (((⟨start, stop⟩ : Span).slice costs.toArray).toList).sum =
      costBefore costs stop - costBefore costs start := by
  obtain ⟨size, rfl⟩ := Nat.exists_eq_add_of_le before
  rw [Span.slice, List.extract_toArray, List.extract_eq_take_drop, Nat.add_sub_cancel_left,
    costBefore, costBefore, List.take_add, List.sum_append, add_sub_cancel_left]

/-- The running cost that a worker may reach together with all workers before. -/
def share (costs : List Rat) (workers worker : Nat) : Rat := costs.sum * (worker + 1) / workers

/-- Whether the scan goes on to the next worker with the block at a position. -/
def Moves (costs : List Rat) (workers worker position : Nat) : Prop :=
  worker + 1 < workers ∧ (share costs workers worker < costBefore costs (position + 1) ∨
    costs.length - position ≤ workers - 1 - worker)

theorem scan_first (occupied : 0 < costs.length) : (scan costs workers)[0]? = some 0 := by
  cases costs with
  | nil => exact absurd occupied (lt_irrefl 0)
  | cons first rest => rfl

theorem scan_next (known : (scan costs workers)[position]? = some worker)
    (bound : position + 1 < costs.length) :
    (Moves costs workers worker (position + 1) ∧
      (scan costs workers)[position + 1]? = some (worker + 1)) ∨
    (¬Moves costs workers worker (position + 1) ∧
      (scan costs workers)[position + 1]? = some worker) := by
  have next := List.getElem?_eq_getElem bound
  have reached : (costs.take (position + 1)).foldl (· + ·) CostNumber.zero + costs[position + 1] =
      costBefore costs (position + 2) := by
    rw [costBefore_succ next, CostNumber.foldl_rat, CostNumber.zero_rat, zero_add]
    rfl
  have moved := getElem?_assign_succ known next
  have means : Leaves (CostNumber.sum costs) workers worker (costBefore costs (position + 2))
      (costs.length - (position + 1)) ↔ Moves costs workers worker (position + 1) := by
    rw [Leaves, Moves, share, CostNumber.sum_rat]
    apply and_congr_right
    intro _
    apply or_congr_left
    change costs.sum * ((worker + 1 : Nat) : Rat) / (workers : Rat) < _ ↔ _
    rw [Nat.cast_add, Nat.cast_one]
  rw [reached] at moved
  by_cases moves : Moves costs workers worker (position + 1)
  · rw [if_pos (means.2 moves)] at moved
    exact .inl ⟨moves, moved⟩
  · rw [if_neg (mt means.1 moves)] at moved
    exact .inr ⟨moves, moved⟩

theorem not_moves_of_stays (known : (scan costs workers)[position]? = some worker)
    (again : (scan costs workers)[position + 1]? = some worker) :
    ¬Moves costs workers worker (position + 1) := by
  have bound := (List.getElem?_eq_some_iff.1 again).1
  rw [length_scan] at bound
  intro moves
  cases scan_next known bound with
  | inl next =>
      have same := Option.some.inj (next.2.symm.trans again)
      omega
  | inr stays => exact stays.1 moves

theorem moves_of_leaves (known : (scan costs workers)[position]? = some worker)
    (bound : position + 1 < costs.length)
    (other : (scan costs workers)[position + 1]? ≠ some worker) :
    Moves costs workers worker (position + 1) := by
  cases scan_next known bound with
  | inl next => exact next.1
  | inr stays => exact absurd stays.2 other

end

section

variable {blocks : List (Nat × Rat)} {workers worker position : Nat} {d : Decomposition Rat}
  (sharing : ofBlocks blocks workers = .ok d)

include sharing

theorem cost_pos {cost : Rat} (member : cost ∈ blocks.map Prod.snd) : 0 < cost :=
  CostNumber.isCost_rat_iff.1 ((ofBlocks_ok_iff.1 sharing).2.2.1 cost member)

theorem mean_nonneg : 0 ≤ (blocks.map Prod.snd).sum / workers := by
  apply div_nonneg _ (Nat.cast_nonneg _)
  exact List.sum_nonneg fun cost member => (cost_pos sharing member).le

theorem scan_iff (bound : worker < workers) (position : Nat) :
    (scan (blocks.map Prod.snd) workers)[position]? = some worker ↔
      (d.range worker).start ≤ position ∧ position < (d.range worker).stop := by
  rw [range_eq sharing bound, ← rangeOf_contains_iff (scan_ordered ..), Span.contains,
    Bool.and_eq_true, decide_eq_true_eq, decide_eq_true_eq]

theorem stop_le (bound : worker < workers) : (d.range worker).stop ≤ blocks.length := by
  rw [range_eq sharing bound, ← List.length_map Prod.snd, ← length_scan _ workers]
  exact List.countP_le_length

theorem not_moves_inside (bound : worker < workers) (after : (d.range worker).start < position)
    (before : position < (d.range worker).stop) :
    ¬Moves (blocks.map Prod.snd) workers worker position := by
  obtain ⟨earlier, rfl⟩ := Nat.exists_eq_add_one_of_ne_zero (Nat.ne_zero_of_lt after)
  apply not_moves_of_stays
  · exact (scan_iff sharing bound earlier).2 ⟨by omega, by omega⟩
  · exact (scan_iff sharing bound (earlier + 1)).2 ⟨by omega, before⟩

theorem moves_at_stop (bound : worker < workers)
    (occupied : (d.range worker).start < (d.range worker).stop)
    (more : (d.range worker).stop < blocks.length) :
    Moves (blocks.map Prod.snd) workers worker (d.range worker).stop := by
  obtain ⟨last, stop⟩ := Nat.exists_eq_add_one_of_ne_zero (Nat.ne_zero_of_lt occupied)
  rw [stop]
  apply moves_of_leaves
  · exact (scan_iff sharing bound last).2 ⟨by omega, by omega⟩
  · rw [List.length_map]
    omega
  · intro inside
    have outside := (scan_iff sharing bound (last + 1)).1 inside
    omega

theorem cost_eq_sub (bound : worker < workers) : d.costs[worker]? =
    some (costBefore (blocks.map Prod.snd) (d.range worker).stop -
      costBefore (blocks.map Prod.snd) (d.range worker).start) := by
  obtain ⟨cuts, _, _, ascending, spans⟩ := exists_cuts sharing
  rw [cost_eq sharing bound, CostNumber.sum_rat, spans worker bound, sum_slice (ascending worker)]

/-- A worker that takes a second block stays within the share of all workers up to it. -/
theorem costBefore_stop_le (bound : worker < workers)
    (several : (d.range worker).start + 2 ≤ (d.range worker).stop) :
    costBefore (blocks.map Prod.snd) (d.range worker).stop ≤
      share (blocks.map Prod.snd) workers worker := by
  by_cases more : worker + 1 < workers
  · obtain ⟨last, stop⟩ := Nat.exists_eq_add_one_of_ne_zero (Nat.ne_zero_of_lt several)
    have stays : ¬Moves (blocks.map Prod.snd) workers worker last :=
      not_moves_inside sharing bound (by omega) (by omega)
    rw [stop]
    by_contra beyond
    exact stays ⟨more, .inl (not_le.1 beyond)⟩
  · have last : worker = workers - 1 := by omega
    have all := (partition_of_ofBlocks sharing).last
    have positive : (workers : Rat) ≠ 0 := by
      rw [Nat.cast_ne_zero]
      omega
    have whole : ((workers - 1 : Nat) : Rat) + 1 = workers := by
      rw [← Nat.cast_add_one, Nat.sub_add_cancel (by omega)]
    rw [last, all, ← List.length_map Prod.snd, costBefore_length, share, whole,
      mul_div_cancel_right₀ _ positive]

/-- A worker that takes a second block was begun because the first one went beyond the share of the workers
before. If it had been begun for want of blocks, the second one would have been another worker's. -/
theorem share_lt_costBefore (bound : worker + 1 < workers)
    (several : (d.range (worker + 1)).start + 2 ≤ (d.range (worker + 1)).stop) :
    share (blocks.map Prod.snd) workers worker <
      costBefore (blocks.map Prod.snd) ((d.range (worker + 1)).start + 1) := by
  have partition := partition_of_ofBlocks sharing
  have next := partition.next worker bound
  have total := stop_le sharing bound
  have member : worker + 1 ∈ scan (blocks.map Prod.snd) workers :=
    List.mem_of_getElem? ((scan_iff sharing bound (d.range (worker + 1)).start).2 ⟨le_rfl, by omega⟩)
  have few := (mem_scan_iff (by omega) _ _).1 member
  rw [List.length_map] at few
  have occupied := partition.occupied worker (by omega)
  have moves : Moves (blocks.map Prod.snd) workers worker (d.range worker).stop :=
    moves_at_stop sharing (by omega) occupied (by omega)
  rw [← next] at moves
  cases moves.2 with
  | inl beyond => exact beyond
  | inr scarce =>
      rw [List.length_map] at scarce
      by_cases more : worker + 2 < workers
      · have stays : ¬Moves (blocks.map Prod.snd) workers (worker + 1)
            ((d.range (worker + 1)).start + 1) :=
          not_moves_inside sharing bound (by omega) (by omega)
        refine absurd ⟨more, .inr ?_⟩ stays
        rw [List.length_map]
        omega
      · omega

theorem first_load_le (positive : 0 < workers)
    (several : (d.range 0).start + 2 ≤ (d.range 0).stop) :
    costBefore (blocks.map Prod.snd) (d.range 0).stop -
      costBefore (blocks.map Prod.snd) (d.range 0).start ≤ (blocks.map Prod.snd).sum / workers := by
  have upper := costBefore_stop_le sharing positive several
  rw [share, Nat.cast_zero, zero_add, mul_one] at upper
  rw [(partition_of_ofBlocks sharing).first, costBefore_zero, sub_zero]
  exact upper

/-- No worker carries more than the mean and its first block. -/
theorem load_le (bound : worker < workers)
    (occupied : (d.range worker).start < (d.range worker).stop) :
    ∃ first, (blocks.map Prod.snd)[(d.range worker).start]? = some first ∧
      costBefore (blocks.map Prod.snd) (d.range worker).stop -
        costBefore (blocks.map Prod.snd) (d.range worker).start ≤
          (blocks.map Prod.snd).sum / workers + first := by
  have inside : (d.range worker).start < (blocks.map Prod.snd).length := by
    rw [List.length_map]
    exact occupied.trans_le (stop_le sharing bound)
  obtain ⟨first, known⟩ : ∃ first, (blocks.map Prod.snd)[(d.range worker).start]? = some first :=
    ⟨_, List.getElem?_eq_getElem inside⟩
  have grown := costBefore_succ known
  have positive := cost_pos sharing (List.mem_of_getElem? known)
  have mean := mean_nonneg sharing
  refine ⟨first, known, ?_⟩
  by_cases single : (d.range worker).stop = (d.range worker).start + 1
  · rw [single, grown]
    linarith
  · have several : (d.range worker).start + 2 ≤ (d.range worker).stop := by omega
    cases worker with
    | zero =>
        have load := first_load_le sharing bound several
        linarith
    | succ worker =>
        have upper := costBefore_stop_le sharing bound several
        have lower := share_lt_costBefore sharing bound several
        have step : share (blocks.map Prod.snd) workers (worker + 1) =
            share (blocks.map Prod.snd) workers worker + (blocks.map Prod.snd).sum / workers := by
          rw [share, share, Nat.cast_add_one]
          ring
        linarith

theorem toList_costs : d.costs.toList = (List.range workers).map fun worker =>
    costBefore (blocks.map Prod.snd) (d.range worker).stop -
      costBefore (blocks.map Prod.snd) (d.range worker).start := by
  have size : d.costs.size = workers := by
    obtain ⟨_, _, _, rfl⟩ := ofBlocks_ok_iff.1 sharing
    simp
  apply List.ext_getElem?
  intro worker
  rw [Array.getElem?_toList, List.getElem?_map]
  by_cases bound : worker < workers
  · rw [cost_eq_sub sharing bound, List.getElem?_range bound, Option.map_some]
  · rw [Array.getElem?_eq_none (by omega), List.getElem?_eq_none (by simpa using bound),
      Option.map_none]

theorem load_le_of_forall_le {load most : Rat} (occupied : 0 < blocks.length)
    (largest : ∀ cost ∈ blocks.map Prod.snd, cost ≤ most) (member : load ∈ d.costs.toList) :
    load ≤ (blocks.map Prod.snd).sum / workers + most := by
  obtain ⟨cuts, _, _, ascending, spans⟩ := exists_cuts sharing
  rw [toList_costs sharing, List.mem_map] at member
  obtain ⟨worker, listed, rfl⟩ := member
  have bound := List.mem_range.1 listed
  by_cases busy : (d.range worker).start < (d.range worker).stop
  · obtain ⟨first, known, load⟩ := load_le sharing bound busy
    have small := largest first (List.mem_of_getElem? known)
    linarith
  · have idle : (d.range worker).stop = (d.range worker).start := by
      have ordered := ascending worker
      rw [spans worker bound] at busy ⊢
      dsimp only at busy ⊢
      omega
    obtain ⟨cost, among⟩ := List.exists_mem_of_length_pos (by rwa [List.length_map] :
      0 < (blocks.map Prod.snd).length)
    have positive := (cost_pos sharing among).trans_le (largest cost among)
    have mean := mean_nonneg sharing
    rw [idle, sub_self]
    linarith

theorem sum_costs : d.costs.toList.sum = (blocks.map Prod.snd).sum := by
  obtain ⟨cuts, first, last, _, spans⟩ := exists_cuts sharing
  have upTo (cut : Nat) (bound : cut ≤ workers) : ((List.range cut).map fun worker =>
      costBefore (blocks.map Prod.snd) (d.range worker).stop -
        costBefore (blocks.map Prod.snd) (d.range worker).start).sum =
          costBefore (blocks.map Prod.snd) (cuts cut) := by
    induction cut with
    | zero => rw [first]; rfl
    | succ cut ih =>
        rw [List.range_succ, List.map_append, List.sum_append, ih (by omega), List.map_singleton,
          List.sum_singleton, spans cut (by omega), add_sub_cancel]
  rw [toList_costs sharing, upTo workers le_rfl, last, ← List.length_map Prod.snd, costBefore_length]

theorem imbalance_eq (occupied : 0 < blocks.length) : 0 < (blocks.map Prod.snd).sum ∧
    d.imbalance = d.costs.toList.foldl CostNumber.larger 0 * workers / (blocks.map Prod.snd).sum := by
  have size : d.costs.size = workers := by
    rw [← Array.length_toList, toList_costs sharing, List.length_map, List.length_range]
  have positive : 0 < (blocks.map Prod.snd).sum := by
    apply List.sum_pos _ (fun cost member => cost_pos sharing member)
    rw [← List.length_pos_iff, List.length_map]
    exact occupied
  refine ⟨positive, ?_⟩
  rw [imbalance, CostNumber.sum_rat, CostNumber.zero_rat, sum_costs sharing, size]
  exact if_neg (not_le.2 positive)

/-- The imbalance is the ratio of the largest load to the mean. -/
theorem exists_largest_load (occupied : 0 < blocks.length) :
    ∃ largest ∈ d.costs.toList, (∀ load ∈ d.costs.toList, load ≤ largest) ∧
      d.imbalance = largest * workers / (blocks.map Prod.snd).sum := by
  obtain ⟨positive, value⟩ := imbalance_eq sharing occupied
  obtain ⟨_, greatest⟩ := CostNumber.foldl_larger_le_iff.1
    (le_refl (d.costs.toList.foldl CostNumber.larger 0))
  refine ⟨d.costs.toList.foldl CostNumber.larger 0, ?_, greatest, value⟩
  cases CostNumber.foldl_larger_mem 0 d.costs.toList with
  | inr member => exact member
  | inl nothing =>
      -- loads that are not positive do not make up a positive total
      rw [nothing] at greatest
      have total := List.sum_le_card_nsmul d.costs.toList 0 greatest
      rw [sum_costs sharing, nsmul_eq_mul, mul_zero] at total
      exact absurd positive (not_lt.2 total)

theorem one_le_imbalance (occupied : 0 < blocks.length) : 1 ≤ d.imbalance := by
  obtain ⟨positive, _⟩ := imbalance_eq sharing occupied
  obtain ⟨largest, _, greatest, value⟩ := exists_largest_load sharing occupied
  have count : d.costs.toList.length = workers := by
    rw [toList_costs sharing, List.length_map, List.length_range]
  have total := List.sum_le_card_nsmul d.costs.toList largest greatest
  rw [sum_costs sharing, count, nsmul_eq_mul, mul_comm] at total
  rw [value, le_div_iff₀ positive, one_mul]
  exact total

theorem imbalance_le {most : Rat} (occupied : 0 < blocks.length)
    (bound : ∀ cost ∈ blocks.map Prod.snd, cost ≤ most) :
    d.imbalance ≤ 1 + workers * most / (blocks.map Prod.snd).sum := by
  obtain ⟨positive, _⟩ := imbalance_eq sharing occupied
  obtain ⟨largest, member, _, value⟩ := exists_largest_load sharing occupied
  have load := load_le_of_forall_le sharing occupied bound member
  have staffed : (0 : Rat) < workers := Nat.cast_pos.2 (ofBlocks_ok_iff.1 sharing).1
  rw [value, div_le_iff₀ positive]
  calc largest * workers
      ≤ ((blocks.map Prod.snd).sum / workers + most) * workers :=
        mul_le_mul_of_nonneg_right load staffed.le
    _ = (1 + workers * most / (blocks.map Prod.snd).sum) * (blocks.map Prod.snd).sum := by
        field_simp

end

/-- How far the loads may be from the mean, where `costs` are those of the blocks in traversal order. -/
structure Bounded (d : Decomposition Rat) (costs : List Rat) (workers : Nat) : Prop where
  /-- Except for the last one, a worker takes a second block only within the share of all workers up to
  it. -/
  within : ∀ worker, worker + 1 < workers → 2 ≤ (d.range worker).size →
    costBefore costs (d.range worker).stop ≤ costs.sum * (worker + 1) / workers
  /-- A worker is left because the next block would go beyond this share, or because no more blocks remain
  than workers wait. -/
  cut : ∀ worker, worker + 1 < workers → (d.range worker).start < (d.range worker).stop →
    (d.range worker).stop < costs.length →
      costs.sum * (worker + 1) / workers < costBefore costs ((d.range worker).stop + 1) ∨
        costs.length - (d.range worker).stop ≤ workers - 1 - worker
  /-- The load of a worker is the cost of the blocks in its span. -/
  loads : ∀ worker < workers, d.costs[worker]? =
    some (costBefore costs (d.range worker).stop - costBefore costs (d.range worker).start)
  load : ∀ worker < workers, (d.range worker).start < (d.range worker).stop →
    ∃ load first, d.costs[worker]? = some load ∧ costs[(d.range worker).start]? = some first ∧
      load ≤ costs.sum / workers + first
  firstLoad : 2 ≤ (d.range 0).size →
    ∃ load, d.costs[0]? = some load ∧ load ≤ costs.sum / workers
  /-- The imbalance is the ratio of the largest load to the mean. -/
  ratio : 0 < costs.length → ∃ largest ∈ d.costs.toList, (∀ load ∈ d.costs.toList, load ≤ largest) ∧
    d.imbalance = largest * workers / costs.sum
  imbalance : 0 < costs.length → 1 ≤ d.imbalance ∧
    ∀ most, (∀ cost ∈ costs, cost ≤ most) → d.imbalance ≤ 1 + workers * most / costs.sum

/-- In exact arithmetic no worker carries more than the mean and its first block. -/
theorem scan_bounds_loads {blocks : List (Nat × Rat)} {workers : Nat} {d : Decomposition Rat}
    (sharing : ofBlocks blocks workers = .ok d) :
    (∀ cost ∈ blocks.map Prod.snd, 0 < cost) ∧ d.Bounded (blocks.map Prod.snd) workers := by
  refine ⟨fun cost member => cost_pos sharing member, ?_⟩
  exact {
    within := by
      intro worker bound several
      exact costBefore_stop_le sharing (by omega) (by rw [Span.size] at several; omega)
    cut := by
      intro worker bound occupied more
      rw [List.length_map] at more
      exact (moves_at_stop sharing (by omega) occupied more).2
    loads := by
      intro worker bound
      exact cost_eq_sub sharing bound
    load := by
      intro worker bound occupied
      obtain ⟨first, known, load⟩ := load_le sharing bound occupied
      exact ⟨_, first, cost_eq_sub sharing bound, known, load⟩
    firstLoad := by
      intro several
      have positive := (ofBlocks_ok_iff.1 sharing).1
      exact ⟨_, cost_eq_sub sharing positive,
        first_load_le sharing positive (by rw [Span.size] at several; omega)⟩
    ratio := by
      intro occupied
      rw [List.length_map] at occupied
      exact exists_largest_load sharing occupied
    imbalance := by
      intro occupied
      rw [List.length_map] at occupied
      exact ⟨one_le_imbalance sharing occupied, fun most => imbalance_le sharing occupied⟩ }

/-- Six blocks, one of them half of the whole cost. -/
def oneHeavy : List (Nat × Rat) := [(3, 2), (0, 2), (1, 2), (5, 2), (2, 9), (4, 1)]

/-- The first worker fills its share exactly. The second one is left after one block because the heavy block
would go beyond the share of both, and the last worker takes the rest. -/
theorem scan_bounds_loads_oneHeavy : ∃ d, ofBlocks oneHeavy 3 = .ok d ∧
    d.ranges = #[⟨0, 3⟩, ⟨3, 4⟩, ⟨4, 6⟩] ∧ d.Bounded (oneHeavy.map Prod.snd) 3 ∧
    costBefore (oneHeavy.map Prod.snd) 3 ≤ 18 / 3 ∧ 18 * 2 / 3 < costBefore (oneHeavy.map Prod.snd) 5 ∧
    (∃ load, d.costs[2]? = some load ∧ load ≤ 18 / 3 + 9) ∧
    1 ≤ d.imbalance ∧ d.imbalance ≤ 1 + 3 * 9 / 18 := by
  have computed : (ofBlocks oneHeavy 3).toOption.any (fun d =>
      d.ranges = #[⟨0, 3⟩, ⟨3, 4⟩, ⟨4, 6⟩]) = true := by
    decide +kernel
  obtain ⟨d, sharing, ranges⟩ := Outcome.exists_ok_of_any computed
  have ranges := of_decide_eq_true ranges
  have spans (worker : Nat) : d.range worker = #[⟨0, 3⟩, ⟨3, 4⟩, ⟨4, 6⟩].getD worker ⟨0, 0⟩ := by
    rw [range, ranges]
  have total : (oneHeavy.map Prod.snd).sum = 18 := by decide +kernel
  obtain ⟨_, bounded⟩ := scan_bounds_loads sharing
  have within := bounded.within 0 (by decide) (by rw [spans]; decide)
  have cut := bounded.cut 1 (by decide) (by rw [spans]; decide) (by rw [spans]; decide)
  obtain ⟨load, first, carried, known, most⟩ := bounded.load 2 (by decide) (by rw [spans]; decide)
  obtain ⟨least, largest⟩ := bounded.imbalance (by decide)
  have imbalance := largest 9 (by decide +kernel)
  rw [spans] at within cut known
  rw [total] at within cut most imbalance
  cases known
  refine ⟨d, sharing, ranges, bounded, ?_, ?_, ⟨load, carried, ?_⟩, least, ?_⟩
  · simpa using within
  · cases cut with
    | inl beyond => norm_num at beyond ⊢; exact beyond
    | inr scarce => exact absurd scarce (by decide)
  · simpa using most
  · simpa using imbalance

end Decomposition

end AdaptiveMesh
