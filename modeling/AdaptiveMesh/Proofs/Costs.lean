import AdaptiveMesh.Mesh.Adapt
import AdaptiveMesh.Proofs.FloatCosts
import AdaptiveMesh.Proofs.Refinement

/-!
# Costs through adaptation

Adapting a tree gives every new block a cost. A child inherits the cost of its parent. A merged block
takes the mean of the costs that were sorted into its group, and where every new block covers an old
one, no group is empty. A block that was not merged is alone in its group.
-/

namespace AdaptiveMesh

set_option autoImplicit false

namespace Mesh

variable {α : Type} {costs : Array α} {flags : Array Bool} {cost : α}

theorem size_spreadCosts (children : Nat) (size : costs.size = flags.size) :
    (spreadCosts children costs flags).size =
      (flags.toList.map fun flag => if flag then children else 1).sum := by
  rw [spreadCosts, List.size_toArray, List.length_flatMap]
  congr 1
  apply BlockTree.map_zip_flags (by simpa using size)
  intro cost flag
  exact List.length_replicate

theorem mem_of_mem_spreadCosts {children : Nat}
    (member : cost ∈ spreadCosts children costs flags) : cost ∈ costs := by
  rw [spreadCosts, List.mem_toArray, List.mem_flatMap] at member
  obtain ⟨⟨source, flag⟩, inside, copied⟩ := member
  rw [(List.mem_replicate.1 copied).2]
  exact Array.mem_toList_iff.1 (List.of_mem_zip inside).1

/-- What has been sorted into a group: what was there before, and the costs of the group in order. -/
private theorem getElem?_foldl_push (entries : List (Nat × α)) (groups : Array (Array α))
    (index : Nat) :
    (entries.foldl (fun groups (entry : Nat × α) => groups.modify entry.1 (·.push entry.2))
      groups)[index]? = groups[index]?.map fun group =>
        group ++ (entries.filterMap fun entry =>
          if entry.1 = index then some entry.2 else none).toArray := by
  induction entries generalizing groups with
  | nil => simp
  | cons entry rest ih =>
      rw [List.foldl_cons, ih, Array.getElem?_modify, List.filterMap_cons]
      by_cases here : entry.1 = index
      · rw [if_pos here, if_pos here]
        cases groups[index]? with
        | none => rfl
        | some group => simp
      · rw [if_neg here, if_neg here]

theorem getElem?_grouped {count index : Nat} (bound : index < count) (group : List Nat)
    (costs : List α) : (grouped count group costs)[index]? =
      some ((group.zip costs).filterMap fun entry =>
        if entry.1 = index then some entry.2 else none).toArray := by
  rw [grouped]
  refine (getElem?_foldl_push _ _ index).trans ?_
  rw [Array.getElem?_replicate, if_pos bound, Option.map_some, Array.empty_append]

@[simp] theorem size_grouped (count : Nat) (group : List Nat) (costs : List α) :
    (grouped count group costs).size = count := by
  have kept (entries : List (Nat × α)) (groups : Array (Array α)) :
      (entries.foldl (fun groups (entry : Nat × α) => groups.modify entry.1 (·.push entry.2))
        groups).size = groups.size := by
    induction entries generalizing groups with
    | nil => rfl
    | cons entry rest ih => rw [List.foldl_cons, ih, Array.size_modify]
  exact (kept _ _).trans Array.size_replicate

theorem mem_grouped {count : Nat} {group : List Nat} {costs : List α} {members : Array α}
    (every : ∀ index < count, index ∈ group) (length : group.length = costs.length)
    (member : members ∈ grouped count group costs) :
    0 < members.size ∧ ∀ cost ∈ members, cost ∈ costs := by
  obtain ⟨index, found⟩ := Array.getElem?_of_mem member
  have bound : index < count := by
    have inside := (Array.getElem?_eq_some_iff.1 found).1
    rwa [size_grouped] at inside
  rw [getElem?_grouped bound, Option.some.injEq] at found
  subst found
  constructor
  · obtain ⟨position, inGroup, same⟩ := List.getElem_of_mem (every index bound)
    have inCosts : position < costs.length := length ▸ inGroup
    rw [List.size_toArray, List.length_pos_iff_exists_mem]
    refine ⟨costs[position], List.mem_filterMap.2 ⟨(index, costs[position]), ?_, if_pos rfl⟩⟩
    rw [List.mem_iff_getElem?]
    refine ⟨position, List.getElem?_zip_eq_some.2 ⟨?_, List.getElem?_eq_getElem inCosts⟩⟩
    rw [List.getElem?_eq_getElem inGroup, same]
  · intro cost inside
    obtain ⟨⟨other, found⟩, among, picked⟩ := List.mem_filterMap.1 (List.mem_toArray.1 inside)
    dsimp only at picked
    split at picked
    · cases picked
      exact (List.of_mem_zip among).2
    · cases picked

variable [CostNumber α]

@[simp] theorem size_mergedCosts (count : Nat) (costs : Array α) (map : List Nat) :
    (mergedCosts count costs map).size = count := by
  rw [mergedCosts, Array.size_map, size_grouped]

/-- A kind of number in which the mean of one valid cost is a valid cost. -/
class LawfulCost (α : Type) [CostNumber α] : Prop where
  isCost_alone : ∀ cost : α, CostNumber.isCost cost = true →
    CostNumber.isCost (meanCost [cost]) = true

instance : LawfulCost Float where
  isCost_alone := by
    intro cost valid
    have same : meanCost [cost] = cost := CostNumber.zero_add_div_one_float valid
    rw [same]
    exact valid

instance : LawfulCost Rat where
  isCost_alone := by
    intro cost valid
    have value : meanCost [cost] = (((0 : Nat) : Rat) + cost) / ((1 : Nat) : Rat) := rfl
    have same : meanCost [cost] = cost := by simpa using value
    rw [same]
    exact valid

theorem isCost_mergedCosts [LawfulCost α] {count : Nat} {map : List Nat}
    (every : ∀ index < count, index ∈ map) (length : map.length = costs.size)
    (valid : ∀ cost ∈ costs, CostNumber.isCost cost = true)
    (means : ∀ group ∈ grouped count map costs.toList, 1 < group.size →
      CostNumber.isCost (meanCost group.toList) = true)
    (member : cost ∈ mergedCosts count costs map) : CostNumber.isCost cost = true := by
  obtain ⟨group, inside, rfl⟩ := Array.mem_map.1 member
  obtain ⟨occupied, among⟩ := mem_grouped every (by simpa using length) inside
  by_cases several : 1 < group.size
  · exact means group inside several
  · obtain ⟨only, single⟩ := List.length_eq_one_iff.1
      (show group.toList.length = 1 by rw [Array.length_toList]; omega)
    rw [single]
    apply LawfulCost.isCost_alone
    apply valid
    apply Array.mem_toList_iff.1
    apply among
    rw [← Array.mem_toList_iff, single]
    exact List.mem_singleton_self only

end Mesh

end AdaptiveMesh
