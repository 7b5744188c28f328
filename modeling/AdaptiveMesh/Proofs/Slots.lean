import AdaptiveMesh.Neighbor.Row
import AdaptiveMesh.Proofs.Outcome

/-!
# Slots

The slots of a block stand for the directions that the mesh has, one for one, and a slot is wide
enough for the children of a node that touch it in its direction. Parts of equal length that are laid
end to end are found again at the multiples of the length.
-/

namespace AdaptiveMesh

set_option autoImplicit false

namespace Slot

variable {dim slot : Nat} {r : Region}

private theorem regions_table : ∀ d : Fin 3, ∀ s : Fin 26,
    ((regions (d + 1))[s.val]?).all (fun r => index? r = some s.val && r.isValidFor (d + 1)) := by
  decide +kernel

private theorem index_table : ∀ d : Fin 3, ∀ r ∈ Region.all, r ≠ .central →
    r.isValidFor (d + 1) = true →
      (index? r).any (fun s => (regions (d + 1))[s]? = some r && s < count (d + 1)) = true := by
  decide +kernel

private theorem width_table : ∀ d : Fin 3, ∀ r ∈ Region.all, r ≠ .central →
    r.isValidFor (d + 1) = true → (r.adjacentOctants (d + 1)).length ≤ width (d + 1) := by
  decide +kernel

private theorem length_table : ∀ d : Fin 3, (regions (d + 1)).length = count (d + 1) := by
  decide +kernel

private theorem dim_cases (positive : 1 ≤ dim) (bounded : dim ≤ 3) : ∃ d : Fin 3, d + 1 = dim :=
  ⟨⟨dim - 1, by omega⟩, by simp; omega⟩

theorem length_regions (positive : 1 ≤ dim) (bounded : dim ≤ 3) :
    (regions dim).length = count dim := by
  obtain ⟨d, rfl⟩ := dim_cases positive bounded
  exact length_table d

theorem count_le (positive : 1 ≤ dim) (bounded : dim ≤ 3) : count dim ≤ 26 := by
  have table : ∀ d : Fin 3, count (d + 1) ≤ 26 := by decide
  obtain ⟨d, rfl⟩ := dim_cases positive bounded
  exact table d

theorem width_pos (dim : Nat) : 0 < width dim := by
  rw [width, Nat.one_shiftLeft]
  exact Nat.two_pow_pos _

theorem index?_of_regions (positive : 1 ≤ dim) (bounded : dim ≤ 3)
    (listed : (regions dim)[slot]? = some r) :
    index? r = some slot ∧ r.isValidFor dim = true := by
  have bound := (List.getElem?_eq_some_iff.1 listed).1
  rw [length_regions positive bounded] at bound
  have few := count_le positive bounded
  obtain ⟨d, rfl⟩ := dim_cases positive bounded
  have found := regions_table d ⟨slot, by omega⟩
  rw [listed] at found
  simpa using found

theorem exists_index (positive : 1 ≤ dim) (bounded : dim ≤ 3) (outward : r ≠ .central)
    (valid : r.isValidFor dim = true) :
    ∃ slot, index? r = some slot ∧ slot < count dim ∧ (regions dim)[slot]? = some r := by
  obtain ⟨d, rfl⟩ := dim_cases positive bounded
  have found := index_table d r r.mem_all outward valid
  rw [Option.any_eq_true] at found
  obtain ⟨slot, index, place⟩ := found
  simp only [Bool.and_eq_true, decide_eq_true_eq] at place
  exact ⟨slot, index, place.2, place.1⟩

theorem length_adjacentOctants_le (positive : 1 ≤ dim) (bounded : dim ≤ 3) (outward : r ≠ .central)
    (valid : r.isValidFor dim = true) : (r.adjacentOctants dim).length ≤ width dim := by
  obtain ⟨d, rfl⟩ := dim_cases positive bounded
  exact width_table d r r.mem_all outward valid

theorem ne_central_of_index (index : index? r = some slot) : r ≠ .central := by
  rintro rfl
  cases index

theorem index?_reverse_lt (index : index? r = some slot) :
    ∃ destn, index? r.reverse = some destn ∧ destn < 26 := by
  have table : ∀ r ∈ Region.all, r ≠ .central → (index? r.reverse).any (· < 26) = true := by
    decide +kernel
  have found := table r r.mem_all (ne_central_of_index index)
  rw [Option.any_eq_true] at found
  obtain ⟨destn, reversed, bound⟩ := found
  exact ⟨destn, reversed, of_decide_eq_true bound⟩

theorem outward_of_regions (positive : 1 ≤ dim) (bounded : dim ≤ 3)
    (listed : (regions dim)[slot]? = some r) :
    r ≠ .central ∧ r.isValidFor dim = true ∧ ∃ destn, index? r.reverse = some destn := by
  obtain ⟨index, valid⟩ := index?_of_regions positive bounded listed
  obtain ⟨destn, reciprocal, _⟩ := index?_reverse_lt index
  exact ⟨ne_central_of_index index, valid, destn, reciprocal⟩

end Slot

/-- Parts of one length, laid end to end, are found at the multiples of the length. -/
theorem flatten_part {α : Type} {parts : List (List α)} {width : Nat}
    (even : ∀ part ∈ parts, part.length = width) {index : Nat} {part : List α}
    (found : parts[index]? = some part) :
    (parts.flatten.drop (index * width)).take width = part := by
  induction parts generalizing index with
  | nil => cases found
  | cons first rest ih =>
      have length := even first List.mem_cons_self
      cases index with
      | zero =>
          cases found
          rw [Nat.zero_mul, List.drop_zero, List.flatten_cons, ← length, List.take_left]
      | succ index =>
          have later := ih (fun other inside => even other (List.mem_cons_of_mem first inside))
            (by simpa using found)
          rw [List.flatten_cons, List.drop_append, length, Nat.succ_mul, Nat.add_sub_cancel,
            List.drop_eq_nil_of_le (by omega), List.nil_append]
          exact later

theorem length_flatten_even {α : Type} {parts : List (List α)} {width : Nat}
    (even : ∀ part ∈ parts, part.length = width) : parts.flatten.length = parts.length * width := by
  induction parts with
  | nil => simp
  | cons first rest ih =>
      rw [List.flatten_cons, List.length_append, List.length_cons, even first List.mem_cons_self,
        ih fun other inside => even other (List.mem_cons_of_mem first inside), Nat.succ_mul]
      exact Nat.add_comm _ _

end AdaptiveMesh
