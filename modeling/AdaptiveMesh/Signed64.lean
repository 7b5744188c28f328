/-!
# Signed words of 64 bits

Counts of blocks are computed in signed 64-bit words. Integers stand for words here; only reading an
unsigned count and shifting left can leave the range, and both keep the low 64 bits.
-/

namespace AdaptiveMesh

set_option autoImplicit false

namespace Signed64

def modulus : Nat := 18446744073709551616

def wrap (x : Int) : Int := x.bmod modulus

/-- Shifts left and drops the bits beyond the word. From 64 places on nothing is left, which is
also what wrapping the product would give. -/
def shiftLeft (x : Int) (places : Nat) : Int := if places < 64 then wrap (x <<< places) else 0

def Fits (x : Int) : Prop := -9223372036854775808 ≤ x ∧ x < 9223372036854775808

instance (x : Int) : Decidable (Fits x) := inferInstanceAs (Decidable (_ ∧ _))

theorem wrap_eq_self {x : Int} (fits : Fits x) : wrap x = x := by
  obtain ⟨lower, upper⟩ := fits
  exact Int.bmod_eq_of_le (by simp only [modulus]; omega) (by simp only [modulus]; omega)

theorem shiftLeft_eq_wrap (x : Int) (places : Nat) : shiftLeft x places = wrap (x <<< places) := by
  unfold shiftLeft
  split
  · rfl
  · rename_i large
    obtain ⟨more, rfl⟩ : ∃ more, places = 64 + more := ⟨places - 64, by omega⟩
    have multiple : x <<< (64 + more) = (modulus : Int) * (x <<< more) := by
      simp only [Int.shiftLeft_eq, Int.pow_add, modulus]
      rw [Int.mul_left_comm]
      rfl
    rw [multiple, wrap]
    exact (Int.bmod_eq_zero_of_dvd ⟨_, rfl⟩).symm

end Signed64

end AdaptiveMesh
