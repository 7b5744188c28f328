import AdaptiveMesh.Cost
import Mathlib

/-!
# Floating-point costs

The program's costs are double-precision numbers. The bits of a finite number other than zero stand for a
mantissa and an exponent in a form of their own, and rounding a value that has this form gives it back.
So nothing is lost when such a number is added to zero, divided by one and packed again, and the mean of a
single cost is that cost.
-/

namespace AdaptiveMesh

set_option autoImplicit false

namespace FloatModel

open Float.Model (Format totalExponent)
open Float.Model.UnpackedFloat

variable {mantissa : Nat} {exponent : Int} {sign : Sign}

/-- Whether a mantissa and an exponent are those in which the format writes their value: the mantissa
fits, and it is as large as the exponent permits. -/
structure Canonical (mantissa : Nat) (exponent : Int) : Prop where
  fits : mantissa < 2 ^ 53
  least : -1074 ≤ exponent
  full : 2 ^ 52 ≤ mantissa ∨ exponent = -1074

theorem targetExponent_binary64 (total : Int) :
    Format.binary64.targetExponent total = max (total - 53) (-1074) := by
  rw [Format.targetExponent]
  rfl

theorem Canonical.targetExponent_eq (canonical : Canonical mantissa exponent)
    (positive : 0 < mantissa) :
    Format.binary64.targetExponent (totalExponent mantissa exponent) = exponent := by
  have nonzero : mantissa ≠ 0 := Nat.pos_iff_ne_zero.1 positive
  have below : mantissa.log2 < 53 := (Nat.log2_lt nonzero).2 canonical.fits
  have least := canonical.least
  rw [targetExponent_binary64, totalExponent]
  cases canonical.full with
  | inl large =>
      have above : 52 ≤ mantissa.log2 := (Nat.le_log2 nonzero).2 large
      omega
  | inr same => omega

theorem shiftRight_shiftLeft (mantissa places : Nat) :
    ExtendedMantissa.ofMantissaAndAccuracy (mantissa <<< places) .exact >>> places =
      ⟨mantissa, false, false⟩ := by
  induction places generalizing mantissa with
  | zero => rfl
  | succ places ih =>
      have moved : mantissa <<< (places + 1) = (2 * mantissa) <<< places := by
        rw [Nat.shiftLeft_eq, Nat.shiftLeft_eq, Nat.pow_succ']
        ring
      rw [moved]
      have inner := ih (2 * mantissa)
      change ExtendedMantissa.shiftRightOne
        (ExtendedMantissa.ofMantissaAndAccuracy ((2 * mantissa) <<< places) .exact >>> places) = _
      rw [inner, ExtendedMantissa.shiftRightOne]
      simp

theorem log2_shiftLeft (positive : 0 < mantissa) (places : Nat) :
    (mantissa <<< places).log2 = mantissa.log2 + places := by
  have nonzero : mantissa ≠ 0 := Nat.pos_iff_ne_zero.1 positive
  have room : 0 < 2 ^ places := Nat.two_pow_pos places
  rw [Nat.shiftLeft_eq, Nat.log2_eq_iff (Nat.mul_ne_zero nonzero (Nat.pos_iff_ne_zero.1 room))]
  constructor
  · rw [Nat.pow_add]
    exact Nat.mul_le_mul_right _ (Nat.log2_self_le nonzero)
  · rw [Nat.add_right_comm, Nat.pow_add]
    exact Nat.mul_lt_mul_of_pos_right Nat.lt_log2_self room

theorem roundWithAccuracy_shiftLeft (canonical : Canonical mantissa exponent)
    (positive : 0 < mantissa) (places : Nat) :
    roundWithAccuracy .binary64 sign (mantissa <<< places) (exponent - places) .exact =
      .finite sign mantissa exponent positive := by
  have total : totalExponent (mantissa <<< places) (exponent - places) =
      totalExponent mantissa exponent := by
    rw [totalExponent, totalExponent, log2_shiftLeft positive]
    omega
  have first : shiftToTargetExponent .binary64 (mantissa <<< places) (exponent - places) .exact =
      (⟨mantissa, false, false⟩, exponent) := by
    have shift : (exponent - (exponent - places)).toNat = places := by omega
    rw [shiftToTargetExponent, total, canonical.targetExponent_eq positive, shiftToExponent, shift,
      shiftRight_shiftLeft]
    congr 1
    omega
  have second : shiftToTargetExponent .binary64 mantissa exponent .exact =
      (⟨mantissa, false, false⟩, exponent) := by
    have shift : (exponent - exponent).toNat = 0 := by omega
    rw [shiftToTargetExponent, canonical.targetExponent_eq positive, shiftToExponent, shift]
    congr 1
    omega
  rw [roundWithAccuracy, first]
  have rounded : (⟨mantissa, false, false⟩ : ExtendedMantissa).roundedMantissa = mantissa := rfl
  simp only [rounded, second]
  rw [dif_neg (Nat.pos_iff_ne_zero.1 positive)]

theorem div_one (canonical : Canonical mantissa exponent) (positive : 0 < mantissa) :
    div .binary64 (.finite sign mantissa exponent positive)
      (.finite .positive (2 ^ 52) (-52) (Nat.two_pow_pos 52)) =
      .finite sign mantissa exponent positive := by
  -- the quotient is taken with a digit more than there is room for, unless the exponent is the least
  obtain ⟨places, here⟩ : ∃ places : Nat, min (exponent - -52) (Format.binary64.targetExponent
      (totalExponent mantissa exponent - totalExponent (2 ^ 52) (-52))) = exponent - places := by
    have target := canonical.targetExponent_eq positive
    have one : totalExponent (2 ^ 52) (-52) = 1 := by decide
    rw [targetExponent_binary64] at target ⊢
    rw [one]
    exact ⟨(exponent - max (totalExponent mantissa exponent - 1 - 53) (-1074)).toNat, by omega⟩
  have shift : (exponent - -52 - (exponent - places)).toNat = places + 52 := by omega
  have whole : mantissa <<< (places + 52) = mantissa <<< places * 2 ^ 52 := by
    rw [Nat.shiftLeft_add, Nat.shiftLeft_eq _ 52]
  have core : divCore .binary64 mantissa exponent (2 ^ 52) (-52) =
      (mantissa <<< places, exponent - places, .exact) := by
    rw [divCore, here, shift, whole, Nat.mul_div_cancel _ (Nat.two_pow_pos 52),
      Nat.mul_mod_left]
    rfl
  have sign_div : sign / Sign.positive = sign := by cases sign <;> rfl
  rw [div, core, sign_div]
  exact roundWithAccuracy_shiftLeft canonical positive places

variable {bits : BitVec Format.binary64.numBits} {positive : 0 < mantissa}

theorem canonical_of_unpack
    (unpacked : unpack .binary64 bits = .finite sign mantissa exponent positive) :
    Canonical mantissa exponent := by
  have below : (unpackMantissa bits).toNat < 2 ^ 52 := (unpackMantissa bits).isLt
  have bias : (Format.binary64.exponentBias : Int) = 1023 := by decide
  rw [unpack] at unpacked
  split at unpacked
  · split at unpacked <;> cases unpacked
  · split at unpacked
    · rename_i least
      split at unpacked
      · cases unpacked
      · injection unpacked with _ sameMantissa sameExponent
        have zero : (unpackExponent bits).toNat = 0 := by rw [least]; rfl
        have value : exponent = -1074 := by
          rw [← sameExponent, zero, bias]
          rfl
        exact ⟨by omega, by omega, .inr value⟩
    · rename_i above
      injection unpacked with _ sameMantissa sameExponent
      have lead : mantissa = 2 ^ 52 + (unpackMantissa bits).toNat := by
        rw [← sameMantissa, BitVec.toNat_append, ← Nat.shiftLeft_add_eq_or_of_lt below]
        rfl
      have value : exponent = (unpackExponent bits).toNat - 1075 := by
        rw [← sameExponent, bias]
        rfl
      have nonzero : (unpackExponent bits).toNat ≠ 0 := fun same =>
        above (BitVec.toNat_inj.1 same)
      exact ⟨by omega, by omega, .inl (by omega)⟩

end FloatModel

namespace CostNumber

theorem isCost_float_iff (cost : Float) :
    isCost cost = true ↔ cost.isFinite = true ∧ 0 < cost := by
  have literal : (0 : Float) = zero := by decide +kernel
  have bits : (zero : Float).toModel.unpack = .zero .positive := rfl
  have split : isCost cost = true ↔ cost.isFinite = true ∧ ¬cost ≤ zero := by
    simp only [isCost, Bool.and_eq_true, Bool.not_eq_true', decide_eq_false_iff_not]
    rfl
  have le_iff : cost ≤ zero ↔ cost.toModel.unpack.le (.zero .positive) = true := by
    rw [← bits]
    exact decide_eq_true_iff
  have lt_iff : zero < cost ↔
      Float.Model.UnpackedFloat.lt (.zero .positive) cost.toModel.unpack = true := by
    rw [← bits]
    exact decide_eq_true_iff
  rw [split, literal, and_congr_right_iff, le_iff, lt_iff]
  intro finite
  have finite : cost.toModel.unpack.isFinite = true := finite
  cases unpacked : cost.toModel.unpack with
  | notANumber =>
      rw [unpacked] at finite
      cases finite
  | infinity sign =>
      rw [unpacked] at finite
      cases finite
  | zero sign => cases sign <;> decide
  | finite sign mantissa exponent positive =>
      cases sign with
      | positive => exact iff_of_true Bool.false_ne_true rfl
      | negative => exact iff_of_false (not_not_intro rfl) Bool.false_ne_true

theorem exists_finite_of_isCost {cost : Float} (valid : isCost cost = true) :
    ∃ mantissa exponent positive,
      cost.toModel.unpack = .finite .positive mantissa exponent positive := by
  obtain ⟨finite, above⟩ := (isCost_float_iff cost).1 valid
  have finite : cost.toModel.unpack.isFinite = true := finite
  have above : Float.Model.UnpackedFloat.lt (.zero .positive) cost.toModel.unpack = true :=
    of_decide_eq_true above
  cases unpacked : cost.toModel.unpack with
  | notANumber =>
      rw [unpacked] at finite
      cases finite
  | infinity sign =>
      rw [unpacked] at finite
      cases finite
  | zero sign =>
      rw [unpacked] at above
      cases sign <;> cases above
  | finite sign mantissa exponent positive =>
      rw [unpacked] at above
      cases sign with
      | positive => exact ⟨mantissa, exponent, positive, rfl⟩
      | negative => cases above

/-- The mean of one cost, which is summed from zero, is the cost itself, bit for bit. -/
theorem zero_add_div_one_float {cost : Float} (valid : isCost cost = true) :
    (zero + cost) / ofCount 1 = cost := by
  obtain ⟨mantissa, exponent, positive, unpacked⟩ := exists_finite_of_isCost valid
  have canonical := FloatModel.canonical_of_unpack unpacked
  have kept : Float.Model.pack cost.toModel.unpack = cost.toModel := by
    rw [Float.Model.pack, Float.Model.mk.injEq]
    exact congrArg UInt64.ofBitVec
      (Float.Model.UnpackedFloat.pack_unpack_of_valid cost.toModel.valid)
  have nothing : (zero : Float).toModel.unpack = .zero .positive := rfl
  have one : (ofCount 1 : Float).toModel.unpack =
      .finite .positive (2 ^ 52) (-52) (Nat.two_pow_pos 52) := rfl
  have added : Float.Model.pack (.add .binary64 (zero : Float).toModel.unpack cost.toModel.unpack) =
      cost.toModel := by
    rw [nothing, unpacked, Float.Model.UnpackedFloat.add, ← unpacked, kept]
    all_goals simp
  have divided : Float.Model.pack
      (.div .binary64 cost.toModel.unpack (ofCount 1 : Float).toModel.unpack) = cost.toModel := by
    rw [one, unpacked, FloatModel.div_one canonical, ← unpacked, kept]
  have sum : zero + cost = cost := congrArg Float.ofModel added
  rw [sum]
  exact congrArg Float.ofModel divided

end CostNumber

end AdaptiveMesh
