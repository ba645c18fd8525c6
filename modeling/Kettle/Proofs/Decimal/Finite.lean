/-
Doubles of integers. The double nearest to an integer of 64 bits is a finite one. The bounds are coarse:
rounding raises an exponent by about twice the bits of the mantissa at most, and doubles have room for
exponents that are greater by far.
-/
import Kettle.Decimal.Read
import Mathlib.Algebra.Group.Nat.Defs

namespace Kettle.Decimal

open Float.Model Float.Model.UnpackedFloat

variable {m bits : Nat} {e bound : Int} {u v : UnpackedFloat}

/-- A finite number whose mantissa has at most `bits` bits and whose exponent is at most `bound`. -/
inductive Bounded (bits : Nat) (bound : Int) : UnpackedFloat → Prop where
  | zero (sign : Sign) : Bounded bits bound (.zero sign)
  | finite (sign : Sign) {m : Nat} {e : Int} (hpos : 0 < m) (hm : m < 2 ^ bits) (he : e ≤ bound) :
      Bounded bits bound (.finite sign m e hpos)

theorem Bounded.isFinite (h : Bounded bits bound u) : u.isFinite = true := by cases h <;> rfl

theorem Bounded.mono {bound' : Int} (h : Bounded bits bound u) (hle : bound ≤ bound') : Bounded bits bound' u := by
  cases h with
  | zero sign => exact .zero sign
  | finite sign hpos hm he => exact .finite sign hpos hm (Int.le_trans he hle)

/-! ## Rounding -/

theorem shiftRight_mantissa_le (m : ExtendedMantissa) (k : Nat) : (m >>> k).mantissa ≤ m.mantissa := by
  induction k with
  | zero => exact Nat.le_refl _
  | succ k ih => exact Nat.le_trans (Nat.div_le_self _ 2) ih

theorem roundedMantissa_le (m : ExtendedMantissa) : m.roundedMantissa ≤ m.mantissa + 1 := by
  obtain ⟨mantissa, round, sticky⟩ := m
  cases round <;> cases sticky <;>
    simp only [ExtendedMantissa.roundedMantissa, ExtendedMantissa.accuracy, Accuracy.roundToNearestEven] <;> omega

theorem ofMantissaAndAccuracy_mantissa (m : Nat) (a : Accuracy) :
    (ExtendedMantissa.ofMantissaAndAccuracy m a).mantissa = m := by
  cases a with
  | exact => rfl
  | inexact o => cases o <;> rfl

theorem log2_le_of_lt (h : m < 2 ^ bits) : m.log2 ≤ bits := by
  by_cases hm : m = 0
  · simp [hm]
  · exact Nat.le_of_lt ((Nat.log2_lt hm).2 h)

theorem mantissaBits_eq : Format.binary64.mantissaBits = 53 := rfl

/-- Shifting to the exponent that doubles ask for raises an exponent by the bits of the mantissa at most. -/
theorem shiftToTargetExponent_le (a : Accuracy) (hm : m < 2 ^ bits) (he : e ≤ bound) (hbound : 0 ≤ bound) :
    (shiftToTargetExponent .binary64 m e a).1.mantissa ≤ m ∧
      (shiftToTargetExponent .binary64 m e a).2 ≤ bound + bits := by
  have hlog := log2_le_of_lt hm
  constructor
  · have hle := shiftRight_mantissa_le (ExtendedMantissa.ofMantissaAndAccuracy m a)
    rw [ofMantissaAndAccuracy_mantissa] at hle
    exact hle _
  · simp only [shiftToTargetExponent, shiftToExponent, Format.targetExponent, totalExponent, mantissaBits_eq,
      Format.minExponent]
    omega

/-- A mantissa that may be zero is that of a number within the bounds. -/
theorem zero_or_finite_bounded (sign : Sign) (hm : m < 2 ^ bits) (he : e ≤ bound) :
    Bounded bits bound (if h : m = 0 then .zero sign else .finite sign m e (Nat.pos_of_ne_zero h)) := by
  by_cases h : m = 0
  · rw [dif_pos h]
    exact .zero sign
  · rw [dif_neg h]
    exact .finite sign _ hm he

theorem roundWithAccuracy_bounded (sign : Sign) (a : Accuracy) (hm : m < 2 ^ bits) (he : e ≤ bound)
    (hbound : 0 ≤ bound) :
    Bounded (bits + 1) (bound + bits + (bits + 1)) (roundWithAccuracy .binary64 sign m e a) := by
  obtain ⟨hmantissa, hexponent⟩ := shiftToTargetExponent_le a hm he hbound
  have hrounded : (shiftToTargetExponent .binary64 m e a).1.roundedMantissa < 2 ^ (bits + 1) := by
    have hle := roundedMantissa_le (shiftToTargetExponent .binary64 m e a).1
    rw [Nat.pow_succ]
    omega
  -- rounding up may leave one bit too many, for which there is a second shift
  obtain ⟨hfinal, hexponent'⟩ := shiftToTargetExponent_le .exact hrounded hexponent (by omega)
  exact zero_or_finite_bounded sign (Nat.lt_of_le_of_lt hfinal hrounded) hexponent'

/-! ## Packing -/

theorem unpack_components_bounded (sign : Sign) {exponent : BitVec 11} (mantissa : BitVec 52)
    (hfinite : exponent.toNat + 1 < 2 ^ 11) (he : (exponent.toNat : Int) - 1075 ≤ bound) (hbound : 0 ≤ bound) :
    Bounded 53 bound (UnpackedFloat.unpack .binary64 (packComponents .binary64 sign exponent mantissa)) := by
  have hones : exponent ≠ -1#_ := by
    rintro rfl
    exact absurd hfinite (by decide)
  have hbias : Format.binary64.exponentBias + Format.binary64.mantissaBitsWithoutImplicit = 1075 := by decide
  unfold UnpackedFloat.unpack
  rw [unpackExponent_packComponents, if_neg hones]
  by_cases hexponent : exponent = 0#_
  · rw [if_pos hexponent]
    by_cases hmantissa : unpackMantissa (packComponents .binary64 sign exponent mantissa) = 0#_
    · rw [dif_pos hmantissa]
      exact .zero _
    · rw [dif_neg hmantissa]
      refine .finite _ _ (Nat.lt_trans (BitVec.isLt _) (by decide)) ?_
      rw [hexponent, BitVec.toNat_zero]
      omega
  · rw [if_neg hexponent]
    refine .finite _ _ (BitVec.isLt _) ?_
    omega

/-- A number stays finite when it is packed, if its exponent is not too great. -/
theorem unpack_pack_bounded (h : Bounded bits bound u) (hbound : 0 ≤ bound) (hroom : bound ≤ 970) :
    Bounded 53 bound (Float.Model.pack u).unpack := by
  show Bounded 53 bound (UnpackedFloat.unpack .binary64 (UnpackedFloat.pack .binary64 u))
  have hbias : Format.binary64.exponentBias = 1023 := by decide
  cases h with
  | zero sign => exact unpack_components_bounded sign 0 (by decide) (by simpa using by omega) hbound
  | @finite sign m e hpos _ he =>
    unfold UnpackedFloat.pack
    simp only [hbias]
    generalize hbiased : (e + (1023 : Nat) + (52 : Nat)).toNat = biased
    split
    · omega
    · split
      · have hmod : (BitVec.ofNat 11 biased).toNat = biased := by
          rw [BitVec.toNat_ofNat, Nat.mod_eq_of_lt (by omega)]
        exact unpack_components_bounded sign _ (by omega) (by omega) hbound
      · exact unpack_components_bounded sign _ (by decide) (by simpa using by omega) hbound

/-! ## Operations -/

theorem mul_bounded {bits' : Nat} {bound' : Int} (hu : Bounded bits bound u) (hv : Bounded bits' bound' v)
    (hbound : 0 ≤ bound + bound') :
    Bounded (bits + bits' + 1) (bound + bound' + (bits + bits' : Nat) + ((bits + bits' : Nat) + 1))
      (UnpackedFloat.mul .binary64 u v) := by
  cases hu with
  | zero sign => cases hv <;> exact .zero _
  | finite sign hpos hm he =>
    cases hv with
    | zero sign' => exact .zero _
    | finite sign' hpos' hm' he' =>
      refine roundWithAccuracy_bounded _ .exact ?_ (Int.add_le_add he he') hbound
      rw [Nat.pow_add]
      exact Nat.mul_lt_mul'' hm hm'

theorem neg_bounded (h : Bounded bits bound u) : Bounded bits bound u.neg := by
  cases h with
  | zero sign => exact .zero _
  | finite sign hpos hm he => exact .finite _ hpos hm he

/-- The mantissa of an integer is first made as long as that of a double. -/
theorem round_bounded (sign : Sign) (hm : m < 2 ^ bits) :
    Bounded (bits + 52 + 1) ((bits + 52 : Nat) + ((bits + 52 : Nat) + 1)) (UnpackedFloat.round .binary64 sign m 0) := by
  have hshift : (0 - Format.binary64.targetExponent (totalExponent m 0)).toNat ≤ 52 := by
    simp only [Format.targetExponent, totalExponent, mantissaBits_eq, Format.minExponent]
    omega
  have hmantissa : m <<< (0 - Format.binary64.targetExponent (totalExponent m 0)).toNat < 2 ^ (bits + 52) := by
    rw [Nat.shiftLeft_eq, Nat.pow_add]
    exact Nat.mul_lt_mul_of_lt_of_le hm (Nat.pow_le_pow_right (by decide) hshift) (Nat.two_pow_pos _)
  have hround := roundWithAccuracy_bounded sign .exact hmantissa
    (show 0 - ((0 - Format.binary64.targetExponent (totalExponent m 0)).toNat : Int) ≤ 0 by omega) (Int.le_refl 0)
  rw [Int.zero_add] at hround
  exact hround

theorem ofNat_bounded (hm : m < 2 ^ bits) :
    Bounded (bits + 52 + 1) ((bits + 52 : Nat) + ((bits + 52 : Nat) + 1)) (UnpackedFloat.ofNat .binary64 m) := by
  unfold UnpackedFloat.ofNat UnpackedFloat.ofInt UnpackedFloat.normalize
  split
  · exact round_bounded .negative (by omega)
  · exact .zero _
  · exact round_bounded .positive (by simpa using hm)

/-! ## Integers -/

theorem one_bounded : Bounded 53 0 (Float.Model.ofBits 0x3FF0000000000000).unpack := by
  have hone : (Float.Model.ofBits 0x3FF0000000000000).unpack = .finite .positive (2 ^ 52) (-52) (by decide) := by
    rfl
  rw [hone]
  exact .finite _ _ (by decide) (by decide)

/-- The doubles of natural numbers, by both ways of reading them. -/
theorem ofScientific_bounded (hm : m < 2 ^ 64) : Bounded 53 970 (Float.ofScientific m false 0).toModel.unpack := by
  unfold Float.ofScientific
  split
  · -- a number that is a double itself, times one
    have hfloat := unpack_pack_bounded (ofNat_bounded m.toUInt64.toNat_lt) (by decide) (by decide)
    exact (unpack_pack_bounded (mul_bounded hfloat one_bounded (by decide)) (by decide) (by decide)).mono (by decide)
  · -- any other number, with the mantissa made as long as that of a double
    show Bounded 53 970 (Float.Model.pack (UnpackedFloat.ofScientific .binary64 m 0)).unpack
    unfold UnpackedFloat.ofScientific
    by_cases hzero : m = 0
    · rw [dif_pos hzero]
      have hbounded : Bounded 53 970 (.zero .positive) := .zero _
      exact unpack_pack_bounded hbounded (by decide) (by decide)
    · have hexponent : ¬ (0 : Int) < -(2 ^ Format.binary64.exponentBits + m.log2) := by
        show ¬ (0 : Int) < -(2 ^ 11 + m.log2)
        omega
      rw [dif_neg hzero, if_neg (by decide), if_neg hexponent, if_pos (by decide)]
      have hmantissa : m <<< Format.binary64.mantissaBits * 10 ^ (0 : Int).toNat < 2 ^ 117 := by
        show m <<< 53 * 10 ^ 0 < 2 ^ 117
        rw [Nat.shiftLeft_eq]
        omega
      have hround := @roundWithAccuracy_bounded _ 117 (-Format.binary64.mantissaBits + 0) 0
        (Sign.positive * Sign.positive) .exact hmantissa (by decide) (by decide)
      exact (unpack_pack_bounded hround (by decide) (by decide)).mono (by decide)

/-- An integer of 64 bits has a finite double. -/
theorem floatOfInt_finite {n : Int} (h : n.natAbs < 2 ^ 64) : (floatOfInt n).isFinite = true := by
  have hx := ofScientific_bounded h
  unfold floatOfInt
  dsimp only
  split
  · exact (unpack_pack_bounded (neg_bounded hx) (by decide) (by decide)).isFinite
  · exact hx.isFinite

end Kettle.Decimal
