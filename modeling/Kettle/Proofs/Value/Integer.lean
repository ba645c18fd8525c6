/-
Integers of 64 bits. An integer wraps around to the only one of 64 bits that is congruent to it, and so operands may
be wrapped around before sums, differences, products and negatives are. The quotient of two integers of 64 bits is the
exact one rounded toward zero, and it fits into 64 bits but for one pair of operands, the least integer and -1. There
it wraps around to the least integer again; but multiplication and addition wrap around as well, so that for every pair
the quotient, the divisor and the remainder make up the dividend.
-/
import Kettle.Proofs.Eval.Values
import Mathlib.Data.Int.ModEq
import Mathlib.Data.Rat.Floor
import Mathlib.Tactic.Linarith

namespace Kettle

namespace Word

/-! ## Wrapping around -/

theorem wrap_modEq (a : Int) : wrap a ≡ a [ZMOD 2 ^ 64] := by
  have hoffset : (a - least) % span + least ≡ a - least + least [ZMOD 2 ^ 64] := (Int.mod_modEq _ _).add_right least
  rwa [sub_add_cancel] at hoffset

/-- Congruent integers wrap around to the same one. -/
theorem wrap_congr {a b : Int} (h : a ≡ b [ZMOD 2 ^ 64]) : wrap a = wrap b := by
  have hoffset : (a - least) % span = (b - least) % span := h.sub_right least
  rw [wrap, wrap, hoffset]

theorem wrap_add (a b : Int) : wrap (wrap a + wrap b) = wrap (a + b) :=
  wrap_congr ((wrap_modEq a).add (wrap_modEq b))

theorem wrap_sub (a b : Int) : wrap (wrap a - wrap b) = wrap (a - b) :=
  wrap_congr ((wrap_modEq a).sub (wrap_modEq b))

theorem wrap_mul (a b : Int) : wrap (wrap a * wrap b) = wrap (a * b) :=
  wrap_congr ((wrap_modEq a).mul (wrap_modEq b))

theorem wrap_neg (a : Int) : wrap (-wrap a) = wrap (-a) := wrap_congr (wrap_modEq a).neg

/-! ## Division -/

/-- A number without what is behind its point: the nearest integer that is not farther from zero. -/
def towardZero (x : ℚ) : Int := if 0 ≤ x then ⌊x⌋ else ⌈x⌉

theorem towardZero_neg (x : ℚ) : towardZero (-x) = -towardZero x := by
  unfold towardZero
  rcases lt_trichotomy x 0 with hx | rfl | hx
  · rw [if_pos (by linarith), if_neg (by linarith), Int.floor_neg]
  · simp
  · rw [if_neg (by linarith), if_pos hx.le, Int.ceil_neg]

/-- The quotient of absolute values with its sign is division that rounds toward zero. -/
theorem quotient_eq_tdiv (a b : Int) : quotient a b = a.tdiv b := by
  obtain ⟨m, rfl | rfl⟩ := a.eq_nat_or_neg <;> obtain ⟨k, rfl | rfl⟩ := b.eq_nat_or_neg
  all_goals
    simp only [quotient, Int.neg_tdiv, Int.tdiv_neg, neg_neg, Int.natAbs_neg, Int.natAbs_natCast,
      Int.ofNat_tdiv]
    rcases Nat.eq_zero_or_pos m with rfl | hm
    · simp
    rcases Nat.eq_zero_or_pos k with rfl | hk
    · simp
    split <;> omega

/-- What division leaves of the dividend is the remainder with the sign of the dividend. -/
theorem remainder_eq_tmod (a b : Int) : remainder a b = a.tmod b := by
  rw [remainder, quotient_eq_tdiv, Int.tmod_def]

/-- Division is exact division, rounded toward zero. -/
theorem tdiv_eq_towardZero (a b : Int) : a.tdiv b = towardZero (a / b) := by
  -- both sides change their signs with each operand, so that natural numbers are left
  have hnat : ∀ m k : Nat, (m : Int).tdiv k = towardZero ((m : Int) / (k : Int)) := by
    intro m k
    rw [towardZero, if_pos (by positivity), Int.tdiv_eq_ediv_of_nonneg (by positivity), Int.cast_natCast (n := k),
      Rat.floor_intCast_div_natCast]
  have hsigned : ∀ (a : Int) (k : Nat), a.tdiv k = towardZero (a / (k : Int)) := by
    intro a k
    obtain ⟨m, rfl | rfl⟩ := a.eq_nat_or_neg
    · exact hnat m k
    · rw [Int.neg_tdiv, hnat, Int.cast_neg, neg_div, towardZero_neg]
  obtain ⟨k, rfl | rfl⟩ := b.eq_nat_or_neg
  · exact hsigned a k
  · rw [Int.tdiv_neg, hsigned, Int.cast_neg, div_neg, towardZero_neg]

/-- A remainder is less than the divisor, and has 64 bits with it. -/
theorem natAbs_tmod_lt (a : Int) {b : Int} (hb : b ≠ 0) : (a.tmod b).natAbs < b.natAbs := by
  rw [Int.natAbs_tmod]
  exact Nat.mod_lt _ (Int.natAbs_pos.2 hb)

theorem wrap_tmod (a : Int) {b : Int} (hb : b ≠ 0) (hfits : fits b = true) : wrap (a.tmod b) = a.tmod b := by
  have hlt := natAbs_tmod_lt a hb
  rw [fits_iff] at hfits
  exact wrap_of_fits (fits_iff.2 (by omega))

/-- The quotient of two integers of 64 bits has 64 bits, but for one pair of them. -/
theorem wrap_tdiv {a b : Int} (ha : fits a = true) (hb : b ≠ 0) (hpair : ¬ (a = least ∧ b = -1)) :
    wrap (a.tdiv b) = a.tdiv b := by
  have hquotient : (a.tdiv b).natAbs = a.natAbs / b.natAbs := Int.natAbs_tdiv a b
  obtain ⟨hlow, hhigh⟩ := fits_iff.1 ha
  refine wrap_of_fits (fits_iff.2 ?_)
  by_cases hone : b.natAbs = 1
  · -- the dividend is left as it is or changes its sign, and only the least integer cannot
    rcases Int.natAbs_eq_iff.1 hone with hb | hb
    · rw [show b = 1 by simpa using hb, Int.tdiv_one]
      omega
    · obtain rfl : b = -1 := by simpa using hb
      have hleast : a ≠ -2 ^ 63 := fun he => hpair ⟨he, rfl⟩
      rw [Int.tdiv_neg, Int.tdiv_one]
      omega
  · have hhalf : a.natAbs / b.natAbs ≤ a.natAbs / 2 := Nat.div_le_div_left (by omega) (by decide)
    omega

end Word

namespace Operator

theorem apply_div (a b : Int) : (arithmetic .div).apply (.int a) (.int b) =
    if b = 0 then .error .divideByZero else .ok (.int (Word.wrap (a.tdiv b))) := by
  rw [apply, onInts, Arithmetic.onInts, Word.quotient_eq_tdiv]
  split <;> rfl

theorem apply_mod (a b : Int) : (arithmetic .mod).apply (.int a) (.int b) =
    if b = 0 then .error .moduloByZero else .ok (.int (Word.wrap (a.tmod b))) := by
  rw [apply, onInts, Arithmetic.onInts, Word.remainder_eq_tmod]
  split <;> rfl

end Operator

/-- The fault of a division by zero is the only one that two integers can cause. -/
theorem division_fails_iff {x : Except RuntimeCause Value} {b : Int} {cause : RuntimeCause} {v : Value}
    (hx : x = if b = 0 then .error cause else .ok v) (hcause : cause.toClass = .general) :
    (∃ cause, x = .error cause ∧ cause.toClass = .general) ↔ b = 0 := by
  subst hx
  constructor
  · rintro ⟨_, h, -⟩
    by_contra hb
    rw [if_neg hb] at h
    cases h
  · rintro rfl
    exact ⟨cause, rfl, hcause⟩

/-- Division and remainder of two integers of 64 bits fit together. Both fail just if the divisor is zero. If it is
not, the product of quotient and divisor and the remainder add up to the dividend, in the arithmetic that wraps
around; the remainder is smaller than the divisor and has the sign of the dividend, unless it is zero; and the
quotient is the exact one rounded toward zero, but for the least integer divided by -1, which gives the least integer
and no remainder. -/
theorem division_agrees_with_modulo (a b : Int) (ha : Word.fits a = true) (hb : Word.fits b = true) :
    ((∃ cause, (Operator.arithmetic .div).apply (.int a) (.int b) = .error cause ∧ cause.toClass = .general) ↔ b = 0) ∧
    ((∃ cause, (Operator.arithmetic .mod).apply (.int a) (.int b) = .error cause ∧ cause.toClass = .general) ↔ b = 0) ∧
    (b ≠ 0 → ∃ q r product,
      (Operator.arithmetic .div).apply (.int a) (.int b) = .ok (.int q) ∧
      (Operator.arithmetic .mod).apply (.int a) (.int b) = .ok (.int r) ∧
      (Operator.arithmetic .mul).apply (.int q) (.int b) = .ok product ∧
      (Operator.arithmetic .add).apply product (.int r) = .ok (.int a) ∧
      |r| < |b| ∧ (r = 0 ∨ r.sign = a.sign) ∧
      (¬ (a = -2 ^ 63 ∧ b = -1) → q = Word.towardZero (a / b)) ∧
      (a = -2 ^ 63 ∧ b = -1 → q = -2 ^ 63 ∧ r = 0)) := by
  refine ⟨division_fails_iff (Operator.apply_div a b) rfl, division_fails_iff (Operator.apply_mod a b) rfl, ?_⟩
  intro hzero
  have hr := Word.wrap_tmod a hzero hb
  refine ⟨Word.wrap (a.tdiv b), Word.wrap (a.tmod b), .int (Word.wrap (Word.wrap (a.tdiv b) * b)), ?_, ?_, rfl, ?_, ?_,
    ?_, ?_, ?_⟩
  · rw [Operator.apply_div, if_neg hzero]
  · rw [Operator.apply_mod, if_neg hzero]
  · have hdividend : Word.wrap (Word.wrap (Word.wrap (a.tdiv b) * b) + Word.wrap (a.tmod b)) = a := by
      calc Word.wrap (Word.wrap (Word.wrap (a.tdiv b) * b) + Word.wrap (a.tmod b))
          = Word.wrap (Word.wrap (Word.wrap (a.tdiv b) * Word.wrap b) + Word.wrap (a.tmod b)) := by
            rw [Word.wrap_of_fits hb]
        _ = Word.wrap (a.tdiv b * b + a.tmod b) := by rw [Word.wrap_mul, Word.wrap_add]
        _ = a := by rw [Int.tdiv_mul_add_tmod, Word.wrap_of_fits ha]
    show Except.ok (Value.int _) = _
    rw [hdividend]
  · rw [hr, Int.abs_eq_natAbs, Int.abs_eq_natAbs]
    exact_mod_cast Word.natAbs_tmod_lt a hzero
  · rw [hr]
    by_cases hrem : a.tmod b = 0
    · exact .inl hrem
    · rw [Int.sign_tmod, if_neg fun hdvd => hrem (Int.tmod_eq_zero_of_dvd hdvd)]
      exact .inr rfl
  · intro hpair
    rw [Word.wrap_tdiv ha hzero hpair, Word.tdiv_eq_towardZero]
  · rintro ⟨rfl, rfl⟩
    decide

/-- The least integer and -1, where the exact quotient does not fit. -/
theorem division_agrees_with_modulo_least :
    Word.fits (-2 ^ 63) = true ∧ Word.fits (-1) = true ∧ ∃ q r product,
      (Operator.arithmetic .div).apply (.int (-2 ^ 63)) (.int (-1)) = .ok (.int q) ∧
      (Operator.arithmetic .mod).apply (.int (-2 ^ 63)) (.int (-1)) = .ok (.int r) ∧
      (Operator.arithmetic .mul).apply (.int q) (.int (-1)) = .ok product ∧
      (Operator.arithmetic .add).apply product (.int r) = .ok (.int (-2 ^ 63)) ∧ q = -2 ^ 63 ∧ r = 0 := by
  have ha : Word.fits (-2 ^ 63) = true := by decide
  have hb : Word.fits (-1) = true := by decide
  obtain ⟨q, r, product, hq, hr, hproduct, hsum, -, -, -, hleast⟩ :=
    (division_agrees_with_modulo (-2 ^ 63) (-1) ha hb).2.2 (by decide)
  exact ⟨ha, hb, q, r, product, hq, hr, hproduct, hsum, hleast ⟨rfl, rfl⟩⟩

end Kettle
