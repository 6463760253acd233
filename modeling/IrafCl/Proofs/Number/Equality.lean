import IrafCl.Number.Binary64
import Mathlib.Algebra.Order.Field.Power
import Mathlib.Algebra.Order.Ring.Rat
import Mathlib.Tactic.Linarith
import Mathlib.Tactic.Ring

/-!
# Equality of floating-point numbers

A finite floating-point number is a rational one, `value`, and an infinity is its sign. Equality by the bits is equality of
these (`same_iff`): the significand and the scale of a magnitude are unique, so two numbers of one value have the same bits
but for the sign of zero.
-/

namespace IrafCl.Binary64

/-- The magnitude of a finite number. -/
def magnitude (x : Binary64) : ℚ := x.significand * 2 ^ x.scale

/-- The rational number that a finite number is. -/
def value (x : Binary64) : ℚ := if x.negative then -x.magnitude else x.magnitude

/-- Two floating-point numbers are one number. A NaN is none. -/
inductive SameNumber (x y : Binary64) : Prop
  | infinite (hx : x.isInfinite = true) (hy : y.isInfinite = true) (h : x.negative = y.negative)
  | finite (hx : x.isFinite = true) (hy : y.isFinite = true) (h : x.value = y.value)

variable {x y : Binary64}

theorem SameNumber.symm (h : x.SameNumber y) : y.SameNumber x := by
  cases h with
  | infinite hx hy h => exact .infinite hy hx h.symm
  | finite hx hy h => exact .finite hy hx h.symm

/-! ## Fields -/

theorem fractionField_lt (x : Binary64) : x.fractionField < 2 ^ 52 := Nat.mod_lt _ (by decide)

theorem significand_lt (x : Binary64) : x.significand < 2 ^ 53 := by
  have hfraction := x.fractionField_lt
  have hpow : Nat.pow 2 52 = 2 ^ 52 := rfl
  unfold significand
  split <;> omega

theorem le_scale (x : Binary64) : -1074 ≤ x.scale := by
  unfold scale
  split <;> omega

/-- Above the least scale a significand has all its bits. -/
theorem le_significand (h : -1074 < x.scale) : 2 ^ 52 ≤ x.significand := by
  unfold scale at h
  unfold significand
  split at h
  · omega
  · next hexponent =>
    rw [if_neg hexponent]
    exact Nat.le_add_right _ _

/-- A number is its sign and its two other fields. -/
theorem ext_fields (hsign : x.negative = y.negative) (hexponent : x.exponentField = y.exponentField)
    (hfraction : x.fractionField = y.fractionField) : x = y := by
  have hx := x.bits.toNat_lt
  have hy := y.bits.toNat_lt
  have hpow : Nat.pow 2 52 = 4503599627370496 ∧ Nat.pow 2 63 = 9223372036854775808 := ⟨rfl, rfl⟩
  have hiff : Nat.pow 2 63 ≤ x.bits.toNat ↔ Nat.pow 2 63 ≤ y.bits.toNat := decide_eq_decide.mp hsign
  unfold exponentField at hexponent
  unfold fractionField at hfraction
  rw [hpow.1] at hexponent hfraction
  rw [hpow.2] at hiff
  have hbits : x.bits.toNat = y.bits.toNat := by omega
  cases x
  cases y
  exact congrArg mk (UInt64.toNat_inj.mp hbits)

theorem fields_of_significand (hsignificand : x.significand = y.significand) (hscale : x.scale = y.scale) :
    x.exponentField = y.exponentField ∧ x.fractionField = y.fractionField := by
  have hx := x.fractionField_lt
  have hy := y.fractionField_lt
  have hpow : Nat.pow 2 52 = 2 ^ 52 := rfl
  unfold significand at hsignificand
  unfold scale at hscale
  by_cases hx0 : x.exponentField = 0 <;> by_cases hy0 : y.exponentField = 0 <;>
    simp only [hx0, hy0, ↓reduceIte] at hsignificand hscale <;> omega

/-! ## Magnitudes -/

theorem magnitude_nonneg (x : Binary64) : 0 ≤ x.magnitude :=
  mul_nonneg (Nat.cast_nonneg _) (zpow_nonneg (by norm_num) _)

theorem magnitude_eq_zero_iff : x.magnitude = 0 ↔ x.isZero = true := by
  have hscale : (2 : ℚ) ^ x.scale ≠ 0 := zpow_ne_zero _ (by norm_num)
  have hpow : Nat.pow 2 52 = 2 ^ 52 := rfl
  rw [magnitude, mul_eq_zero_iff_right hscale, Nat.cast_eq_zero, isZero, Bool.and_eq_true, decide_eq_true_eq,
    decide_eq_true_eq, significand]
  split
  · next hexponent => simp [hexponent]
  · next hexponent => simp [hexponent]

/-- The number with the greater scale has the greater magnitude. -/
theorem magnitude_lt_of_scale_lt (h : x.scale < y.scale) : x.magnitude < y.magnitude := by
  have hx : (x.significand : ℚ) < 2 ^ 53 := by exact_mod_cast x.significand_lt
  have hy : (2 : ℚ) ^ 52 ≤ y.significand := by exact_mod_cast le_significand (lt_of_le_of_lt x.le_scale h)
  calc
    x.magnitude < 2 ^ 53 * 2 ^ x.scale := mul_lt_mul_of_pos_right hx (zpow_pos (by norm_num) _)
    _ = 2 ^ 52 * 2 ^ (x.scale + 1) := by rw [zpow_add_one₀ (by norm_num)]; ring
    _ ≤ 2 ^ 52 * 2 ^ y.scale := mul_le_mul_of_nonneg_left (zpow_le_zpow_right₀ (by norm_num) h) (by norm_num)
    _ ≤ y.magnitude := mul_le_mul_of_nonneg_right hy (zpow_nonneg (by norm_num) _)

/-- A magnitude has one scale and one significand. -/
theorem fields_of_magnitude (h : x.magnitude = y.magnitude) :
    x.exponentField = y.exponentField ∧ x.fractionField = y.fractionField := by
  have hscale : x.scale = y.scale := by
    rcases lt_trichotomy x.scale y.scale with hlt | heq | hgt
    · exact absurd h (magnitude_lt_of_scale_lt hlt).ne
    · exact heq
    · exact absurd h (magnitude_lt_of_scale_lt hgt).ne'
  have hsignificand : x.significand = y.significand := by
    unfold magnitude at h
    rw [hscale] at h
    exact_mod_cast mul_right_cancel₀ (zpow_ne_zero _ (by norm_num)) h
  exact fields_of_significand hsignificand hscale

/-! ## Equality -/

/-- Numbers of one value have the same bits, or both are zero. -/
theorem eq_or_isZero_of_value (h : x.value = y.value) : x = y ∨ x.isZero = true ∧ y.isZero = true := by
  by_cases hsign : x.negative = y.negative
  · unfold value at h
    rw [hsign] at h
    have hmagnitude : x.magnitude = y.magnitude := by
      split at h
      · exact neg_inj.mp h
      · exact h
    obtain ⟨hexponent, hfraction⟩ := fields_of_magnitude hmagnitude
    exact .inl (ext_fields hsign hexponent hfraction)
  · have hx := x.magnitude_nonneg
    have hy := y.magnitude_nonneg
    have hzero : x.magnitude = 0 ∧ y.magnitude = 0 := by
      unfold value at h
      split at h <;> split at h
      · simp_all
      · constructor <;> linarith
      · constructor <;> linarith
      · simp_all
    exact .inr ⟨magnitude_eq_zero_iff.mp hzero.1, magnitude_eq_zero_iff.mp hzero.2⟩

theorem isFinite_of_isZero (h : x.isZero = true) : x.isFinite = true := by
  simp only [isZero, Bool.and_eq_true, decide_eq_true_eq] at h
  simp [isFinite, h.1]

theorem value_of_isZero (h : x.isZero = true) : x.value = 0 := by
  rw [value, magnitude_eq_zero_iff.mpr h, neg_zero, ite_self]

theorem isNaN_eq (x : Binary64) : x.isNaN = (!x.isFinite && !x.isInfinite) := by
  unfold isNaN isFinite isInfinite
  by_cases hexponent : x.exponentField = 2047 <;> simp [hexponent]

/-- Numbers are equal by their bits just if they are one number. -/
theorem same_iff : x.same y = true ↔ x.SameNumber y := by
  constructor
  · intro h
    simp only [same, Bool.and_eq_true, Bool.or_eq_true, Bool.not_eq_true', beq_iff_eq] at h
    obtain ⟨⟨hx, -⟩, hbits | ⟨hx0, hy0⟩⟩ := h
    · obtain rfl : x = y := congrArg mk hbits
      rw [isNaN_eq] at hx
      cases hfinite : x.isFinite with
      | true => exact .finite hfinite hfinite rfl
      | false =>
        have hinfinite : x.isInfinite = true := by simpa [hfinite] using hx
        exact .infinite hinfinite hinfinite rfl
    · exact .finite (isFinite_of_isZero hx0) (isFinite_of_isZero hy0) (by rw [value_of_isZero hx0, value_of_isZero hy0])
  · intro h
    cases h with
    | infinite hx hy hsign =>
      have hfields := hx
      have hfields' := hy
      simp only [isInfinite, Bool.and_eq_true, decide_eq_true_eq] at hfields hfields'
      obtain rfl : x = y := ext_fields hsign (hfields.1.trans hfields'.1.symm) (hfields.2.trans hfields'.2.symm)
      simp [same, isNaN_eq, hx]
    | finite hx hy hvalue =>
      rcases eq_or_isZero_of_value hvalue with rfl | ⟨hx0, hy0⟩
      · simp [same, isNaN_eq, hx]
      · simp [same, isNaN_eq, hx, hy, hx0, hy0]

end IrafCl.Binary64
