import StackBytecode.Proofs.Number.ExactText
import StackBytecode.Proofs.Number.Nearest
import StackBytecode.Proofs.Number.Reading
import StackBytecode.Proofs.Number.Shown

/-!
# Shown values are read back to values that are shown the same

The text of a value loses most of its digits, so another value may be read from it. That value lies so near
to the six digits of the text that it is rounded to them again. The spacing of numbers of six digits gets
ten times smaller below a power of ten; there the value read may have one digit less before it is rounded,
and is rounded to the power nevertheless.

For this the spacing of the doubles must be small in proportion, which it is as long as the value shown is
no smaller than the least normal double.
-/

namespace StackBytecode

namespace Number

/-- The least positive double whose mantissa has all its bits. -/
def Double.leastNormal : ℚ := 2 ^ (-1022 : ℤ)

/-- The greatest double, rounded to six digits, is rounded down. -/
theorem Double.greatest_bounds :
    179769 * 10 ^ (303 : ℤ) ≤ greatest ∧ greatest < (179769 + 1 / 2) * 10 ^ (303 : ℤ) := by
  have hpowers : 179769 * 10 ^ 303 ≤ 9007199254740991 * 2 ^ 971 ∧
      2 * (9007199254740991 * 2 ^ 971) < 359539 * 10 ^ 303 := by decide +kernel
  have hlow : (179769 : ℚ) * 10 ^ (303 : ℤ) ≤ 9007199254740991 * 2 ^ (971 : ℤ) := by exact_mod_cast hpowers.1
  have hhigh : 2 * (9007199254740991 * (2 : ℚ) ^ (971 : ℤ)) < 359539 * 10 ^ (303 : ℤ) := by
    exact_mod_cast hpowers.2
  have hgreatest : greatest = 9007199254740991 * 2 ^ (971 : ℤ) := by
    rw [greatest]
    congr 1
    norm_num
  rw [hgreatest]
  generalize (9007199254740991 * 2 ^ (971 : ℤ) : ℚ) = largest at hlow hhigh
  generalize (10 : ℚ) ^ (303 : ℤ) = unit at hlow hhigh
  exact ⟨hlow, by linarith⟩

/-- No double is greater than the greatest one. -/
theorem Magnitude.IsDouble.value_le {m : Magnitude} (hm : m.IsDouble) : m.value ≤ Double.greatest := by
  have hmantissa : (m.mantissa : ℚ) ≤ 2 ^ 53 - 1 := by
    have : (m.mantissa : ℚ) + 1 ≤ 2 ^ 53 := by exact_mod_cast hm.mantissa_lt
    linarith
  exact mul_le_mul hmantissa (zpow_le_zpow_right₀ one_le_two hm.exponent_le) (zpow_nonneg zero_le_two _)
    (by norm_num)

namespace IsSignificant

variable {q : ℚ} {digits : ℕ} {exponent : ℤ}

/-- Rounding to six digits leaves more than half of a number. -/
theorem half_le (h : IsSignificant 6 q digits exponent) : q / 2 ≤ digits * 10 ^ (exponent - 5) := by
  have hunit : (0 : ℚ) < 10 ^ (exponent - 5) := zpow_pos (by norm_num) _
  have hleast : (1 : ℚ) ≤ digits := by
    have := (h.bounds (by decide)).1
    exact_mod_cast (show 1 ≤ digits by omega)
  have hone : (10 : ℚ) ^ (exponent - 5) ≤ digits * 10 ^ (exponent - 5) :=
    le_mul_of_one_le_left hunit.le hleast
  have hnear : |q - digits * 10 ^ (exponent - 5)| ≤ 10 ^ (exponent - 5) / 2 := h.abs_sub_le (by decide)
  have := (abs_le.mp hnear).2
  linarith

/-- The greatest double is rounded down to six digits. -/
theorem greatest_double : IsSignificant 6 Double.greatest 179769 308 := by
  obtain ⟨hlow, hhigh⟩ := Double.greatest_bounds
  have hunit : (0 : ℚ) < 10 ^ (303 : ℤ) := zpow_pos (by norm_num) _
  have hleast : 179769 ≤ Double.greatest * ((10 : ℚ) ^ (303 : ℤ))⁻¹ := (le_mul_inv_iff₀ hunit).mpr hlow
  have hmost : Double.greatest * ((10 : ℚ) ^ (303 : ℤ))⁻¹ < 179769 + 1 / 2 :=
    (mul_inv_lt_iff₀ hunit).mpr hhigh
  rw [← zpow_neg] at hleast hmost
  have hcount : 0 < 6 := by decide
  have hplace : ((6 : ℕ) : ℤ) - 1 - 308 = -303 := by decide
  refine ⟨308, 179769, (scaled_bounds hcount).mpr ?_, .inl ?_, .inl ⟨by decide, rfl, rfl⟩⟩
  · rw [hplace]
    generalize Double.greatest * (10 : ℚ) ^ (-303 : ℤ) = scaled at hleast hmost
    push_cast
    constructor <;> linarith
  · rw [hplace, abs_lt]
    generalize Double.greatest * (10 : ℚ) ^ (-303 : ℤ) = scaled at hleast hmost
    push_cast
    constructor <;> linarith

/-- Rounding to six digits makes no number that is at most the greatest double greater than this. -/
theorem le_greatest (h : IsSignificant 6 q digits exponent) (hq : q ≤ Double.greatest) :
    digits * 10 ^ (exponent - 5) ≤ Double.greatest :=
  (h.mono greatest_double (by decide) hq).trans Double.greatest_bounds.1

/-- A number whose six digits are the ones of a decimal is near to it in proportion. -/
theorem of_abs_sub_le {x w : ℚ} (h : IsSignificant 6 q digits exponent)
    (hx : x = digits * 10 ^ (exponent - 5)) (hw : |w - x| ≤ x / 2 ^ 52) : IsSignificant 6 w digits exponent := by
  obtain ⟨hleast, hlt⟩ := h.bounds (by decide)
  have hunit : (0 : ℚ) < 10 ^ (5 - exponent) := zpow_pos (by norm_num) _
  have hscaled : x * 10 ^ (5 - exponent) = digits := by
    rw [hx, mul_assoc, ← zpow_add₀ (by norm_num), sub_add_sub_cancel, sub_self, zpow_zero, mul_one]
  have hdigits : (digits : ℚ) < 10 ^ 6 := by exact_mod_cast hlt
  refine of_abs_sub_lt (by decide) hleast hlt ?_
  change |w * 10 ^ (5 - exponent) - digits| < 1 / 20
  calc |w * 10 ^ (5 - exponent) - digits| = |w - x| * 10 ^ (5 - exponent) := by
        rw [← hscaled, ← sub_mul, abs_mul, abs_of_pos hunit]
    _ ≤ x / 2 ^ 52 * 10 ^ (5 - exponent) := mul_le_mul_of_nonneg_right hw hunit.le
    _ = digits / 2 ^ 52 := by rw [div_mul_eq_mul_div, hscaled]
    _ < 1 / 20 := by
        rw [div_lt_iff₀ (by norm_num)]
        linarith

end IsSignificant

/-- The decimal that the text of a normal double denotes is read as a double with the same six digits. -/
theorem exists_double_of_shown {m : Magnitude} (hm : m.IsDouble) (hnormal : Double.leastNormal ≤ m.value)
    {digits : ℕ} {exponent : ℤ} (h : IsSignificant 6 m.value digits exponent) {significand : ℕ} {place : ℤ}
    (hplace : (significand : ℚ) * 10 ^ place = digits * 10 ^ (exponent - 5)) :
    ∃ d : Magnitude, d.IsDouble ∧ Literal.decimalBits significand place = Double.magnitudeBits d ∧
      IsSignificant 6 d.value digits exponent := by
  have hlow : (2 : ℚ) ^ (-1023 : ℤ) ≤ significand * 10 ^ place := by
    have hhalf : (2 : ℚ) ^ (-1023 : ℤ) = Double.leastNormal / 2 := zpow_sub_one₀ two_ne_zero (-1022)
    rw [hhalf, hplace]
    exact (div_le_div_of_nonneg_right hnormal zero_le_two).trans h.half_le
  have hhigh : (significand : ℚ) * 10 ^ place ≤ Double.greatest := hplace ▸ h.le_greatest hm.value_le
  obtain ⟨d, hd, hbits, hnear⟩ := Literal.exists_double_of_bounds hlow hhigh
  exact ⟨d, hd, hbits, h.of_abs_sub_le hplace hnear⟩

/-- The exponent of a shown double has few digits. -/
theorem IsSignificant.natAbs_exponent_lt {m : Magnitude} (hm : m.IsDouble) {digits : ℕ} {exponent : ℤ}
    (h : IsSignificant 6 m.value digits exponent) : exponent.natAbs < 65536 := by
  have hmantissa : 0 < m.mantissa := by
    rw [Nat.pos_iff_ne_zero]
    intro hzero
    have hpos := h.pos
    rw [Magnitude.value, hzero, Nat.cast_zero, zero_mul] at hpos
    exact lt_irrefl 0 hpos
  obtain ⟨hleast, hmost⟩ := Double.value_bounds hm hmantissa
  obtain ⟨k, n, ⟨hlow, hhigh⟩, -, hdigits⟩ := h
  have hk : -330 < k + 1 := (zpow_lt_zpow_iff_right₀ (by norm_num)).mp (hleast.trans_lt hhigh)
  have hk' : k < 309 := (zpow_lt_zpow_iff_right₀ (by norm_num)).mp (hlow.trans_lt hmost)
  rcases hdigits with ⟨-, -, rfl⟩ | ⟨-, -, rfl⟩ <;> omega

end Number

namespace Value

open Number

/-- The text of a double that is not zero is read as the decimal that it denotes. -/
theorem exists_decimal_of_magnitudeText {m : Magnitude} (hm : m.IsDouble) {digits : ℕ} {exponent : ℤ}
    (h : IsSignificant 6 m.value digits exponent) :
    ∃ (significand : ℕ) (place : ℤ), (significand : ℚ) * 10 ^ place = digits * 10 ^ (exponent - 5) ∧
      ∀ negative, Literal.ofText? (signed negative (magnitudeText m)) =
        some (.decimal negative significand place) := by
  rw [magnitudeText_of_isSignificant h h.pos.ne']
  split
  case isTrue hrange =>
    have hplain := plainNotation_plainText digits (5 - exponent).toNat
    have hexponent : Literal.readExponent? [] = some 0 := rfl
    obtain ⟨significand, place, hplace, hread⟩ := hplain.exists_decimal (by simp) hexponent
    refine ⟨significand, place, ?_, fun negative => ?_⟩
    · rw [hplace, zpow_zero, mul_one, ← zpow_natCast, Int.toNat_of_nonneg (by omega), div_eq_mul_inv,
        ← zpow_neg, neg_sub]
    · rw [← List.append_nil (plainText _ _)]
      exact hread negative
  case isFalse =>
    have hplain := plainNotation_plainText digits 5
    have hexponent := Literal.readExponent?_exponentPart textLayout (h.natAbs_exponent_lt hm)
    obtain ⟨significand, place, hplace, hread⟩ := hplain.exists_decimal (by simp) hexponent
    refine ⟨significand, place, ?_, hread⟩
    rw [hplace, zpow_sub₀ (by norm_num), div_mul_eq_mul_div, mul_div_assoc]
    rfl

/-- A text that is read as a decimal with the bits of a double is read as a value that is this double. -/
theorem exists_value_of_decimal {text : List Char} {negative : Bool} {significand : ℕ} {place : ℤ}
    (hread : Literal.ofText? text = some (.decimal negative significand place)) {d : Magnitude}
    (hd : d.IsDouble) (hbits : Literal.decimalBits significand place = Double.magnitudeBits d) :
    ∃ w, ofText? text = some w ∧ w.double = .finite negative d := by
  have hdouble : Double.ofBits (Literal.decimal negative significand place).bits = .finite negative d := by
    have hsigned : (Literal.decimal negative significand place).bits =
        Double.withSign negative (Double.magnitudeBits d) := congrArg (Double.withSign negative) hbits
    rw [hsigned, Double.ofBits_withSign hd]
  refine ⟨ofBits (Literal.decimal negative significand place).bits, ?_, hdouble⟩
  rw [ofText?, hread, Option.map_some]

/-- The text of a finite value that is zero or no smaller than the least normal double is read as a value
with the same text. -/
theorem exists_ofText?_of_finite {v : Value} {negative : Bool} {m : Magnitude}
    (hv : v.double = .finite negative m) (h : m.value = 0 ∨ Double.leastNormal ≤ m.value) :
    ∃ w, ofText? v.text.toList = some w ∧ w.text = v.text := by
  have hm : m.IsDouble := (Double.withSign_of_finite hv).1
  rw [text_of_finite hv, String.toList_ofList]
  rcases h with hzero | hnormal
  · have hread : Literal.ofText? (signed negative ['0']) = some (.decimal negative 0 0) := by
      cases negative <;> rfl
    have hd : (⟨0, Double.leastExponent⟩ : Magnitude).IsDouble :=
      ⟨Int.le_refl _, by decide, by decide, .inr rfl⟩
    have hdzero : (⟨0, Double.leastExponent⟩ : Magnitude).value = 0 := by
      rw [Magnitude.value, Nat.cast_zero, zero_mul]
    obtain ⟨w, hw, hwd⟩ := exists_value_of_decimal hread hd rfl
    rw [magnitudeText_of_value_eq_zero hzero]
    exact ⟨w, hw, by rw [text_of_finite hwd, magnitudeText_of_value_eq_zero hdzero]⟩
  · have hne : m.value ≠ 0 := ((zpow_pos zero_lt_two _).trans_le hnormal).ne'
    obtain ⟨digits, exponent, h⟩ := Magnitude.exists_isSignificant hne (show 0 < 6 by decide)
    obtain ⟨significand, place, hplace, hread⟩ := exists_decimal_of_magnitudeText hm h
    obtain ⟨d, hd, hbits, hshown⟩ := exists_double_of_shown hm hnormal h hplace
    obtain ⟨w, hw, hwd⟩ := exists_value_of_decimal (hread negative) hd hbits
    refine ⟨w, hw, ?_⟩
    rw [text_of_finite hwd, magnitudeText_of_isSignificant hshown hshown.pos.ne',
      magnitudeText_of_isSignificant h hne]

/-- The text of a value is read as a value with the same text, but for the doubles below the least normal
one. -/
theorem exists_ofText? (v : Value)
    (h : ∀ negative m, v.double = .finite negative m → m.value = 0 ∨ Double.leastNormal ≤ m.value) :
    ∃ w, ofText? v.text.toList = some w ∧ w.text = v.text := by
  cases hv : v.double with
  | nan negative =>
    have htext : v.text = "nan" := by rw [text, hv]
    rw [htext]
    exact ⟨_, rfl, rfl⟩
  | infinite negative =>
    have htext : v.text = String.ofList (signed negative ['i', 'n', 'f']) := by rw [text, hv]
    rw [htext, String.toList_ofList]
    cases negative <;> exact ⟨_, rfl, rfl⟩
  | finite negative m => exact exists_ofText?_of_finite hv (h negative m hv)

end Value

end StackBytecode
