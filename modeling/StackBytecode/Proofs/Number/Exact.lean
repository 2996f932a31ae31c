import Mathlib.Tactic.FieldSimp
import StackBytecode.Proofs.Number.Numeral
import StackBytecode.Proofs.Number.Ratio

/-!
# Exact decimals

Every double is a decimal number: a power of two in the denominator becomes a power of ten
when the numerator takes the power of five. The bits of this decimal are those of the double,
since rounding to the nearest double changes no double.

Rounding is computed with quotients of natural numbers. What it does is said here of the
rational numbers that these stand for, where the last place of a double is a logarithm.
-/

namespace StackBytecode.Number

/-! ## Rounding keeps doubles -/

/-- A magnitude in the form that the doubles have: at most fifty-three bits, as many unless the
last place is the least one. -/
structure Magnitude.IsDouble (d : Magnitude) : Prop where
  least_le : Double.leastExponent ≤ d.exponent
  exponent_le : d.exponent ≤ 971
  mantissa_lt : d.mantissa < 2 ^ 53
  normal : 2 ^ 52 ≤ d.mantissa ∨ d.exponent = Double.leastExponent

/-- The rational number that a magnitude stands for. -/
def Magnitude.value (d : Magnitude) : ℚ := d.mantissa * 2 ^ d.exponent

namespace Double

/-- The last place of a positive double is the one of its magnitude. -/
theorem lastPlace_of_value_eq {r : Ratio} {d : Magnitude} (hd : d.IsDouble) (hnum : 0 < r.num)
    (hden : 0 < r.den) (h : r.value = d.value) : lastPlace r = d.exponent := by
  have hpow : (0 : ℚ) < 2 ^ d.exponent := zpow_pos zero_lt_two _
  have hvalue : 0 < d.value := h ▸ Ratio.value_pos hnum hden
  have hhigh : Int.log 2 d.value < 53 + d.exponent := by
    rw [← Int.lt_zpow_iff_log_lt Nat.one_lt_two hvalue, Nat.cast_two, zpow_add₀ two_ne_zero,
      Magnitude.value]
    exact mul_lt_mul_of_pos_right (by exact_mod_cast hd.mantissa_lt) hpow
  have hleast := hd.least_le
  rw [lastPlace, Ratio.exponentTwo_eq_log hnum hden, h]
  rcases hd.normal with hnormal | hleastPlace
  · have hlow : 52 + d.exponent ≤ Int.log 2 d.value := by
      rw [← Int.zpow_le_iff_le_log Nat.one_lt_two hvalue, Nat.cast_two, zpow_add₀ two_ne_zero,
        Magnitude.value]
      exact mul_le_mul_of_nonneg_right (by exact_mod_cast hnormal) hpow.le
    omega
  · omega

/-- The double nearest to a positive double is that double. -/
theorem nearest_of_value_eq {r : Ratio} {d : Magnitude} (hd : d.IsDouble) (hnum : 0 < r.num)
    (hden : 0 < r.den) (h : r.value = d.value) : nearest r = d := by
  have hplace := lastPlace_of_value_eq hd hnum hden h
  have hscaled : (r.mulPow 2 (-d.exponent)).value = d.mantissa := by
    rw [Ratio.value_mulPow, h, Magnitude.value, Nat.cast_two, mul_assoc, ← zpow_add₀ two_ne_zero,
      Int.add_right_neg, zpow_zero, mul_one]
  rw [nearest, if_neg hnum.ne', hplace,
    Ratio.round_of_value_eq (Ratio.den_mulPow_pos Nat.two_pos hden _) hscaled]

/-- What no double reaches is below the power of ten from which on decimals are infinite. -/
theorem zpow_two_le_zpow_ten : (2 : ℚ) ^ (1024 : Int) ≤ 10 ^ (309 : Int) := by
  have hpowers : (2 : Nat) ^ 1024 ≤ 10 ^ 309 := by decide +kernel
  exact_mod_cast hpowers

/-- A positive double lies between the powers of ten from which on decimals are zero or infinite. -/
theorem value_bounds {d : Magnitude} (hd : d.IsDouble) (hpos : 0 < d.mantissa) :
    (10 : ℚ) ^ (-330 : Int) ≤ d.value ∧ d.value < 10 ^ (309 : Int) := by
  have hpow : (0 : ℚ) < 2 ^ d.exponent := zpow_pos zero_lt_two _
  constructor
  · have hone : (1 : ℚ) ≤ d.mantissa := by exact_mod_cast hpos
    have hpowers : (2 : Nat) ^ 1074 ≤ 10 ^ 330 := by decide +kernel
    calc (10 : ℚ) ^ (-330 : Int) ≤ 2 ^ (-1074 : Int) := by
          rw [zpow_neg, zpow_neg]
          exact inv_anti₀ (zpow_pos zero_lt_two _) (by exact_mod_cast hpowers)
      _ ≤ 2 ^ d.exponent := zpow_le_zpow_right₀ one_le_two hd.least_le
      _ ≤ d.value := le_mul_of_one_le_left hpow.le hone
  · calc d.value < 2 ^ (53 : Int) * 2 ^ d.exponent :=
          mul_lt_mul_of_pos_right (by exact_mod_cast hd.mantissa_lt) hpow
      _ = 2 ^ (53 + d.exponent) := (zpow_add₀ two_ne_zero _ _).symm
      _ ≤ 2 ^ (1024 : Int) := zpow_le_zpow_right₀ one_le_two (by have := hd.exponent_le; omega)
      _ ≤ 10 ^ (309 : Int) := zpow_two_le_zpow_ten

end Double

/-- A decimal between the powers of ten from which on decimals are zero or infinite has the bits of the
magnitude nearest to it. -/
theorem Literal.decimalBits_of_bounds {significand : Nat} {exponent : Int}
    (hlow : (10 : ℚ) ^ (-330 : Int) ≤ significand * 10 ^ exponent)
    (hhigh : (significand : ℚ) * 10 ^ exponent < 10 ^ (309 : Int)) :
    0 < significand ∧ decimalBits significand exponent =
      Double.magnitudeBits (Double.nearest (Ratio.mulPow ⟨significand, 1⟩ 10 exponent)) := by
  have hten : (0 : ℚ) < 10 ^ exponent := zpow_pos (by norm_num) _
  have hsignificand : 0 < significand := by
    rw [Nat.pos_iff_ne_zero]
    rintro rfl
    have hpositive : (0 : ℚ) < 10 ^ (-330 : Int) := zpow_pos (by norm_num) _
    rw [Nat.cast_zero, zero_mul] at hlow
    exact absurd hlow (not_le.mpr hpositive)
  obtain ⟨hdigits, hleast, hgreatest⟩ := Ratio.digitCount_spec hsignificand
  have hbelow : (-330 : Int) < Ratio.digitCount significand + exponent := by
    have hlt : (10 : ℚ) ^ (-330 : Int) < 10 ^ (Ratio.digitCount significand + exponent : Int) := by
      rw [zpow_add₀ (by norm_num), zpow_natCast]
      exact hlow.trans_lt (mul_lt_mul_of_pos_right (by exact_mod_cast hgreatest) hten)
    exact (zpow_lt_zpow_iff_right₀ (by norm_num)).mp hlt
  have habove : ((Ratio.digitCount significand - 1 : Nat) : Int) + exponent < 309 := by
    have hlt : (10 : ℚ) ^ ((Ratio.digitCount significand - 1 : Nat) + exponent : Int) <
        10 ^ (309 : Int) := by
      rw [zpow_add₀ (by norm_num), zpow_natCast]
      exact (mul_le_mul_of_nonneg_right (by exact_mod_cast hleast) hten.le).trans_lt hhigh
    exact (zpow_lt_zpow_iff_right₀ (by norm_num)).mp hlt
  refine ⟨hsignificand, ?_⟩
  rw [decimalBits, if_neg (by omega), if_neg (by omega)]

/-- A decimal as a quotient. -/
theorem Ratio.value_decimal (significand : Nat) (exponent : Int) :
    (Ratio.mulPow ⟨significand, 1⟩ 10 exponent).value = significand * 10 ^ exponent := by
  rw [value_mulPow, value, Nat.cast_one, div_one, Nat.cast_ofNat]

/-- A decimal that is exactly a positive double has the bits of that double. -/
theorem Literal.decimalBits_of_value_eq {significand : Nat} {exponent : Int} {d : Magnitude}
    (hd : d.IsDouble) (hpos : 0 < d.mantissa) (h : (significand : ℚ) * 10 ^ exponent = d.value) :
    decimalBits significand exponent = Double.magnitudeBits d := by
  obtain ⟨hlow, hhigh⟩ := Double.value_bounds hd hpos
  rw [← h] at hlow hhigh
  obtain ⟨hsignificand, hbits⟩ := decimalBits_of_bounds hlow hhigh
  rw [hbits, Double.nearest_of_value_eq hd (Ratio.num_mulPow_pos (by decide) hsignificand exponent)
    (Ratio.den_mulPow_pos (by decide) Nat.one_pos exponent)
    ((Ratio.value_decimal significand exponent).trans h)]

/-! ## The parts of a double -/

namespace Double

/-- The sign is the first of the bits. -/
theorem toNat_withSign (negative : Bool) {magnitude : ℕ} (h : magnitude < 2 ^ 63) :
    (withSign negative magnitude).toNat = 2 ^ 63 * negative.toNat + magnitude := by
  rw [withSign, UInt64.toNat_ofNat']
  cases negative with
  | false =>
    rw [if_neg Bool.false_ne_true, Bool.toNat_false]
    omega
  | true =>
    rw [if_pos rfl, Bool.toNat_true]
    omega

/-- The bits of a finite double are those of its sign and of its magnitude, which has the form that
doubles have. -/
theorem withSign_of_finite {bits : UInt64} {negative : Bool} {d : Magnitude}
    (h : ofBits bits = .finite negative d) :
    d.IsDouble ∧ withSign negative (magnitudeBits d) = bits := by
  have hbits := bits.toNat_lt
  rw [← UInt64.ofNat_toNat (x := bits)]
  rw [ofBits] at h
  generalize bits.toNat = n at h hbits
  split at h
  case isTrue hfield => split at h <;> cases h
  case isFalse hfield =>
    split at h
    case isTrue hzero =>
      cases h
      have hle : leastExponent ≤ 971 := by decide
      refine ⟨⟨Int.le_refl _, hle, by dsimp only; omega, .inr rfl⟩, ?_⟩
      rw [withSign, magnitudeBits, infinityBits]
      congr 1
      simp only [decide_eq_true_iff]
      split <;> omega
    case isFalse hzero =>
      cases h
      refine ⟨⟨?_, by dsimp only; omega, by dsimp only; omega, .inl (by dsimp only; omega)⟩, ?_⟩
      · rw [leastExponent]
        dsimp only
        omega
      · rw [withSign, magnitudeBits, infinityBits, leastExponent]
        congr 1
        simp only [decide_eq_true_iff]
        split <;> omega

/-- The bits of an infinite double are those of its sign and of infinity. -/
theorem withSign_of_infinite {bits : UInt64} {negative : Bool}
    (h : ofBits bits = .infinite negative) : withSign negative infinityBits = bits := by
  have hbits := bits.toNat_lt
  rw [← UInt64.ofNat_toNat (x := bits)]
  rw [ofBits] at h
  generalize bits.toNat = n at h hbits
  split at h
  case isFalse hfield => split at h <;> cases h
  case isTrue hfield =>
    split at h
    case isFalse hfraction => cases h
    case isTrue hfraction =>
      cases h
      rw [withSign, infinityBits]
      congr 1
      simp only [decide_eq_true_iff]
      split <;> omega

/-- The literal that is exactly a double. -/
def literal : Double → Literal
  | .nan negative => .nan negative
  | .infinite negative => .infinite negative
  | .finite negative ⟨mantissa, .ofNat k⟩ => .decimal negative (mantissa * 2 ^ k) 0
  | .finite negative ⟨mantissa, .negSucc k⟩ =>
    .decimal negative (mantissa * 5 ^ (k + 1)) (.negSucc k)

/-- The literal of a magnitude in the form of a double has the bits of the magnitude. -/
theorem bits_literal_finite {d : Magnitude} (hd : d.IsDouble) (negative : Bool) :
    (literal (.finite negative d)).bits = withSign negative (magnitudeBits d) := by
  obtain ⟨mantissa, exponent⟩ := d
  by_cases hpos : 0 < mantissa
  · cases exponent with
    | ofNat k =>
      refine congrArg (withSign negative) (Literal.decimalBits_of_value_eq hd hpos ?_)
      rw [Magnitude.value, Int.ofNat_eq_natCast, zpow_natCast]
      simp
    | negSucc k =>
      refine congrArg (withSign negative) (Literal.decimalBits_of_value_eq hd hpos ?_)
      have hten : (10 : ℚ) ^ (k + 1) = 5 ^ (k + 1) * 2 ^ (k + 1) := by rw [← mul_pow]; norm_num
      rw [Magnitude.value, zpow_negSucc, zpow_negSucc, hten]
      push_cast
      field_simp
  · -- the bits of zero are no others than its sign, whatever exponent its literal has
    obtain rfl : mantissa = 0 := by omega
    have hexponent : exponent = leastExponent := hd.normal.resolve_left (by simp)
    have hmagnitude : magnitudeBits ⟨0, exponent⟩ = 0 := by simp [hexponent, magnitudeBits]
    have hdecimal (e : Int) : Literal.decimalBits 0 e = 0 := by simp [Literal.decimalBits]
    rw [hmagnitude]
    cases exponent with
    | ofNat k =>
      change withSign negative (Literal.decimalBits (0 * 2 ^ k) 0) = withSign negative 0
      rw [Nat.zero_mul, hdecimal]
    | negSucc k =>
      change withSign negative (Literal.decimalBits (0 * 5 ^ (k + 1)) _) = withSign negative 0
      rw [Nat.zero_mul, hdecimal]

/-- The literal of a double has the bits of the double, if it is a number. -/
theorem bits_literal {bits : UInt64} (h : ∀ negative, ofBits bits ≠ .nan negative) :
    (ofBits bits).literal.bits = bits := by
  cases hdouble : ofBits bits with
  | nan negative => exact absurd hdouble (h negative)
  | infinite negative => exact withSign_of_infinite hdouble
  | finite negative d =>
    obtain ⟨hd, hbits⟩ := withSign_of_finite hdouble
    rw [bits_literal_finite hd, hbits]

/-- The exponent of the literal of a double is no smaller than the least one of the doubles. -/
theorem natAbs_exponent_le {bits : UInt64} {negative : Bool} {significand : Nat} {exponent : Int}
    (h : (ofBits bits).literal = .decimal negative significand exponent) : exponent.natAbs ≤ 1074 := by
  cases hdouble : ofBits bits with
  | nan sign => simp [hdouble, literal] at h
  | infinite sign => simp [hdouble, literal] at h
  | finite sign d =>
    have hleast := (withSign_of_finite hdouble).1.least_le
    rw [leastExponent] at hleast
    obtain ⟨mantissa, last⟩ := d
    rw [hdouble] at h
    cases last with
    | ofNat k =>
      cases h
      decide
    | negSucc k =>
      cases h
      dsimp only at hleast
      omega

end Double

end StackBytecode.Number
