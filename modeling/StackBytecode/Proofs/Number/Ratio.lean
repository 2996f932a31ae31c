import Mathlib.Data.Int.Log
import Mathlib.Data.Rat.Floor
import StackBytecode.Number.Ratio

/-!
# Quotients as rational numbers

What the functions on quotients compute, said of the rational number that a quotient stands
for: scaling multiplies it by a power, the exponent to base two is its logarithm, and
rounding leaves a natural number as it is. All of this is about positive denominators.
-/

namespace StackBytecode.Number

/-- Dividing a multiple leaves nothing to round. -/
theorem roundDiv_mul_right (n : Nat) {den : Nat} (hden : 0 < den) : roundDiv (n * den) den = n := by
  rw [roundDiv, Nat.mul_mod_left, Nat.mul_div_cancel _ hden, if_pos (by omega)]

namespace Ratio

/-- The rational number that a quotient stands for. -/
def value (r : Ratio) : ℚ := r.num / r.den

theorem value_pos {r : Ratio} (hnum : 0 < r.num) (hden : 0 < r.den) : 0 < r.value :=
  div_pos (Nat.cast_pos.mpr hnum) (Nat.cast_pos.mpr hden)

/-- Scaling multiplies by the power. -/
theorem value_mulPow (r : Ratio) (base : Nat) (k : Int) :
    (r.mulPow base k).value = r.value * (base : ℚ) ^ k := by
  cases k with
  | ofNat k =>
    rw [mulPow, value, value, Int.ofNat_eq_natCast, zpow_natCast, Nat.cast_mul, Nat.pow_eq,
      Nat.cast_pow, mul_div_right_comm]
  | negSucc k =>
    rw [mulPow, value, value, zpow_negSucc, Nat.cast_mul, Nat.pow_eq, Nat.cast_pow, ← div_div,
      div_eq_mul_inv]

/-- A natural number over one stands for itself. -/
theorem value_natCast (n : Nat) : (Ratio.mk n 1).value = n := by rw [value, Nat.cast_one, div_one]

theorem value_nonneg (r : Ratio) : 0 ≤ r.value := div_nonneg (Nat.cast_nonneg _) (Nat.cast_nonneg _)

/-- Dividing by a natural number divides. -/
theorem value_divNat (r : Ratio) (n : Nat) : (r.divNat n).value = r.value / n := by
  rw [divNat, value, value, Nat.cast_mul, div_div]

/-- Adding adds. -/
theorem value_add {r s : Ratio} (hr : 0 < r.den) (hs : 0 < s.den) : (r.add s).value = r.value + s.value := by
  have hr' : (r.den : ℚ) ≠ 0 := Nat.cast_ne_zero.mpr hr.ne'
  have hs' : (s.den : ℚ) ≠ 0 := Nat.cast_ne_zero.mpr hs.ne'
  rw [add, value, value, value, div_add_div _ _ hr' hs']
  push_cast
  rw [mul_comm (r.den : ℚ) s.num]

/-- The greatest integer that is not above is the floor of the rational number. -/
theorem floor_eq (r : Ratio) : r.floor = ⌊r.value⌋₊ := (Rat.natFloor_natCast_div_natCast r.num r.den).symm

/-- Scaling by a power of a positive number keeps numerators positive. -/
theorem num_mulPow_pos {r : Ratio} {base : Nat} (hbase : 0 < base) (hnum : 0 < r.num) (k : Int) :
    0 < (r.mulPow base k).num := by
  cases k with
  | ofNat k => exact Nat.mul_pos hnum (Nat.pow_pos hbase)
  | negSucc k => exact hnum

/-- Scaling by a power of a positive number keeps denominators positive. -/
theorem den_mulPow_pos {r : Ratio} {base : Nat} (hbase : 0 < base) (hden : 0 < r.den) (k : Int) :
    0 < (r.mulPow base k).den := by
  cases k with
  | ofNat k => exact hden
  | negSucc k => exact Nat.mul_pos hden (Nat.pow_pos hbase)

/-- Comparing with a power compares the rational numbers. -/
theorem hasPow_iff {r : Ratio} {base : Nat} (hbase : 0 < base) (hden : 0 < r.den) (k : Int) :
    r.hasPow base k = true ↔ (base : ℚ) ^ k ≤ r.value := by
  have hden' : (0 : ℚ) < r.den := Nat.cast_pos.mpr hden
  have hbase' : (0 : ℚ) < base := Nat.cast_pos.mpr hbase
  cases k with
  | ofNat k =>
    rw [hasPow, decide_eq_true_iff, value, Int.ofNat_eq_natCast, zpow_natCast, le_div_iff₀ hden',
      mul_comm, Nat.pow_eq]
    norm_cast
  | negSucc k =>
    rw [hasPow, decide_eq_true_iff, value, zpow_negSucc, le_div_iff₀ hden',
      inv_mul_le_iff₀ (pow_pos hbase' _), mul_comm, Nat.pow_eq]
    norm_cast

/-- The binary length of a positive natural number bounds it by two powers. -/
theorem zpow_log2_bounds {n : Nat} (h : 0 < n) :
    (2 : ℚ) ^ (n.log2 : Int) ≤ n ∧ (n : ℚ) < 2 ^ (n.log2 + 1 : Int) := by
  rw [zpow_natCast, ← Nat.cast_succ, zpow_natCast]
  constructor
  · exact_mod_cast Nat.log2_self_le h.ne'
  · exact_mod_cast Nat.lt_log2_self

/-- The lengths above and below the line tell the logarithm up to one, and comparing with the power decides
between the two. -/
theorem log_of_lengths {r : Ratio} {base : Nat} (hbase : 1 < base) {above below : Int}
    (hnum : (base : ℚ) ^ above ≤ r.num ∧ (r.num : ℚ) < base ^ (above + 1))
    (hden : (base : ℚ) ^ below ≤ r.den ∧ (r.den : ℚ) < base ^ (below + 1)) :
    (if r.hasPow base (above - below) then above - below else above - below - 1) =
      Int.log base r.value := by
  have hbase' : (0 : ℚ) < base := Nat.cast_pos.mpr (Nat.zero_lt_of_lt hbase)
  have hden' : (0 : ℚ) < r.den := (zpow_pos hbase' _).trans_le hden.1
  have hvalue : 0 < r.value := div_pos ((zpow_pos hbase' _).trans_le hnum.1) hden'
  have hlow : above - below - 1 ≤ Int.log base r.value := by
    rw [← Int.zpow_le_iff_le_log hbase hvalue, value, le_div_iff₀ hden']
    calc (base : ℚ) ^ (above - below - 1) * r.den
        ≤ base ^ (above - below - 1) * base ^ (below + 1) :=
          mul_le_mul_of_nonneg_left hden.2.le (zpow_nonneg hbase'.le _)
      _ = base ^ above := by rw [← zpow_add₀ hbase'.ne']; congr 1; omega
      _ ≤ r.num := hnum.1
  have hhigh : Int.log base r.value < above - below + 1 := by
    rw [← Int.lt_zpow_iff_log_lt hbase hvalue, value, div_lt_iff₀ hden']
    calc (r.num : ℚ) < base ^ (above + 1) := hnum.2
      _ = base ^ (above - below + 1) * base ^ below := by
        rw [← zpow_add₀ hbase'.ne']; congr 1; omega
      _ ≤ base ^ (above - below + 1) * r.den :=
          mul_le_mul_of_nonneg_left hden.1 (zpow_nonneg hbase'.le _)
  have hpow := (hasPow_iff (Nat.zero_lt_of_lt hbase) (Nat.cast_pos.mp hden') (above - below)).trans
    (Int.zpow_le_iff_le_log hbase hvalue)
  split
  case isTrue h =>
    have := hpow.mp h
    omega
  case isFalse h =>
    have := mt hpow.mpr h
    omega

/-- The exponent to base two is the logarithm. -/
theorem exponentTwo_eq_log {r : Ratio} (hnum : 0 < r.num) (hden : 0 < r.den) :
    r.exponentTwo = Int.log 2 r.value :=
  log_of_lengths Nat.one_lt_two (zpow_log2_bounds hnum) (zpow_log2_bounds hden)

/-- Rounding leaves a natural number as it is. -/
theorem round_of_value_eq {r : Ratio} {n : Nat} (hden : 0 < r.den) (h : r.value = n) : r.round = n := by
  have hden' : (r.den : ℚ) ≠ 0 := Nat.cast_ne_zero.mpr hden.ne'
  have hnum : r.num = n * r.den := by
    rw [value, div_eq_iff hden'] at h
    exact_mod_cast h
  rw [round, hnum, roundDiv_mul_right n hden]

/-- A positive natural number has as many decimal digits as the exponent of the least power of ten
above it. -/
theorem digitCount_spec {n : Nat} (h : 0 < n) :
    0 < digitCount n ∧ 10 ^ (digitCount n - 1) ≤ n ∧ n < 10 ^ digitCount n := by
  have hpos : 0 < digitCount n := List.length_pos_of_ne_nil Nat.toDigits_ne_nil
  have hlt : n < 10 ^ digitCount n :=
    (Nat.length_toDigits_le_iff (by decide) hpos).mp (Nat.le_refl _)
  refine ⟨hpos, ?_, hlt⟩
  by_cases hone : digitCount n = 1
  · rw [hone]
    exact h
  · rw [← Nat.not_lt, ← Nat.length_toDigits_le_iff (by decide) (by omega)]
    exact Nat.not_le.mpr (Nat.sub_lt hpos Nat.one_pos)

/-- The number of digits of a positive natural number bounds it by two powers. -/
theorem zpow_digitCount_bounds {n : Nat} (h : 0 < n) :
    ((10 : Nat) : ℚ) ^ ((digitCount n : Int) - 1) ≤ n ∧
      (n : ℚ) < (10 : Nat) ^ ((digitCount n : Int) - 1 + 1) := by
  obtain ⟨hpos, hleast, hgreatest⟩ := digitCount_spec h
  have hcast : (digitCount n : Int) - 1 = (digitCount n - 1 : Nat) := by omega
  rw [hcast, zpow_natCast, ← Nat.cast_succ, Nat.succ_eq_add_one, Nat.sub_add_cancel hpos, zpow_natCast]
  constructor
  · exact_mod_cast hleast
  · exact_mod_cast hgreatest

/-- The exponent of a positive quotient is its logarithm, and nothing else is. -/
theorem isExponent_iff {r : Ratio} {base : Nat} (hbase : 1 < base) (hnum : 0 < r.num) (hden : 0 < r.den)
    (k : Int) : r.isExponent base k = true ↔ k = Int.log base r.value := by
  have hpow (k : Int) : r.hasPow base k = true ↔ k ≤ Int.log base r.value :=
    (hasPow_iff (Nat.zero_lt_of_lt hbase) hden k).trans
      (Int.zpow_le_iff_le_log hbase (value_pos hnum hden))
  rw [isExponent, Bool.and_eq_true, Bool.not_eq_true', ← Bool.not_eq_true, hpow, hpow]
  omega

/-- The exponent to base ten is the logarithm, whether it is guessed or counted. -/
theorem exponentTen_eq_log {r : Ratio} (hnum : 0 < r.num) (hden : 0 < r.den) :
    r.exponentTen = Int.log 10 r.value := by
  rw [exponentTen]
  cases hguess : List.find? (r.isExponent 10) _ with
  | some k => exact (isExponent_iff (by decide) hnum hden k).mp (List.find?_some hguess)
  | none =>
    have hcounted := log_of_lengths (by decide) (zpow_digitCount_bounds hnum) (zpow_digitCount_bounds hden)
    rw [sub_sub_sub_cancel_right] at hcounted
    exact hcounted

end Ratio

end StackBytecode.Number
