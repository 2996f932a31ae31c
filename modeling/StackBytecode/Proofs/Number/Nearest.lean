import StackBytecode.Proofs.Number.Exact
import StackBytecode.Proofs.Number.Rounding

/-!
# The double that a decimal is read as

A decimal between the least normal double and the greatest one is read as a double that differs from it by
no more than the part that the last place is of it. Rounding may give a mantissa of one bit more than
doubles have. Its bits are those of half that mantissa at the next place, since the carry goes into the
exponent field.
-/

namespace StackBytecode.Number

/-- A power of two is a double, whether its mantissa is written with one bit too many or not. -/
theorem Magnitude.value_carry (place : ℤ) :
    (⟨2 ^ 52, place + 1⟩ : Magnitude).value = (⟨2 ^ 53, place⟩ : Magnitude).value := by
  rw [value, value, zpow_add_one₀ two_ne_zero]
  push_cast
  ring

namespace Double

/-- The greatest double. -/
def greatest : ℚ := (2 ^ 53 - 1) * 2 ^ (971 : ℤ)

theorem greatest_lt : greatest < 2 ^ (1024 : ℤ) :=
  calc greatest < 2 ^ (53 : ℤ) * 2 ^ (971 : ℤ) :=
        mul_lt_mul_of_pos_right (by norm_num) (zpow_pos zero_lt_two _)
    _ = 2 ^ (1024 : ℤ) := (zpow_add₀ two_ne_zero _ _).symm

/-- The place that the doubles near a number have. -/
def placeOf (x : ℚ) : ℤ := max (Int.log 2 x - 52) leastExponent

/-- The nearest double has the place of the number and is rounded at this place. -/
theorem nearest_spec {r : Ratio} (hnum : 0 < r.num) (hden : 0 < r.den) :
    (nearest r).exponent = placeOf r.value ∧
      IsNearestEven (r.value * 2 ^ (-placeOf r.value)) (nearest r).mantissa := by
  have hscaled : 0 < (r.mulPow 2 (-lastPlace r)).den := Ratio.den_mulPow_pos Nat.two_pos hden _
  have hround := Ratio.isNearestEven_round hscaled
  rw [Ratio.value_mulPow, Nat.cast_two] at hround
  have hplace : lastPlace r = placeOf r.value := by
    rw [lastPlace, Ratio.exponentTwo_eq_log hnum hden, placeOf]
  rw [hplace] at hround
  rw [nearest, if_neg hnum.ne', hplace]
  exact ⟨rfl, hround⟩

section Rounded

variable {x : ℚ} {mantissa : ℕ}

/-- At its place a number has at most fifty-three bits. -/
theorem mul_placeOf_lt (x : ℚ) : x * 2 ^ (-placeOf x) < 2 ^ 53 := by
  have hlog : x < 2 ^ (Int.log 2 x + 1) := Int.lt_zpow_succ_log_self Nat.one_lt_two x
  calc x * 2 ^ (-placeOf x) < 2 ^ (Int.log 2 x + 1) * 2 ^ (-placeOf x) :=
        mul_lt_mul_of_pos_right hlog (zpow_pos zero_lt_two _)
    _ = 2 ^ (Int.log 2 x + 1 - placeOf x) := (zpow_add₀ two_ne_zero _ _).symm
    _ ≤ 2 ^ (53 : ℤ) := zpow_le_zpow_right₀ one_le_two (by rw [placeOf]; omega)

/-- A number has as many bits at its place, unless this is the least one. -/
theorem le_mul_placeOf (hx : 0 < x) (hplace : placeOf x ≠ leastExponent) :
    2 ^ 52 ≤ x * 2 ^ (-placeOf x) := by
  have hlog : (2 : ℚ) ^ Int.log 2 x ≤ x := Int.zpow_log_le_self Nat.one_lt_two hx
  have hbits : Int.log 2 x - placeOf x = 52 := by
    rw [placeOf] at hplace ⊢
    omega
  calc (2 : ℚ) ^ 52 = 2 ^ Int.log 2 x * 2 ^ (-placeOf x) := by
        rw [← zpow_add₀ two_ne_zero, ← sub_eq_add_neg, hbits]
        norm_num
    _ ≤ x * 2 ^ (-placeOf x) := mul_le_mul_of_nonneg_right hlog (zpow_nonneg zero_le_two _)

/-- The place of a number up to the greatest double is one that doubles have. -/
theorem placeOf_le (hx : 0 < x) (hgreatest : x ≤ greatest) : placeOf x ≤ 971 := by
  have hlog := (Int.lt_zpow_iff_log_lt Nat.one_lt_two hx).mp (hgreatest.trans_lt greatest_lt)
  rw [placeOf, leastExponent]
  omega

/-- A number up to the greatest double that is rounded at its place is a double, if need be at the next
place. -/
theorem exists_double (hx : 0 < x) (hgreatest : x ≤ greatest)
    (h : IsNearestEven (x * 2 ^ (-placeOf x)) mantissa) :
    ∃ d : Magnitude, d.IsDouble ∧ d.value = (⟨mantissa, placeOf x⟩ : Magnitude).value ∧
      magnitudeBits d = magnitudeBits ⟨mantissa, placeOf x⟩ := by
  have hplace := placeOf_le hx hgreatest
  have hleast : leastExponent ≤ placeOf x := le_max_right _ _
  have hle : mantissa ≤ 2 ^ 53 := h.ge_of_ge (by exact_mod_cast (mul_placeOf_lt x).le)
  rcases Nat.lt_or_eq_of_le hle with hlt | rfl
  · refine ⟨⟨mantissa, placeOf x⟩, ⟨hleast, hplace, hlt, ?_⟩, rfl, rfl⟩
    by_cases hne : placeOf x = leastExponent
    · exact .inr hne
    · exact .inl (h.le_of_le (by exact_mod_cast le_mul_placeOf hx hne))
  · -- at the last place of all there is no carry, since the greatest double is not exceeded
    have hnext : placeOf x ≠ 971 := by
      intro heq
      have hscaled : x * 2 ^ (-placeOf x) ≤ ((2 ^ 53 - 1 : ℕ) : ℚ) := by
        rw [heq, zpow_neg, ← div_eq_mul_inv, div_le_iff₀ (zpow_pos zero_lt_two _)]
        exact hgreatest.trans_eq (by rw [greatest]; norm_num)
      exact absurd (h.ge_of_ge hscaled) (by decide)
    refine ⟨⟨2 ^ 52, placeOf x + 1⟩, ⟨?_, ?_, ?_, .inl (Nat.le_refl _)⟩, Magnitude.value_carry _, ?_⟩
    · dsimp only
      omega
    · dsimp only
      omega
    · exact Nat.pow_lt_pow_right (by decide) (by decide)
    · rw [magnitudeBits, magnitudeBits]
      dsimp only
      omega

/-- A number that is rounded at its place changes by half a unit of the place at most. -/
theorem abs_value_sub_le (h : IsNearestEven (x * 2 ^ (-placeOf x)) mantissa) :
    |(⟨mantissa, placeOf x⟩ : Magnitude).value - x| ≤ 2 ^ placeOf x / 2 := by
  rw [zpow_neg] at h
  rw [abs_sub_comm]
  exact h.abs_sub_mul_le (zpow_pos zero_lt_two _)

/-- Half a unit of the place of a number is a small part of it: how small, depends on how far down among
the doubles the number can be. -/
theorem placeOf_le_div {bits : ℕ} {e : ℤ} (he : e + 1075 = bits) (hbits : bits ≤ 53) (hx : (2 : ℚ) ^ e ≤ x) :
    (2 : ℚ) ^ placeOf x / 2 ≤ x / 2 ^ bits := by
  have hpos : 0 < x := (zpow_pos zero_lt_two _).trans_le hx
  have hlog : (2 : ℚ) ^ Int.log 2 x ≤ x := Int.zpow_log_le_self Nat.one_lt_two hpos
  have hleast : e ≤ Int.log 2 x :=
    (Int.zpow_le_iff_le_log Nat.one_lt_two hpos).mp (by exact_mod_cast hx)
  calc (2 : ℚ) ^ placeOf x / 2 = 2 ^ (placeOf x - 1) := by rw [zpow_sub_one₀ two_ne_zero, div_eq_mul_inv]
    _ ≤ 2 ^ (Int.log 2 x - bits) :=
        zpow_le_zpow_right₀ one_le_two (by rw [placeOf, leastExponent]; omega)
    _ = 2 ^ Int.log 2 x / 2 ^ bits := by rw [zpow_sub₀ two_ne_zero, zpow_natCast]
    _ ≤ x / 2 ^ bits := div_le_div_of_nonneg_right hlog (by positivity)

end Rounded

/-- The sign is told from the size of the bits. -/
theorem decide_le_sign (negative : Bool) {magnitude : ℕ} (h : magnitude < 2 ^ 63) :
    decide (0x8000000000000000 ≤ 2 ^ 63 * negative.toNat + magnitude) = negative := by
  cases negative with
  | false => exact decide_eq_false (by rw [Bool.toNat_false]; omega)
  | true => exact decide_eq_true (by rw [Bool.toNat_true]; omega)

/-- The bits of a magnitude in the form of a double stand for that double. -/
theorem ofBits_withSign {d : Magnitude} (hd : d.IsDouble) (negative : Bool) :
    ofBits (withSign negative (magnitudeBits d)) = .finite negative d := by
  obtain ⟨mantissa, place⟩ := d
  obtain ⟨hleast, hplace, hlt, hnormal⟩ := hd
  dsimp only at hleast hplace hlt hnormal
  rw [leastExponent] at hleast hnormal
  have hbits : magnitudeBits ⟨mantissa, place⟩ = (place + 1074).toNat * 2 ^ 52 + mantissa := by
    rw [magnitudeBits, infinityBits, leastExponent]
    dsimp only
    omega
  have hbound : (place + 1074).toNat * 2 ^ 52 + mantissa < 2 ^ 63 := by omega
  rw [ofBits, hbits, toNat_withSign negative hbound, decide_le_sign negative hbound]
  generalize negative.toNat = sign
  rcases Nat.lt_or_ge mantissa (2 ^ 52) with hsmall | hlarge
  · obtain rfl : place = -1074 := hnormal.resolve_left (Nat.not_le.mpr hsmall)
    rw [if_neg (by omega), if_pos (by omega), leastExponent]
    congr 2
    omega
  · rw [if_neg (by omega), if_neg (by omega)]
    congr 2 <;> omega

end Double

/-- A decimal from half of the least normal double up to the greatest double is read as a finite double,
which differs from it by a small part of it. -/
theorem Literal.exists_double_of_bounds {significand : Nat} {exponent : Int}
    (hlow : (2 : ℚ) ^ (-1023 : ℤ) ≤ significand * 10 ^ exponent)
    (hhigh : (significand : ℚ) * 10 ^ exponent ≤ Double.greatest) :
    ∃ d : Magnitude, d.IsDouble ∧ decimalBits significand exponent = Double.magnitudeBits d ∧
      |d.value - significand * 10 ^ exponent| ≤ significand * 10 ^ exponent / 2 ^ 52 := by
  have hleast : (10 : ℚ) ^ (-330 : ℤ) ≤ 2 ^ (-1023 : ℤ) := by
    have hpowers : (2 : ℕ) ^ 1023 ≤ 10 ^ 330 := by decide +kernel
    rw [zpow_neg, zpow_neg]
    exact inv_anti₀ (zpow_pos zero_lt_two _) (by exact_mod_cast hpowers)
  have hgreatest : Double.greatest < 10 ^ (309 : ℤ) :=
    Double.greatest_lt.trans_le Double.zpow_two_le_zpow_ten
  obtain ⟨hpos, hbits⟩ := decimalBits_of_bounds (hleast.trans hlow) (hhigh.trans_lt hgreatest)
  have hvalue := Ratio.value_decimal significand exponent
  have hnum : 0 < (Ratio.mulPow ⟨significand, 1⟩ 10 exponent).num := Ratio.num_mulPow_pos (by decide) hpos _
  have hden : 0 < (Ratio.mulPow ⟨significand, 1⟩ 10 exponent).den :=
    Ratio.den_mulPow_pos (by decide) Nat.one_pos _
  rw [← hvalue] at hlow hhigh ⊢
  obtain ⟨hplace, hnearest⟩ := Double.nearest_spec hnum hden
  obtain ⟨d, hd, hdvalue, hdbits⟩ := Double.exists_double (Ratio.value_pos hnum hden) hhigh hnearest
  refine ⟨d, hd, ?_, ?_⟩
  · rw [hbits, hdbits, ← hplace]
  · rw [hdvalue]
    exact (Double.abs_value_sub_le hnearest).trans
      (Double.placeOf_le_div (by decide : (-1023 : ℤ) + 1075 = (52 : ℕ)) (by decide) hlow)

end StackBytecode.Number
