import StackBytecode.Proofs.Number.Nearest

/-!
# Results of operations on doubles

The result of an operation on doubles is the exact result rounded to a double. What follows from that, for
a chain of operations: a result that is a double is exact, natural numbers that are doubles are not passed,
and from the least normal double on the error is a small part of the result.
-/

namespace StackBytecode.Number

namespace Double

/-- Numbers below the greatest last place do not exceed the doubles. -/
theorem zpow_le_greatest : (2 : ℚ) ^ (971 : ℤ) ≤ greatest :=
  le_mul_of_one_le_left (zpow_nonneg zero_le_two _) (by norm_num)

/-- A double below a power of two has its last place fifty-three places lower at most. -/
theorem exponent_lt_of_value_lt {d : Magnitude} (hd : d.IsDouble) {e : ℤ} (he : leastExponent < e)
    (h : d.value < 2 ^ (52 + e)) : d.exponent < e := by
  rcases hd.normal with hnormal | hleast
  · have hlow : (2 : ℚ) ^ (52 + d.exponent) ≤ d.value := by
      rw [zpow_add₀ two_ne_zero, Magnitude.value]
      exact mul_le_mul_of_nonneg_right (by exact_mod_cast hnormal) (zpow_nonneg zero_le_two _)
    have hlt := (zpow_lt_zpow_iff_right₀ one_lt_two).mp (hlow.trans_lt h)
    omega
  · exact hleast ▸ he

/-- The rounding of a positive number to a double: at the place of the number, to the nearest. -/
def IsRounding (x y : ℚ) : Prop :=
  ∃ n : ℕ, IsNearestEven (x * 2 ^ (-placeOf x)) n ∧ y = n * 2 ^ placeOf x

/-- Scaling back gives the number. -/
theorem mul_zpow_neg_mul (x : ℚ) (place : ℤ) : x * 2 ^ (-place) * 2 ^ place = x := by
  rw [mul_assoc, ← zpow_add₀ two_ne_zero, Int.add_left_neg, zpow_zero, mul_one]

/-- A natural number of units of a place is one of units of any lower place. -/
theorem exists_natCast_eq_mul {e place : ℤ} (h : place ≤ e) (n : ℕ) :
    ∃ m : ℕ, (n : ℚ) * 2 ^ e * 2 ^ (-place) = m := by
  obtain ⟨shift, hshift⟩ := Int.eq_ofNat_of_zero_le (Int.sub_nonneg.mpr h)
  refine ⟨n * 2 ^ shift, ?_⟩
  rw [mul_assoc, ← zpow_add₀ two_ne_zero, ← Int.sub_eq_add_neg, hshift]
  push_cast
  rfl

/-- Numbers of fifty-three bits before the point have their last place at the point or behind it. -/
theorem placeOf_nonpos {x : ℚ} (hpos : 0 < x) (h : x < 2 ^ 53) : placeOf x ≤ 0 := by
  have hlog : Int.log 2 x < 53 :=
    (Int.lt_zpow_iff_log_lt Nat.one_lt_two hpos).mp (by exact_mod_cast h)
  exact max_le (by omega) (by decide)

namespace IsRounding

variable {x y : ℚ}

/-- A number that is a double is not changed, whether its mantissa has all its bits or not. -/
theorem eq_of_double (h : IsRounding x y) {n : ℕ} {e : ℤ} (hx : x = n * 2 ^ e) (hn : n < 2 ^ 53)
    (hleast : leastExponent ≤ e) (hpos : 0 < x) : y = x := by
  obtain ⟨mantissa, hnearest, rfl⟩ := h
  have hlog : Int.log 2 x < 53 + e := by
    rw [← Int.lt_zpow_iff_log_lt Nat.one_lt_two hpos, Nat.cast_two, zpow_add₀ two_ne_zero, hx]
    exact mul_lt_mul_of_pos_right (by exact_mod_cast hn) (zpow_pos zero_lt_two _)
  have hplace : placeOf x ≤ e := max_le (by omega) hleast
  obtain ⟨m, hm⟩ := exists_natCast_eq_mul hplace n
  rw [← hx] at hm
  have hmantissa : mantissa = m := by
    refine hnearest.unique ?_
    rw [hm, IsNearestEven, sub_self, abs_zero]
    exact .inl (by norm_num)
  rw [hmantissa, ← hm, mul_zpow_neg_mul]

/-- From the least normal double on, the error is a small part of the number. -/
theorem abs_sub_le (h : IsRounding x y) (hx : (2 : ℚ) ^ (-1022 : ℤ) ≤ x) : |y - x| ≤ x / 2 ^ 53 := by
  obtain ⟨mantissa, hnearest, rfl⟩ := h
  exact (abs_value_sub_le hnearest).trans
    (placeOf_le_div (by decide : (-1022 : ℤ) + 1075 = (53 : ℕ)) (by decide) hx)

/-- One and greater numbers are normal. -/
theorem abs_sub_le_of_one_le (h : IsRounding x y) (hx : 1 ≤ x) : |y - x| ≤ x / 2 ^ 53 :=
  h.abs_sub_le ((zpow_le_one_of_nonpos₀ one_le_two (by decide)).trans hx)

/-- A natural number is not passed from below. -/
theorem le_natCast (h : IsRounding x y) (hpos : 0 < x) (hx : x < 2 ^ 53) {k : ℕ} (hk : x ≤ k) : y ≤ k := by
  obtain ⟨mantissa, hnearest, rfl⟩ := h
  obtain ⟨m, hm⟩ := exists_natCast_eq_mul (placeOf_nonpos hpos hx) k
  rw [zpow_zero, mul_one] at hm
  have hscaled : x * 2 ^ (-placeOf x) ≤ m :=
    hm ▸ mul_le_mul_of_nonneg_right hk (zpow_nonneg zero_le_two _)
  calc (mantissa : ℚ) * 2 ^ placeOf x ≤ m * 2 ^ placeOf x :=
        mul_le_mul_of_nonneg_right (Nat.cast_le.mpr (hnearest.ge_of_ge hscaled))
          (zpow_nonneg zero_le_two _)
    _ = k := by rw [← hm, mul_zpow_neg_mul]

/-- A natural number of fewer bits than a mantissa has is not passed from above. -/
theorem natCast_le (h : IsRounding x y) {k : ℕ} (hpos : 0 < k) (hk : k ≤ x) (hbits : k ≤ 2 ^ 52) : k ≤ y := by
  have hone : 1 ≤ x := (Nat.one_le_cast.mpr hpos).trans hk
  rcases lt_or_ge x (2 ^ 53) with hx | hx
  · obtain ⟨mantissa, hnearest, rfl⟩ := h
    obtain ⟨m, hm⟩ := exists_natCast_eq_mul (placeOf_nonpos (by linarith) hx) k
    rw [zpow_zero, mul_one] at hm
    have hscaled : m ≤ x * 2 ^ (-placeOf x) :=
      hm ▸ mul_le_mul_of_nonneg_right hk (zpow_nonneg zero_le_two _)
    calc (k : ℚ) = m * 2 ^ placeOf x := by rw [← hm, mul_zpow_neg_mul]
      _ ≤ mantissa * 2 ^ placeOf x :=
          mul_le_mul_of_nonneg_right (Nat.cast_le.mpr (hnearest.le_of_le hscaled))
            (zpow_nonneg zero_le_two _)
  · -- farther off the error is less than the distance
    have herror := (abs_le.mp (h.abs_sub_le_of_one_le hone)).1
    have hbits' : (k : ℚ) ≤ 2 ^ 52 := by exact_mod_cast hbits
    linarith

/-- One is not passed from above. -/
theorem one_le (h : IsRounding x y) (hx : 1 ≤ x) : 1 ≤ y := by
  have hone : ((1 : ℕ) : ℚ) ≤ y := h.natCast_le Nat.one_pos (by rwa [Nat.cast_one]) (by decide)
  rwa [Nat.cast_one] at hone

/-- The result is a double, unless the number exceeds all of them. -/
theorem exists_isDouble (h : IsRounding x y) (hpos : 0 < x) (hgreatest : x ≤ greatest) :
    ∃ d : Magnitude, d.IsDouble ∧ y = d.value := by
  obtain ⟨mantissa, hnearest, rfl⟩ := h
  obtain ⟨d, hd, hvalue, -⟩ := exists_double hpos hgreatest hnearest
  exact ⟨d, hd, hvalue.symm⟩

section Division

variable {n q units : ℕ} {e : ℤ}

/-- When a double is divided by a multiple of its last place, the rounding of the quotient does not reach
the next whole number: up to there it is one unit of the last place at least, which is more than the
error. -/
theorem floor_div (hn : n < 2 ^ 53) (hunits : (q : ℚ) = units * 2 ^ e)
    (h : IsRounding (n * 2 ^ e / q) y) (hone : 1 ≤ (n : ℚ) * 2 ^ e / q)
    (hbits : (n : ℚ) * 2 ^ e / q ≤ 2 ^ 52) : ⌊y⌋₊ = ⌊(n : ℚ) * 2 ^ e / q⌋₊ := by
  have hpow : (0 : ℚ) < 2 ^ e := zpow_pos zero_lt_two _
  have hq : (0 : ℚ) < q := by
    by_contra hzero
    rw [le_antisymm (not_lt.mp hzero) (Nat.cast_nonneg q), div_zero] at hone
    exact absurd hone (by norm_num)
  generalize hm : ⌊(n : ℚ) * 2 ^ e / q⌋₊ = m
  obtain ⟨hle, hlt⟩ := (Nat.floor_eq_iff (zero_le_one.trans hone)).mp hm
  have hmpos : 0 < m := hm ▸ Nat.floor_pos.mpr hone
  have hmy : m ≤ y := h.natCast_le hmpos hle (by exact_mod_cast hle.trans hbits)
  refine (Nat.floor_eq_iff ((Nat.cast_nonneg m).trans hmy)).mpr ⟨hmy, ?_⟩
  have hnext : (n : ℚ) + 1 ≤ units * (m + 1) := by
    rw [div_lt_iff₀ hq, hunits, ← mul_assoc, mul_comm ((m : ℚ) + 1)] at hlt
    exact_mod_cast lt_of_mul_lt_mul_right hlt hpow.le
  have hunit : (n : ℚ) / 2 ^ 53 < 1 := by
    rw [div_lt_one (by positivity)]
    exact_mod_cast hn
  have herror := (abs_le.mp (h.abs_sub_le_of_one_le hone)).2
  calc y ≤ n * 2 ^ e / q + n * 2 ^ e / q / 2 ^ 53 := by linarith
    _ = (n + n / 2 ^ 53) * 2 ^ e / q := by ring
    _ < units * (m + 1) * 2 ^ e / q := by
        gcongr
        linarith
    _ = m + 1 := by
        rw [mul_right_comm, ← hunits, mul_div_cancel_left₀ _ hq.ne']

/-- What is left of a double behind multiples of its last place is a double. -/
theorem eq_sub_mul (hn : n < 2 ^ 53) (hleast : leastExponent ≤ e) (hunits : (q : ℚ) = units * 2 ^ e) {m : ℕ}
    (h : IsRounding (n * 2 ^ e - m * q) y) (hpos : 0 < (n : ℚ) * 2 ^ e - m * q) :
    y = n * 2 ^ e - m * q := by
  have hpow : (0 : ℚ) < 2 ^ e := zpow_pos zero_lt_two _
  have hlt : m * units < n := by
    rw [sub_pos, hunits, ← mul_assoc] at hpos
    exact_mod_cast lt_of_mul_lt_mul_right hpos hpow.le
  refine h.eq_of_double (n := n - m * units) ?_ (by omega) hleast hpos
  rw [Nat.cast_sub hlt.le, hunits]
  push_cast
  ring

end Division

end IsRounding

end Double

end StackBytecode.Number
