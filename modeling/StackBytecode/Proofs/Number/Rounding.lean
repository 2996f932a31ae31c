import Mathlib.Algebra.Group.Nat.Even
import Mathlib.Tactic.FieldSimp
import Mathlib.Tactic.Linarith
import Mathlib.Tactic.NormNum
import StackBytecode.Proofs.Number.Ratio

/-!
# Rounding to significant digits

What it is to be the nearest integer, a half going to the even one, and to be the digits of a number
that is rounded to a count of significant digits: said of rational numbers, without quotients. Each
determines what it describes, and rounding a quotient gives what is described.

A number may be rounded up to a power of ten, which has one digit more. Its digits are then those of
the power and its exponent is greater. The same digits come out when the number is rounded again with
the decimal places that belong to the greater exponent, since it lies next to the power.
-/

namespace StackBytecode.Number

/-- The natural number nearest to a rational one; of two that are as near, the even one. -/
def IsNearestEven (x : ℚ) (n : ℕ) : Prop := |x - n| < 1 / 2 ∨ (|x - n| = 1 / 2 ∧ Even n)

/-- A positive number rounded to `count` significant decimal digits: the digits as one number with as
many digits, and the exponent of the first of them. -/
def IsSignificant (count : ℕ) (q : ℚ) (digits : ℕ) (exponent : ℤ) : Prop :=
  ∃ (k : ℤ) (n : ℕ), ((10 : ℚ) ^ k ≤ q ∧ q < 10 ^ (k + 1)) ∧
    IsNearestEven (q * 10 ^ ((count : ℤ) - 1 - k)) n ∧
    ((n < 10 ^ count ∧ digits = n ∧ exponent = k) ∨
      (n = 10 ^ count ∧ digits = 10 ^ (count - 1) ∧ exponent = k + 1))

/-! ## The nearest natural number -/

/-- A number is no farther than a half from the nearest natural number. -/
theorem IsNearestEven.abs_sub_le {x : ℚ} {n : ℕ} (h : IsNearestEven x n) : |x - n| ≤ 1 / 2 := by
  rcases h with h | ⟨h, -⟩
  · exact h.le
  · exact h.le

/-- There is one nearest natural number. -/
theorem IsNearestEven.unique {x : ℚ} {n m : ℕ} (hn : IsNearestEven x n) (hm : IsNearestEven x m) :
    n = m := by
  wlog hle : n ≤ m generalizing n m
  · exact (this hm hn (Nat.le_of_not_le hle)).symm
  by_contra hne
  have hlt : (n : ℚ) + 1 ≤ m := by exact_mod_cast Nat.lt_of_le_of_ne hle hne
  obtain ⟨-, hxn⟩ := abs_le.mp hn.abs_sub_le
  obtain ⟨hxm, -⟩ := abs_le.mp hm.abs_sub_le
  -- the two can only be neighbours, with the number halfway between them
  have hnext : m = n + 1 := by
    have : (m : ℚ) = n + 1 := by linarith
    exact_mod_cast this
  have hevenN : Even n := by
    rcases hn with hn | ⟨-, hn⟩
    · have := (abs_lt.mp hn).2
      linarith
    · exact hn
  have hevenM : Even m := by
    rcases hm with hm | ⟨-, hm⟩
    · have := (abs_lt.mp hm).1
      linarith
    · exact hm
  rw [hnext, Nat.even_add_one] at hevenM
  exact hevenM hevenN

/-- A greater number is not rounded to a smaller one. -/
theorem IsNearestEven.mono {x y : ℚ} {n m : ℕ} (hn : IsNearestEven x n) (hm : IsNearestEven y m)
    (hle : x ≤ y) : n ≤ m := by
  by_contra hlt
  have hnext : (m : ℚ) + 1 ≤ n := by exact_mod_cast Nat.lt_of_not_le hlt
  have hx := (abs_le.mp hn.abs_sub_le).1
  have hy := (abs_le.mp hm.abs_sub_le).2
  obtain rfl : x = y := by linarith
  exact hlt (hn.unique hm).le

/-- A number above a natural number is not rounded below it. -/
theorem IsNearestEven.le_of_le {x : ℚ} {n bound : ℕ} (h : IsNearestEven x n) (hx : bound ≤ x) :
    bound ≤ n := by
  have hlow := (abs_le.mp h.abs_sub_le).2
  have : (bound : ℚ) < n + 1 := by linarith
  exact Nat.lt_succ_iff.mp (by exact_mod_cast this)

/-- A number below a natural number is not rounded above it. -/
theorem IsNearestEven.ge_of_ge {x : ℚ} {n bound : ℕ} (h : IsNearestEven x n) (hx : x ≤ bound) :
    n ≤ bound := by
  have hhigh := (abs_le.mp h.abs_sub_le).1
  have : (n : ℚ) < bound + 1 := by linarith
  exact Nat.lt_succ_iff.mp (by exact_mod_cast this)

/-- A number is rounded below an even number unless it is halfway to it or nearer. -/
theorem IsNearestEven.lt_iff_of_even {x : ℚ} {n bound : ℕ} (h : IsNearestEven x n) (hbound : Even bound) :
    n < bound ↔ x < bound - 1 / 2 := by
  obtain ⟨hlow, hhigh⟩ := abs_le.mp h.abs_sub_le
  constructor
  · intro hlt
    have hle : (n : ℚ) + 1 ≤ bound := by exact_mod_cast hlt
    refine lt_of_le_of_ne (by linarith) fun hhalf => ?_
    -- halfway from the number below, which is odd
    have hnext : bound = n + 1 := by
      have : (bound : ℚ) = n + 1 := by linarith
      exact_mod_cast this
    have heven : Even n := by
      rcases h with h | ⟨-, h⟩
      · have := (abs_lt.mp h).2
        linarith
      · exact h
    rw [hnext, Nat.even_add_one] at hbound
    exact hbound heven
  · intro hlt
    have : (n : ℚ) < bound := by linarith
    exact_mod_cast this

/-- A number that is rounded in units differs from the rounded one by half a unit at most. -/
theorem IsNearestEven.abs_sub_mul_le {x unit : ℚ} {n : ℕ} (h : IsNearestEven (x * unit⁻¹) n)
    (hunit : 0 < unit) : |x - n * unit| ≤ unit / 2 := by
  have hx : x - n * unit = (x * unit⁻¹ - n) * unit := by rw [sub_mul, inv_mul_cancel_right₀ hunit.ne']
  rw [hx, abs_mul, abs_of_pos hunit]
  calc |x * unit⁻¹ - n| * unit ≤ 1 / 2 * unit := mul_le_mul_of_nonneg_right h.abs_sub_le hunit.le
    _ = unit / 2 := one_div_mul_eq_div 2 unit

/-- Rounding a quotient gives the nearest natural number. -/
theorem isNearestEven_roundDiv (num : ℕ) {den : ℕ} (hden : 0 < den) :
    IsNearestEven ((num : ℚ) / den) (roundDiv num den) := by
  have hden' : (0 : ℚ) < den := Nat.cast_pos.mpr hden
  have hvalue : (num : ℚ) / den = (num / den : ℕ) + ((num % den : ℕ) : ℚ) / den := by
    rw [div_eq_iff hden'.ne', add_mul, div_mul_cancel₀ _ hden'.ne']
    exact_mod_cast (Nat.div_add_mod' num den).symm
  have hrest : (0 : ℚ) ≤ ((num % den : ℕ) : ℚ) / den := by positivity
  have hlow : ((num % den : ℕ) : ℚ) / den < 1 / 2 ↔ 2 * (num % den) < den := by
    rw [div_lt_div_iff₀ hden' two_pos, one_mul, mul_comm]
    exact_mod_cast Iff.rfl
  have hhigh : 1 / 2 < ((num % den : ℕ) : ℚ) / den ↔ den < 2 * (num % den) := by
    rw [div_lt_div_iff₀ two_pos hden', one_mul, mul_comm _ (2 : ℚ)]
    exact_mod_cast Iff.rfl
  have hone : ((num % den : ℕ) : ℚ) / den < 1 := by
    rw [div_lt_one hden']
    exact_mod_cast Nat.mod_lt num hden
  rw [roundDiv, hvalue]
  generalize ((num % den : ℕ) : ℚ) / den = rest at hrest hlow hhigh hone
  generalize num / den = quotient
  split
  case isTrue h =>
    rw [IsNearestEven, add_sub_cancel_left, abs_of_nonneg hrest]
    exact .inl (hlow.mpr h)
  case isFalse hnot =>
    have hge : 1 / 2 ≤ rest := not_lt.mp fun h => hnot (hlow.mp h)
    split
    case isTrue h =>
      have habove := hhigh.mpr h
      left
      rw [Nat.cast_add_one, abs_lt]
      constructor <;> linarith
    case isFalse hnot' =>
      have hhalf : rest = 1 / 2 := le_antisymm (not_lt.mp fun h => hnot' (hhigh.mp h)) hge
      right
      rcases Nat.even_or_odd quotient with heven | hodd
      · rw [Nat.even_iff.mp heven, Nat.add_zero, add_sub_cancel_left, hhalf, abs_of_pos (by norm_num)]
        exact ⟨rfl, heven⟩
      · rw [Nat.odd_iff.mp hodd, Nat.cast_add_one, hhalf, Nat.even_add_one, Nat.not_even_iff_odd]
        refine ⟨?_, hodd⟩
        rw [add_sub_add_left_eq_sub, abs_of_neg (by norm_num)]
        norm_num

/-- Rounding a quotient gives the natural number that is nearest to what the quotient stands for. -/
theorem Ratio.isNearestEven_round {r : Ratio} (hden : 0 < r.den) : IsNearestEven r.value r.round :=
  isNearestEven_roundDiv r.num hden

/-! ## Significant digits -/

namespace IsSignificant

variable {count digits : ℕ} {q : ℚ} {exponent : ℤ}

/-- A number is at least a power of ten if it is one with its point moved to the right. -/
theorem le_scaled_iff {places : ℕ} {shift k : ℤ} (h : shift = places - k) :
    (10 : ℚ) ^ places ≤ q * 10 ^ shift ↔ 10 ^ k ≤ q := by
  have hpower : (10 : ℚ) ^ places = 10 ^ k * 10 ^ shift := by
    rw [← zpow_add₀ (by norm_num), ← zpow_natCast, h, add_sub_cancel]
  rw [hpower, mul_le_mul_iff_left₀ (zpow_pos (by norm_num) _)]

/-- The digits of a number, as many as are counted, with the last of them at the place of the units. -/
theorem scaled_bounds {k : ℤ} (hcount : 0 < count) :
    ((10 : ℚ) ^ k ≤ q ∧ q < 10 ^ (k + 1)) ↔
      ((10 ^ (count - 1) : ℕ) : ℚ) ≤ q * 10 ^ ((count : ℤ) - 1 - k) ∧
        q * 10 ^ ((count : ℤ) - 1 - k) < (10 ^ count : ℕ) := by
  have hlow : (10 : ℚ) ^ (count - 1) ≤ q * 10 ^ ((count : ℤ) - 1 - k) ↔ 10 ^ k ≤ q :=
    le_scaled_iff (by omega)
  have hhigh : (10 : ℚ) ^ count ≤ q * 10 ^ ((count : ℤ) - 1 - k) ↔ 10 ^ (k + 1) ≤ q :=
    le_scaled_iff (by omega)
  rw [Nat.cast_pow, Nat.cast_pow, Nat.cast_ofNat, hlow, ← not_le, ← not_le, hhigh]

/-- The power with as many zeros as digits are counted has one digit more. -/
theorem pow_eq_pow_pred_mul (hcount : 0 < count) : (10 : ℚ) ^ count = 10 ^ (count - 1) * 10 := by
  rw [← pow_succ, Nat.sub_add_cancel hcount]

/-- A number whose first digit has a smaller exponent is moved to the right by one place more. -/
theorem scaled_pred (count : ℕ) (q : ℚ) (k : ℤ) :
    q * 10 ^ ((count : ℤ) - 1 - (k - 1)) = q * 10 ^ ((count : ℤ) - 1 - k) * 10 := by
  rw [mul_assoc, ← zpow_add_one₀ (by norm_num)]
  congr 2
  omega

/-- There are as many digits as are counted. -/
theorem bounds (h : IsSignificant count q digits exponent) (hcount : 0 < count) :
    10 ^ (count - 1) ≤ digits ∧ digits < 10 ^ count := by
  obtain ⟨k, n, ⟨hlow, hhigh⟩, hnearest, hdigits⟩ := h
  rcases hdigits with ⟨hlt, rfl, -⟩ | ⟨-, rfl, -⟩
  · exact ⟨hnearest.le_of_le ((scaled_bounds hcount).mp ⟨hlow, hhigh⟩).1, hlt⟩
  · exact ⟨Nat.le_refl _, Nat.pow_lt_pow_right (by decide) (Nat.sub_lt hcount Nat.one_pos)⟩

/-- The digits are those of the number rounded at the place of the last of them, also when the first one
only came from rounding. -/
theorem isNearestEven (h : IsSignificant count q digits exponent) (hcount : 0 < count) :
    IsNearestEven (q * 10 ^ ((count : ℤ) - 1 - exponent)) digits := by
  obtain ⟨k, n, ⟨hlow, hhigh⟩, hnearest, hdigits⟩ := h
  rcases hdigits with ⟨-, rfl, rfl⟩ | ⟨rfl, rfl, rfl⟩
  · exact hnearest
  · -- ten times farther out, the number is at most a twentieth below the power
    have hscaled := scaled_pred count q (k + 1)
    rw [add_sub_cancel_right] at hscaled
    obtain ⟨hnear, hnear'⟩ := abs_le.mp hnearest.abs_sub_le
    left
    rw [hscaled] at hnear hnear'
    rw [abs_lt]
    push_cast at hnear hnear' ⊢
    rw [pow_eq_pow_pred_mul hcount] at hnear hnear'
    constructor <;> linarith

/-- Only positive numbers have significant digits. -/
theorem pos (h : IsSignificant count q digits exponent) : 0 < q := by
  obtain ⟨k, n, ⟨hlow, -⟩, -⟩ := h
  exact (zpow_pos (by norm_num) k).trans_le hlow

/-- A rounded number differs from the number by half a unit of its last digit at most. -/
theorem abs_sub_le (h : IsSignificant count q digits exponent) (hcount : 0 < count) :
    |q - digits * 10 ^ (exponent - ((count : ℤ) - 1))| ≤ 10 ^ (exponent - ((count : ℤ) - 1)) / 2 := by
  refine IsNearestEven.abs_sub_mul_le ?_ (zpow_pos (by norm_num) _)
  rw [← zpow_neg, neg_sub]
  exact h.isNearestEven hcount

/-- Before a power of ten is normalised, the digits count units of the place that the exponent of the number
gives to the last of them. -/
theorem exists_units (h : IsSignificant count q digits exponent) (hcount : 0 < count) :
    ∃ (k : ℤ) (n : ℕ), ((10 : ℚ) ^ k ≤ q ∧ q < 10 ^ (k + 1)) ∧
      IsNearestEven (q * 10 ^ ((count : ℤ) - 1 - k)) n ∧ 10 ^ (count - 1) ≤ n ∧ n ≤ 10 ^ count ∧
      (digits : ℚ) * 10 ^ (exponent - ((count : ℤ) - 1)) = n * 10 ^ (k - ((count : ℤ) - 1)) := by
  obtain ⟨k, n, hk, hnearest, hdigits⟩ := h
  have hleast := hnearest.le_of_le ((scaled_bounds hcount).mp hk).1
  refine ⟨k, n, hk, hnearest, hleast, ?_⟩
  rcases hdigits with ⟨hlt, rfl, rfl⟩ | ⟨rfl, rfl, rfl⟩
  · exact ⟨hlt.le, rfl⟩
  · refine ⟨Nat.le_refl _, ?_⟩
    push_cast
    rw [pow_eq_pow_pred_mul hcount, add_sub_right_comm, zpow_add_one₀ (by norm_num)]
    ring

/-- A greater number is not rounded to a smaller one. -/
theorem mono (h : IsSignificant count q digits exponent) {q' : ℚ} {digits' : ℕ} {exponent' : ℤ}
    (h' : IsSignificant count q' digits' exponent') (hcount : 0 < count) (hle : q ≤ q') :
    (digits : ℚ) * 10 ^ (exponent - ((count : ℤ) - 1)) ≤ digits' * 10 ^ (exponent' - ((count : ℤ) - 1)) := by
  obtain ⟨k, n, ⟨hlow, hhigh⟩, hnearest, hleast, hmost, hunits⟩ := h.exists_units hcount
  obtain ⟨k', n', ⟨hlow', hhigh'⟩, hnearest', hleast', hmost', hunits'⟩ := h'.exists_units hcount
  have hten (j : ℤ) : (0 : ℚ) < 10 ^ j := zpow_pos (by norm_num) j
  rw [hunits, hunits']
  have hk : k < k' + 1 := (zpow_lt_zpow_iff_right₀ (by norm_num)).mp ((hlow.trans hle).trans_lt hhigh')
  rcases Int.lt_or_eq_of_le (Int.lt_add_one_iff.mp hk) with hlt | rfl
  · -- a power of ten lies between the two
    have hpower (places : ℕ) (j e : ℤ) (he : e = places + j) : (10 : ℚ) ^ places * 10 ^ j = 10 ^ e := by
      rw [he, zpow_add₀ (by norm_num), zpow_natCast]
    calc (n : ℚ) * 10 ^ (k - ((count : ℤ) - 1)) ≤ 10 ^ count * 10 ^ (k - ((count : ℤ) - 1)) :=
          mul_le_mul_of_nonneg_right (by exact_mod_cast hmost) (hten _).le
      _ = 10 ^ (k + 1) := hpower _ _ _ (by omega)
      _ ≤ 10 ^ k' := zpow_le_zpow_right₀ (by norm_num) hlt
      _ = 10 ^ (count - 1) * 10 ^ (k' - ((count : ℤ) - 1)) := (hpower _ _ _ (by omega)).symm
      _ ≤ n' * 10 ^ (k' - ((count : ℤ) - 1)) :=
          mul_le_mul_of_nonneg_right (by exact_mod_cast hleast') (hten _).le
  · have hscaled := mul_le_mul_of_nonneg_right hle (hten ((count : ℤ) - 1 - k)).le
    exact mul_le_mul_of_nonneg_right (by exact_mod_cast hnearest.mono hnearest' hscaled) (hten _).le

/-- A number has one rounding to significant digits. -/
theorem unique (h : IsSignificant count q digits exponent) {digits' : ℕ} {exponent' : ℤ}
    (h' : IsSignificant count q digits' exponent') : digits = digits' ∧ exponent = exponent' := by
  obtain ⟨k, n, ⟨hlow, hhigh⟩, hnearest, hdigits⟩ := h
  obtain ⟨k', n', ⟨hlow', hhigh'⟩, hnearest', hdigits'⟩ := h'
  have hle : k < k' + 1 := (zpow_lt_zpow_iff_right₀ (by norm_num)).mp (hlow.trans_lt hhigh')
  have hle' : k' < k + 1 := (zpow_lt_zpow_iff_right₀ (by norm_num)).mp (hlow'.trans_lt hhigh)
  obtain rfl : k = k' := by omega
  obtain rfl : n = n' := hnearest.unique hnearest'
  rcases hdigits with ⟨hlt, rfl, rfl⟩ | ⟨heq, rfl, rfl⟩
  · rcases hdigits' with ⟨-, rfl, rfl⟩ | ⟨heq', -, -⟩
    · exact ⟨rfl, rfl⟩
    · omega
  · rcases hdigits' with ⟨hlt', -, -⟩ | ⟨-, rfl, rfl⟩
    · omega
    · exact ⟨rfl, rfl⟩

/-- A number that is close enough to one with so many digits is rounded to that one, also when it lies
below a power of ten and has one digit less before rounding. -/
theorem of_abs_sub_lt (hcount : 0 < count) (hleast : 10 ^ (count - 1) ≤ digits) (hlt : digits < 10 ^ count)
    (h : |q * 10 ^ ((count : ℤ) - 1 - exponent) - digits| < 1 / 20) :
    IsSignificant count q digits exponent := by
  obtain ⟨hnear, hnear'⟩ := abs_lt.mp h
  have hleast' : ((10 ^ (count - 1) : ℕ) : ℚ) ≤ digits := by exact_mod_cast hleast
  have hlt' : (digits : ℚ) + 1 ≤ (10 ^ count : ℕ) := by exact_mod_cast hlt
  rcases le_or_gt ((10 ^ (count - 1) : ℕ) : ℚ) (q * 10 ^ ((count : ℤ) - 1 - exponent)) with hge | hbelow
  · refine ⟨exponent, digits, (scaled_bounds hcount).mpr ⟨hge, by linarith⟩, .inl ?_, .inl ⟨hlt, rfl, rfl⟩⟩
    rw [abs_lt]
    constructor <;> linarith
  · -- the digits are those of the power, and before rounding the number has one place more
    have hdigits : digits = 10 ^ (count - 1) := by
      have : (digits : ℚ) < (10 ^ (count - 1) : ℕ) + 1 := by linarith
      exact Nat.le_antisymm (Nat.lt_succ_iff.mp (by exact_mod_cast this)) hleast
    have hpower : ((10 ^ count : ℕ) : ℚ) = (10 ^ (count - 1) : ℕ) * 10 := by
      exact_mod_cast pow_eq_pow_pred_mul hcount
    have hone : (1 : ℚ) ≤ (10 ^ (count - 1) : ℕ) := by exact_mod_cast Nat.one_le_pow' _ _
    rw [hdigits] at hnear
    refine ⟨exponent - 1, 10 ^ count, (scaled_bounds hcount).mpr ?_, .inl ?_,
      .inr ⟨rfl, hdigits, (sub_add_cancel exponent 1).symm⟩⟩
    · rw [scaled_pred, hpower]
      constructor <;> linarith
    · rw [scaled_pred, hpower, abs_lt]
      constructor <;> linarith

end IsSignificant

/-- A positive quotient is rounded to significant digits. -/
theorem Ratio.isSignificant_significant {r : Ratio} (hnum : 0 < r.num) (hden : 0 < r.den) {count : ℕ}
    (hcount : 0 < count) : IsSignificant count r.value (r.significant count).1 (r.significant count).2 := by
  have hlow : (10 : ℚ) ^ Int.log 10 r.value ≤ r.value :=
    Int.zpow_log_le_self (by decide) (value_pos hnum hden)
  have hhigh : r.value < 10 ^ (Int.log 10 r.value + 1) := Int.lt_zpow_succ_log_self (by decide) r.value
  have hscaled : 0 < (r.mulPow 10 ((count : ℤ) - 1 - Int.log 10 r.value)).den :=
    den_mulPow_pos (by decide) hden _
  have hround := isNearestEven_round hscaled
  rw [value_mulPow, Nat.cast_ofNat] at hround
  have hle := hround.ge_of_ge ((IsSignificant.scaled_bounds hcount).mp ⟨hlow, hhigh⟩).2.le
  refine ⟨_, _, ⟨hlow, hhigh⟩, hround, ?_⟩
  rw [significant, exponentTen_eq_log hnum hden]
  split
  case isTrue heq => exact .inr ⟨heq, rfl, rfl⟩
  case isFalse hne => exact .inl ⟨lt_of_le_of_ne hle hne, rfl, rfl⟩

end StackBytecode.Number
