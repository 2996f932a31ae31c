import StackBytecode.Proofs.Number.Exact
import StackBytecode.Proofs.Number.Notation

/-!
# The text of a value is a rounded number

A value is shown as its exact number, rounded to six significant digits, in plain notation or with an
exponent. The text is computed by rounding twice: in scientific notation, which tells the exponent, and
again with the decimal places that belong to this exponent. The second rounding gives the digits of the
first one, also when these are those of a power of ten that the number does not reach.
-/

namespace StackBytecode

namespace Number

/-- The quotient of a magnitude stands for its rational number. -/
theorem Magnitude.value_ratio (d : Magnitude) : d.ratio.value = d.value := by
  rw [ratio, Ratio.value_mulPow, Ratio.value_natCast, Nat.cast_two, value]

theorem Magnitude.den_ratio_pos (d : Magnitude) : 0 < d.ratio.den :=
  Ratio.den_mulPow_pos Nat.two_pos Nat.one_pos d.exponent

theorem Magnitude.num_ratio_pos {d : Magnitude} (h : d.value ≠ 0) : 0 < d.ratio.num := by
  refine Ratio.num_mulPow_pos Nat.two_pos (Nat.pos_of_ne_zero fun hzero => h ?_) d.exponent
  dsimp only at hzero
  rw [value, hzero, Nat.cast_zero, zero_mul]

theorem Magnitude.num_ratio_eq_zero {d : Magnitude} (h : d.value = 0) : d.ratio.num = 0 := by
  by_contra hne
  have hpos := Ratio.value_pos (Nat.pos_of_ne_zero hne) d.den_ratio_pos
  rw [d.value_ratio, h] at hpos
  exact lt_irrefl 0 hpos

/-- A quotient is rounded to the significant digits and the exponent that it has. -/
theorem IsSignificant.significant_eq {r : Ratio} {count digits : ℕ} {exponent : ℤ}
    (h : IsSignificant count r.value digits exponent) (hnum : 0 < r.num) (hden : 0 < r.den)
    (hcount : 0 < count) : r.significant count = (digits, exponent) :=
  Prod.ext_iff.mpr ((Ratio.isSignificant_significant hnum hden hcount).unique h)

/-- With the decimal places that its exponent leaves, a quotient is rounded to its significant digits. -/
theorem IsSignificant.round_mulPow {r : Ratio} {count digits : ℕ} {exponent : ℤ}
    (h : IsSignificant count r.value digits exponent) (hden : 0 < r.den) (hcount : 0 < count) :
    (r.mulPow 10 ((count : ℤ) - 1 - exponent)).round = digits := by
  have hscaled : 0 < (r.mulPow 10 ((count : ℤ) - 1 - exponent)).den :=
    Ratio.den_mulPow_pos (by decide) hden _
  have hround := Ratio.isNearestEven_round hscaled
  rw [Ratio.value_mulPow, Nat.cast_ofNat] at hround
  exact hround.unique (h.isNearestEven hcount)

/-- A magnitude that is not zero has significant digits. -/
theorem Magnitude.exists_isSignificant {m : Magnitude} (h : m.value ≠ 0) {count : ℕ} (hcount : 0 < count) :
    ∃ digits exponent, IsSignificant count m.value digits exponent :=
  ⟨_, _, m.value_ratio ▸ Ratio.isSignificant_significant (num_ratio_pos h) m.den_ratio_pos hcount⟩

/-- The mantissa of a positive quotient is written from its significant digits. -/
theorem IsSignificant.scientific_eq {r : Ratio} {places digits : ℕ} {exponent : ℤ}
    (h : IsSignificant (places + 1) r.value digits exponent) (hnum : 0 < r.num) (hden : 0 < r.den) :
    r.scientific places = (Ratio.fixed ⟨digits, Nat.pow 10 places⟩ places, exponent) := by
  rw [Ratio.scientific, if_neg hnum.ne', h.significant_eq hnum hden (Nat.succ_pos places)]

/-- A natural number of units of a decimal place is written out as it is. -/
theorem trimFraction_fixed_units (n places : ℕ) :
    trimFraction (Ratio.fixed ⟨n, Nat.pow 10 places⟩ places) = plainText n places := by
  have hround : (Ratio.mulPow ⟨n, Nat.pow 10 places⟩ 10 places).round = n :=
    roundDiv_mul_right n (Nat.pow_pos (by decide))
  rw [trimFraction_fixed, hround]

end Number

namespace Value

open Number

/-- The exponent that scientific notation tells decides how the text goes on. -/
theorem magnitudeText_of_scientific {m : Magnitude} {mantissa : List Char} {exponent : ℤ}
    (h : m.ratio.scientific 5 = (mantissa, exponent)) :
    magnitudeText m =
      if -4 ≤ exponent ∧ exponent ≤ 5 then
        plainText (m.ratio.mulPow 10 (5 - exponent).toNat).round (5 - exponent).toNat
      else trimFraction mantissa ++ 'e' :: textLayout.exponentPart exponent := by
  rw [← trimFraction_fixed, magnitudeText, textDigits, h]
  rfl

/-- The text of a magnitude is written from its significant digits and their exponent. -/
theorem magnitudeText_of_isSignificant {m : Magnitude} {digits : ℕ} {exponent : ℤ}
    (h : IsSignificant 6 m.value digits exponent) (hne : m.value ≠ 0) :
    magnitudeText m =
      if -4 ≤ exponent ∧ exponent ≤ 5 then plainText digits (5 - exponent).toNat
      else plainText digits 5 ++ 'e' :: textLayout.exponentPart exponent := by
  rw [← m.value_ratio] at h
  rw [magnitudeText_of_scientific (h.scientific_eq (Magnitude.num_ratio_pos hne) m.den_ratio_pos),
    trimFraction_fixed_units]
  split
  case isTrue hrange =>
    have hround := h.round_mulPow m.den_ratio_pos (by decide)
    have hplaces : ((5 - exponent).toNat : ℤ) = (6 : ℕ) - 1 - exponent := by omega
    rw [hplaces, hround]
  case isFalse => rfl

/-- The text of zero. -/
theorem magnitudeText_of_value_eq_zero {m : Magnitude} (h : m.value = 0) : magnitudeText m = ['0'] := by
  have hscientific : m.ratio.scientific 5 = (Ratio.fixed ⟨0, Nat.pow 10 5⟩ 5, 0) := by
    rw [Ratio.scientific, if_pos (Magnitude.num_ratio_eq_zero h)]
  have hround : (m.ratio.mulPow 10 5).round = 0 := by
    refine Ratio.round_of_value_eq (Ratio.den_mulPow_pos (by decide) m.den_ratio_pos 5) ?_
    rw [Ratio.value_mulPow, m.value_ratio, h, zero_mul, Nat.cast_zero]
  rw [magnitudeText_of_scientific hscientific, if_pos (by decide)]
  exact congrArg (plainText · 5) hround

/-- The text of a finite value is that of its magnitude behind its sign. -/
theorem text_of_finite {v : Value} {negative : Bool} {m : Magnitude} (h : v.double = .finite negative m) :
    v.text = String.ofList (signed negative (magnitudeText m)) := by
  rw [text, h]

/-- The text of a finite value is its exact number, rounded to six significant digits, with a sign if it is
negative. The digits and their exponent are those of the rounded number and no others; exponents from -4
to 5 give plain notation, and the others exponent notation. Zero has no significant digits. -/
theorem text_correctly_rounded (v : Value) {negative : Bool} {m : Magnitude}
    (h : v.double = .finite negative m) :
    ∃ body, v.text.toList = signed negative body ∧ (m.value = 0 → body = ['0']) ∧
      (m.value ≠ 0 → ∃ (digits : ℕ) (exponent : ℤ), 100000 ≤ digits ∧ digits ≤ 999999 ∧
        (∀ d e, IsSignificant 6 m.value d e ↔ d = digits ∧ e = exponent) ∧
        if -4 ≤ exponent ∧ exponent ≤ 5 then PlainNotation body (digits * 10 ^ (exponent - 5))
        else ExponentNotation body (digits / 10 ^ 5) exponent) := by
  refine ⟨magnitudeText m, ?_, magnitudeText_of_value_eq_zero, fun hne => ?_⟩
  · rw [text_of_finite h, String.toList_ofList]
  obtain ⟨digits, exponent, hshown⟩ := Magnitude.exists_isSignificant hne (show 0 < 6 by decide)
  obtain ⟨hleast, hgreatest⟩ := hshown.bounds (by decide)
  refine ⟨digits, exponent, hleast, Nat.le_of_lt_succ hgreatest,
    fun d e => ⟨fun hd => hd.unique hshown, ?_⟩, ?_⟩
  · rintro ⟨rfl, rfl⟩
    exact hshown
  rw [magnitudeText_of_isSignificant hshown hne]
  split
  case isTrue hrange =>
    have hplain := plainNotation_plainText digits (5 - exponent).toNat
    rw [← zpow_natCast, Int.toNat_of_nonneg (by omega), div_eq_mul_inv, ← zpow_neg, neg_sub] at hplain
    exact hplain
  case isFalse =>
    refine ⟨_, plainNotation_plainText digits 5, ?_⟩
    rw [Layout.exponentPart_eq]
    rfl

/-- A number just below a million, negative, is shown as minus one with the exponent of a million. -/
theorem text_correctly_rounded_carry :
    ∃ body, (ofBits 0xC12E847F66666666).text.toList = '-' :: body ∧ ExponentNotation body 1 6 := by
  have hdouble : (ofBits 0xC12E847F66666666).double = .finite true ⟨8589932015019622, -33⟩ := rfl
  have hvalue : (⟨8589932015019622, -33⟩ : Magnitude).value = 8589932015019622 / 2 ^ 33 := by
    rw [Magnitude.value, zpow_neg, div_eq_mul_inv]
    norm_num
  obtain ⟨body, htext, -, hrounded⟩ := text_correctly_rounded _ hdouble
  obtain ⟨digits, exponent, -, -, hunique, hnotation⟩ := hrounded (by rw [hvalue]; norm_num)
  have hmillion : IsSignificant 6 (⟨8589932015019622, -33⟩ : Magnitude).value 100000 6 := by
    rw [hvalue]
    refine ⟨5, 1000000, ⟨by norm_num, by norm_num⟩, .inl ?_, .inr ⟨rfl, rfl, rfl⟩⟩
    rw [abs_lt]
    norm_num
  obtain ⟨rfl, rfl⟩ := (hunique _ _).mp hmillion
  norm_num at hnotation
  exact ⟨body, htext, hnotation⟩

end Value

end StackBytecode
