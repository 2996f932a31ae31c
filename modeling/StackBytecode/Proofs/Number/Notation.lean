import Mathlib.Data.List.DropRight
import StackBytecode.Proofs.Number.Rounding
import StackBytecode.Proofs.Text.Printed

/-!
# Plain and exponent notation

The two notations of decimal numbers without anything superfluous, said of texts and of the numbers that
they denote: no zero at the end of a fraction, no point without a fraction, no zero in front but the one
that stands for an empty whole. So a number has one text in each of them. A number with a fixed count of
decimal places is in plain notation once its fraction is trimmed.

The decimal places are the last digits of the number that is left when the point is taken away. They are
counted from the right, and the padding on the left is what makes them all there.
-/

namespace StackBytecode.Number

/-- A fraction behind its point, and no point without a fraction. -/
def pointed : List Char → List Char
  | [] => []
  | fraction => '.' :: fraction

/-- Plain decimal notation of a nonnegative number. -/
def PlainNotation (text : List Char) (x : ℚ) : Prop :=
  ∃ (whole : ℕ) (fraction : List Char), text = Nat.toDigits 10 whole ++ pointed fraction ∧
    (∀ c ∈ fraction, c.isDigit = true) ∧ fraction.getLast? ≠ some '0' ∧
    x = whole + (Nat.ofDigitChars 10 fraction 0 : ℚ) / 10 ^ fraction.length

/-- A number in plain notation and a power of ten, the exponent with its sign and at least two digits. -/
def ExponentNotation (text : List Char) (x : ℚ) (exponent : ℤ) : Prop :=
  ∃ mantissa, PlainNotation mantissa x ∧
    text = mantissa ++
      'e' :: (if exponent < 0 then '-' else '+') :: (Nat.toDigits 10 exponent.natAbs).leftpad 2 '0'

/-! ## The last digits -/

/-- The last decimal digits of a natural number, with zeros in front when it has fewer. -/
def lastDigits : ℕ → ℕ → List Char
  | 0, _ => []
  | places + 1, n => lastDigits places (n / 10) ++ [Nat.digitChar (n % 10)]

theorem length_lastDigits (places n : ℕ) : (lastDigits places n).length = places := by
  induction places generalizing n with
  | zero => rfl
  | succ places ih => rw [lastDigits, List.length_append, ih, List.length_singleton]

theorem isDigit_of_mem_lastDigits {places n : ℕ} : ∀ c ∈ lastDigits places n, c.isDigit = true := by
  induction places generalizing n with
  | zero => exact fun c hc => absurd hc List.not_mem_nil
  | succ places ih =>
    intro c hc
    rcases List.mem_append.mp hc with hc | hc
    · exact ih c hc
    · rw [List.mem_singleton.mp hc, Nat.isDigit_digitChar]
      exact decide_eq_true (Nat.mod_lt n (by decide))

/-- The last digits are the rest of a division by a power of ten. -/
theorem ofDigitChars_lastDigits (places n : ℕ) :
    Nat.ofDigitChars 10 (lastDigits places n) 0 = n % 10 ^ places := by
  induction places generalizing n with
  | zero => rw [lastDigits, Nat.ofDigitChars_nil, pow_zero, Nat.mod_one]
  | succ places ih =>
    rw [lastDigits, Nat.ofDigitChars_append, ih,
      Nat.ofDigitChars_cons_digitChar_of_lt_ten (Nat.mod_lt n (by decide)), Nat.ofDigitChars_nil, pow_succ',
      Nat.mod_mul, Nat.add_comm]

/-- A digit is written for its own value. -/
theorem digitChar_of_isDigit {c : Char} (h : c.isDigit = true) :
    c.toNat - '0'.toNat < 10 ∧ Nat.digitChar (c.toNat - '0'.toNat) = c := by
  have hrange := toNat_bounds_of_isDigit h
  have hlt : c.toNat - '0'.toNat < 10 := by
    change c.toNat - 48 < 10
    omega
  refine ⟨hlt, Char.toNat_inj.mp ?_⟩
  rw [Nat.toNat_digitChar_of_lt_ten hlt]
  change 48 + (c.toNat - 48) = c.toNat
  omega

/-- Digits are the last ones of the number that they are read as. -/
theorem lastDigits_ofDigitChars {digits : List Char} (h : ∀ c ∈ digits, c.isDigit = true) :
    lastDigits digits.length (Nat.ofDigitChars 10 digits 0) = digits := by
  induction digits using List.reverseRecOn with
  | nil => rfl
  | append_singleton digits c ih =>
    obtain ⟨hlt, hc⟩ := digitChar_of_isDigit (h c (by simp))
    have hrest := ih fun d hd => h d (List.mem_append_left _ hd)
    rw [List.length_append, List.length_singleton, lastDigits, Nat.ofDigitChars_append,
      Nat.ofDigitChars_cons, Nat.ofDigitChars_nil, Nat.mul_add_div (by decide), Nat.mul_add_mod,
      Nat.div_eq_of_lt hlt, Nat.mod_eq_of_lt hlt, Nat.add_zero, hrest, hc]

/-- A fraction is less than one. -/
theorem ofDigitChars_lt {digits : List Char} (h : ∀ c ∈ digits, c.isDigit = true) :
    Nat.ofDigitChars 10 digits 0 < 10 ^ digits.length := by
  have hvalue := ofDigitChars_lastDigits digits.length (Nat.ofDigitChars 10 digits 0)
  rw [lastDigits_ofDigitChars h] at hvalue
  rw [hvalue]
  exact Nat.mod_lt _ (Nat.pow_pos (by decide))

/-- A digit at the end takes one place of the padding. -/
theorem leftpad_succ_append {width : ℕ} {fill c : Char} (text : List Char) :
    (text ++ [c]).leftpad (width + 1) fill = text.leftpad width fill ++ [c] := by
  rw [List.leftpad, List.leftpad, List.length_append, List.length_singleton, Nat.add_sub_add_right,
    List.append_assoc]

/-- A natural number that is padded to more digits than the last ones is the digits of the quotient and
the last digits. -/
theorem leftpad_toDigits (places n : ℕ) :
    (Nat.toDigits 10 n).leftpad (places + 1) '0' =
      Nat.toDigits 10 (n / 10 ^ places) ++ lastDigits places n := by
  induction places generalizing n with
  | zero =>
    have hlength := Nat.length_toDigits_pos (b := 10) (n := n)
    rw [List.leftpad, Nat.sub_eq_zero_of_le hlength, lastDigits, pow_zero, Nat.div_one, List.append_nil]
    rfl
  | succ places ih =>
    rw [lastDigits, pow_succ', ← Nat.div_div_eq_div_mul, ← List.append_assoc, ← ih]
    by_cases hlt : n < 10
    · -- the quotient is zero, which has a digit where the padding of the number has a fill
      rw [Nat.toDigits_of_lt_base hlt, Nat.div_eq_of_lt hlt, Nat.mod_eq_of_lt hlt, Nat.toDigits_zero,
        ← List.nil_append [n.digitChar], leftpad_succ_append, ← List.nil_append ['0'], leftpad_succ_append]
      simp [List.leftpad, List.replicate_succ']
    · rw [Nat.toDigits_eq_if (by decide), if_neg hlt, leftpad_succ_append]

/-! ## One notation for each number -/

/-- A fraction without a zero at its end has no more digits than another one of the same value. -/
theorem length_le_of_value_eq {digits other : List Char} (hother : ∀ c ∈ other, c.isDigit = true)
    (hlast : other.getLast? ≠ some '0')
    (h : Nat.ofDigitChars 10 digits 0 * 10 ^ other.length = Nat.ofDigitChars 10 other 0 * 10 ^ digits.length) :
    other.length ≤ digits.length := by
  by_contra hlt
  obtain ⟨more, hmore⟩ := Nat.exists_eq_add_of_lt (Nat.lt_of_not_le hlt)
  have hvalue : Nat.ofDigitChars 10 other 0 = Nat.ofDigitChars 10 digits 0 * 10 ^ more * 10 := by
    refine Nat.eq_of_mul_eq_mul_right (Nat.pow_pos (n := digits.length) (show 0 < 10 by decide)) ?_
    rw [← h, hmore]
    ring
  have hdigits := lastDigits_ofDigitChars hother
  rw [hmore, lastDigits, hvalue, Nat.mul_mod_left] at hdigits
  rw [← hdigits, List.getLast?_concat] at hlast
  exact hlast rfl

/-- A number has one plain notation. -/
theorem PlainNotation.unique {text other : List Char} {x : ℚ} (h : PlainNotation text x)
    (hother : PlainNotation other x) : text = other := by
  obtain ⟨whole, fraction, rfl, hdigits, hlast, hx⟩ := h
  obtain ⟨whole', fraction', rfl, hdigits', hlast', hx'⟩ := hother
  have hpow (n : ℕ) : (0 : ℚ) < 10 ^ n := by positivity
  have hbounds {digits : List Char} (h : ∀ c ∈ digits, c.isDigit = true) :
      0 ≤ (Nat.ofDigitChars 10 digits 0 : ℚ) / 10 ^ digits.length ∧
        (Nat.ofDigitChars 10 digits 0 : ℚ) / 10 ^ digits.length < 1 := by
    refine ⟨by positivity, (div_lt_one (hpow _)).mpr ?_⟩
    exact_mod_cast ofDigitChars_lt h
  obtain ⟨hlow, hhigh⟩ := hbounds hdigits
  obtain ⟨hlow', hhigh'⟩ := hbounds hdigits'
  obtain rfl : whole = whole' := by
    have hle : (whole : ℚ) < whole' + 1 := by linarith
    have hge : (whole' : ℚ) < whole + 1 := by linarith
    exact Nat.le_antisymm (Nat.lt_succ_iff.mp (by exact_mod_cast hle))
      (Nat.lt_succ_iff.mp (by exact_mod_cast hge))
  have hvalue : Nat.ofDigitChars 10 fraction 0 * 10 ^ fraction'.length =
      Nat.ofDigitChars 10 fraction' 0 * 10 ^ fraction.length := by
    have hfractions := add_left_cancel (hx.symm.trans hx')
    rw [div_eq_div_iff (hpow _).ne' (hpow _).ne'] at hfractions
    exact_mod_cast hfractions
  have hlength := Nat.le_antisymm (length_le_of_value_eq hdigits hlast hvalue.symm)
    (length_le_of_value_eq hdigits' hlast' hvalue)
  rw [hlength] at hvalue
  have hsame := Nat.eq_of_mul_eq_mul_right (Nat.pow_pos (show 0 < 10 by decide)) hvalue
  rw [← lastDigits_ofDigitChars hdigits, ← lastDigits_ofDigitChars hdigits', hsame, hlength]

/-- A number and a power of ten have one exponent notation. -/
theorem ExponentNotation.unique {text other : List Char} {x : ℚ} {exponent : ℤ}
    (h : ExponentNotation text x exponent) (hother : ExponentNotation other x exponent) : text = other := by
  obtain ⟨mantissa, hmantissa, rfl⟩ := h
  obtain ⟨mantissa', hmantissa', rfl⟩ := hother
  rw [hmantissa.unique hmantissa']

/-! ## Trimming -/

/-- Only a zero is trimmed from the end. -/
theorem trimZeros_concat (digits : List Char) (c : Char) :
    trimZeros (digits ++ [c]) = if c = '0' then trimZeros digits else digits ++ [c] := by
  have h := List.rdropWhile_concat (· == '0') digits c
  simp only [beq_iff_eq] at h
  exact h

/-- Without its zeros at the end a fraction has none there. -/
theorem getLast?_trimZeros (digits : List Char) : (trimZeros digits).getLast? ≠ some '0' := by
  induction digits using List.reverseRecOn with
  | nil => simp [trimZeros]
  | append_singleton digits c ih =>
    rw [trimZeros_concat]
    split
    case isTrue => exact ih
    case isFalse hc => rwa [List.getLast?_concat, ne_eq, Option.some.injEq]

/-- A fraction denotes the same without its zeros at the end. -/
theorem ofDigitChars_trimZeros (digits : List Char) :
    (Nat.ofDigitChars 10 (trimZeros digits) 0 : ℚ) / 10 ^ (trimZeros digits).length =
      (Nat.ofDigitChars 10 digits 0 : ℚ) / 10 ^ digits.length := by
  induction digits using List.reverseRecOn with
  | nil => rfl
  | append_singleton digits c ih =>
    rw [trimZeros_concat]
    split
    case isTrue hc =>
      rw [ih, hc, Nat.ofDigitChars_append, Nat.ofDigitChars_cons, Nat.ofDigitChars_nil, Nat.sub_self,
        Nat.add_zero, List.length_append, List.length_singleton, pow_succ, Nat.cast_mul, Nat.cast_ofNat,
        mul_comm (10 : ℚ), mul_div_mul_right _ _ (by norm_num)]
    case isFalse => rfl

/-- Trimming leaves a number without a point as it is. -/
theorem trimFraction_of_isDigit {text : List Char} (h : ∀ c ∈ text, c.isDigit = true) :
    trimFraction text = text := by
  have hpoint : '.' ∉ text := fun hmem => ne_of_isDigit (h '.' hmem) (by decide) rfl
  rw [trimFraction, if_neg (by simpa using hpoint)]

/-- Trimming a number with a point trims its fraction, and takes the point away when nothing is left of
it. -/
theorem trimFraction_append_point {whole digits : List Char} (hwhole : ∀ c ∈ whole, c.isDigit = true)
    (hdigits : ∀ c ∈ digits, c.isDigit = true) :
    trimFraction (whole ++ '.' :: digits) = whole ++ pointed (trimZeros digits) := by
  have hzeros : trimZeros (whole ++ '.' :: digits) = whole ++ '.' :: trimZeros digits := by
    induction digits using List.reverseRecOn with
    | nil => rw [trimZeros_concat, if_neg (by decide)]; rfl
    | append_singleton digits c ih =>
      rw [← List.cons_append, ← List.append_assoc, trimZeros_concat, trimZeros_concat,
        ih fun d hd => hdigits d (List.mem_append_left _ hd)]
      split <;> simp
  have hpoint {text : List Char} (h : ∀ hne : text ≠ [], (text.getLast hne).isDigit = true) :
      text.rdropWhile (· == '.') = text := by
    rw [List.rdropWhile_eq_self_iff]
    intro hne hlast
    exact ne_of_isDigit (h hne) (by decide) (beq_iff_eq.mp hlast)
  rw [trimFraction, if_pos (by simp), hzeros, ← List.rdropWhile]
  cases hrest : trimZeros digits with
  | nil =>
    rw [pointed, List.rdropWhile_concat_pos _ _ _ rfl, List.append_nil]
    exact hpoint fun hne => hwhole _ (List.getLast_mem hne)
  | cons c rest =>
    refine hpoint fun hne => ?_
    rw [List.getLast_append_of_ne_nil _ (List.cons_ne_nil _ _), List.getLast_cons (List.cons_ne_nil _ _)]
    have hlast := List.getLast_mem (List.cons_ne_nil c rest)
    exact hdigits _ (mem_of_mem_trimZeros (by rwa [hrest]))

/-! ## Texts of quotients -/

/-- A number of units of a decimal place, written out without zeros at the end of its fraction. -/
def plainText (n places : ℕ) : List Char :=
  Nat.toDigits 10 (n / 10 ^ places) ++ pointed (trimZeros (lastDigits places n))

/-- A number of units of a decimal place that is written out so is in plain notation. -/
theorem plainNotation_plainText (n places : ℕ) : PlainNotation (plainText n places) (n / 10 ^ places) := by
  refine ⟨_, _, rfl, fun c hc => isDigit_of_mem_lastDigits c (mem_of_mem_trimZeros hc),
    getLast?_trimZeros _, ?_⟩
  have hpow : (0 : ℚ) < 10 ^ places := by positivity
  rw [ofDigitChars_trimZeros, ofDigitChars_lastDigits, length_lastDigits, div_eq_iff hpow.ne', add_mul,
    div_mul_cancel₀ _ hpow.ne']
  exact_mod_cast (Nat.div_add_mod' n (10 ^ places)).symm

/-- A number of units of a decimal place, written out with all its places. -/
def placedText (n places : ℕ) : List Char :=
  Nat.toDigits 10 (n / 10 ^ places) ++ pointed (lastDigits places n)

/-- A quotient with its decimal places is its rounded number of units of the last place. -/
theorem Ratio.fixed_eq (r : Ratio) (places : ℕ) :
    r.fixed places = placedText (r.mulPow 10 places).round places := by
  rw [fixed, placedText]
  generalize (r.mulPow 10 places).round = n
  have hlength : (Nat.toDigits 10 (n / 10 ^ places) ++ lastDigits places n).length - places =
      (Nat.toDigits 10 (n / 10 ^ places)).length := by
    rw [List.length_append, length_lastDigits, Nat.add_sub_cancel]
  rw [leftpad_toDigits, hlength, List.take_left, List.drop_left]
  cases places with
  | zero => exact (List.append_nil _).symm
  | succ places =>
    have hne : lastDigits (places + 1) n ≠ [] := List.ne_nil_of_length_eq_add_one (length_lastDigits _ _)
    obtain ⟨c, rest, hcons⟩ := List.exists_cons_of_ne_nil hne
    rw [if_neg places.succ_ne_zero, hcons]
    rfl

/-- Numbers of units of one decimal place that are written alike are the same. -/
theorem placedText_inj {n m places : ℕ} : placedText n places = placedText m places ↔ n = m := by
  refine ⟨fun h => ?_, fun h => h ▸ rfl⟩
  have hpointed {digits other : List Char} (hlength : digits.length = other.length) :
      (pointed digits).length = (pointed other).length ∧
        (pointed digits = pointed other → digits = other) := by
    cases digits <;> cases other <;> simp_all [pointed]
  obtain ⟨hlength, hinj⟩ := hpointed ((length_lastDigits places n).trans (length_lastDigits places m).symm)
  obtain ⟨hwhole, hfraction⟩ := List.append_inj' h hlength
  have hrest := congrArg (Nat.ofDigitChars 10 · 0) (hinj hfraction)
  simp only [ofDigitChars_lastDigits] at hrest
  rw [← Nat.div_add_mod n (10 ^ places), toDigits_injective hwhole, hrest, Nat.div_add_mod]

/-- A quotient with its decimal places, trimmed, has no zeros at the end of its fraction. -/
theorem trimFraction_fixed (r : Ratio) (places : ℕ) :
    trimFraction (r.fixed places) = plainText (r.mulPow 10 places).round places := by
  have hwhole (n : ℕ) := (isNumeral_iff.mp (isNumeral_toDigits n)).2
  rw [Ratio.fixed_eq, placedText, plainText]
  cases hdigits : lastDigits places (r.mulPow 10 places).round with
  | nil => rw [pointed, List.append_nil, trimFraction_of_isDigit (hwhole _)]; exact (List.append_nil _).symm
  | cons c rest => exact trimFraction_append_point (hwhole _) (hdigits ▸ isDigit_of_mem_lastDigits)

/-- A written exponent is its sign and its digits, with zeros in front up to the least width. -/
theorem Layout.exponentPart_eq (layout : Layout) (exponent : ℤ) :
    layout.exponentPart exponent =
      (if exponent < 0 then '-' else '+') ::
        (Nat.toDigits 10 exponent.natAbs).leftpad layout.exponentWidth '0' := by
  rw [exponentPart, Text.zeroPadded, Text.padLeft, String.toList_ofList, Nat.toList_repr]

end StackBytecode.Number
