import StackBytecode.Proofs.Number.Notation

/-!
# Numbers in plain and in exponent notation are read

A text in one of the two notations is read as a decimal that is exactly the number which the text denotes.
The digits around the point are read as one number, and the point only moves the exponent.
-/

namespace StackBytecode.Number

namespace Literal

/-- Digits are read up to the first character that is none. -/
theorem span_isDigit {digits rest : List Char} (hdigits : ∀ c ∈ digits, c.isDigit = true)
    (hrest : ∀ c ∈ rest.head?, c.isDigit = false) :
    (digits ++ rest).takeWhile Char.isDigit = digits ∧ (digits ++ rest).dropWhile Char.isDigit = rest := by
  rw [List.takeWhile_append_of_pos hdigits, List.dropWhile_append_of_pos hdigits]
  cases rest with
  | nil => exact ⟨List.append_nil digits, rfl⟩
  | cons c rest =>
    have hc : ¬c.isDigit = true := by simp [hrest c rfl]
    rw [List.takeWhile_cons_of_neg hc, List.dropWhile_cons_of_neg hc]
    exact ⟨List.append_nil digits, rfl⟩

/-- The digits of a number in plain notation are read as one number, and its exponent counts those behind
the point down from the exponent that follows. -/
theorem ofDigits?_plain (negative : Bool) {whole : ℕ} {fraction rest : List Char} {exponent : ℤ}
    (hfraction : ∀ c ∈ fraction, c.isDigit = true) (hmark : ∀ c ∈ rest.head?, c = 'e')
    (hrest : readExponent? rest = some exponent) :
    ofDigits? negative (Nat.toDigits 10 whole ++ (pointed fraction ++ rest)) =
      some (.decimal negative (Nat.ofDigitChars 10 (Nat.toDigits 10 whole ++ fraction) 0)
        (exponent - fraction.length)) := by
  have hwhole := (isNumeral_iff.mp (isNumeral_toDigits whole)).2
  have hstop : ∀ c ∈ rest.head?, c.isDigit = false := by
    intro c hc
    rw [hmark c hc]
    decide
  cases fraction with
  | nil =>
    have hpoint : ∀ c ∈ rest.head?, c ≠ '.' := by
      intro c hc
      rw [hmark c hc]
      decide
    obtain ⟨htake, hdrop⟩ := span_isDigit hwhole hstop
    rw [pointed, List.nil_append, ofDigits?, htake, hdrop]
    cases rest with
    | nil => simp [hrest]
    | cons c rest => simp [hpoint c rfl, hrest]
  | cons c fraction =>
    have hpointed : pointed (c :: fraction) ++ rest = '.' :: (c :: fraction ++ rest) := rfl
    have hpoint : ∀ d ∈ ('.' :: (c :: fraction ++ rest)).head?, d.isDigit = false := by
      intro d hd
      rw [← Option.some.inj hd]
      decide
    obtain ⟨htake, hdrop⟩ := span_isDigit hwhole hpoint
    obtain ⟨htake', hdrop'⟩ := span_isDigit hfraction hstop
    rw [hpointed]
    generalize c :: fraction = fraction at *
    simp [ofDigits?, htake, hdrop, htake', hdrop', hrest]

/-- An exponent is read from its sign and its digits, also with a zero in front of them. -/
theorem readExponent?_exponentPart (layout : Layout) {exponent : ℤ} (h : exponent.natAbs < 65536) :
    readExponent? ('e' :: layout.exponentPart exponent) = some exponent := by
  have hnumeral : isNumeral ((Nat.toDigits 10 exponent.natAbs).leftpad layout.exponentWidth '0') = true := by
    refine isNumeral_iff.mpr ⟨by simp [List.leftpad, Nat.toDigits_ne_nil], fun c hc => ?_⟩
    rcases Text.eq_or_mem_of_mem_leftpad hc with rfl | hc
    · decide
    · exact (isNumeral_iff.mp (isNumeral_toDigits _)).2 c hc
  have hvalue : Nat.ofDigitChars 10 ((Nat.toDigits 10 exponent.natAbs).leftpad layout.exponentWidth '0') 0 =
      exponent.natAbs := by
    rw [List.leftpad, Nat.ofDigitChars_append, Nat.ofDigitChars_replicate_zero, Nat.mul_zero,
      Nat.ofDigitChars_toDigits (by decide) (by decide)]
  rw [layout.exponentPart_eq]
  generalize (Nat.toDigits 10 exponent.natAbs).leftpad layout.exponentWidth '0' = digits at hnumeral hvalue
  split
  case isTrue hnegative =>
    have hsplit : splitSign ('-' :: digits) = (true, digits) := rfl
    rw [readExponent?_of_splitSign hsplit hnumeral hvalue h, if_pos rfl]
    exact congrArg some (by omega)
  case isFalse hpositive =>
    have hsplit : splitSign ('+' :: digits) = (false, digits) := rfl
    rw [readExponent?_of_splitSign hsplit hnumeral hvalue h, if_neg Bool.false_ne_true]
    exact congrArg some (by omega)

end Literal

/-- A text in plain notation is read with any exponent behind it. -/
theorem PlainNotation.exists_decimal {text rest : List Char} {x : ℚ} {exponent : ℤ}
    (h : PlainNotation text x) (hmark : ∀ c ∈ rest.head?, c = 'e')
    (hrest : Literal.readExponent? rest = some exponent) :
    ∃ (significand : ℕ) (place : ℤ), (significand : ℚ) * 10 ^ place = x * 10 ^ exponent ∧
      ∀ negative, Literal.ofText? (Value.signed negative (text ++ rest)) =
        some (.decimal negative significand place) := by
  obtain ⟨whole, fraction, rfl, hdigits, -, rfl⟩ := h
  refine ⟨Nat.ofDigitChars 10 (Nat.toDigits 10 whole ++ fraction) 0, exponent - fraction.length, ?_,
    fun negative => ?_⟩
  · have hpow : (10 : ℚ) ^ fraction.length ≠ 0 := by positivity
    rw [Nat.ofDigitChars_append, Nat.ofDigitChars_toDigits (by decide) (by decide),
      Nat.ofDigitChars_eq_ofDigitChars_zero, zpow_sub₀ (by norm_num), zpow_natCast]
    push_cast
    field_simp
  · have hsplit := Literal.splitSign_append negative (isNumeral_toDigits whole) (pointed fraction ++ rest)
    have hsigned : Value.signed negative (Nat.toDigits 10 whole ++ pointed fraction ++ rest) =
        Literal.signText negative ++ (Nat.toDigits 10 whole ++ (pointed fraction ++ rest)) := by
      rw [List.append_assoc]
      cases negative <;> rfl
    rw [Literal.ofText?, hsigned, hsplit]
    dsimp only
    rw [Literal.ofDigits?_plain negative hdigits hmark hrest, Option.some_or]

end StackBytecode.Number
