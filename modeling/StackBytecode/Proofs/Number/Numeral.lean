import StackBytecode.Number.Literal
import StackBytecode.Proofs.Text.Words

/-!
# Numerals and literals read back

The decimal digits of a natural number are read as that number, and a literal that is
written with a whole significand and an exponent is read as itself. Neither text contains
anything that would end a word.
-/

namespace StackBytecode.Number

/-- A numeral is a nonempty row of digits. -/
theorem isNumeral_iff {text : List Char} :
    isNumeral text = true ↔ text ≠ [] ∧ ∀ c ∈ text, c.isDigit = true := by
  simp [isNumeral]

/-- A digit is none of the other characters. -/
theorem ne_of_isDigit {c d : Char} (hc : c.isDigit = true) (hd : d.isDigit = false) : c ≠ d := by
  intro h
  rw [h, hd] at hc
  cases hc

/-- The decimal digits of a natural number are a numeral. -/
theorem isNumeral_toDigits (n : Nat) : isNumeral (Nat.toDigits 10 n) = true :=
  isNumeral_iff.mpr ⟨Nat.toDigits_ne_nil,
    fun _ hc => Nat.isDigit_of_mem_toDigits (by decide) (by decide) hc⟩

/-- A numeral begins with a digit. -/
theorem exists_cons_of_isNumeral {text : List Char} (h : isNumeral text = true) :
    ∃ c rest, text = c :: rest ∧ c.isDigit = true := by
  obtain ⟨hne, hdigits⟩ := isNumeral_iff.mp h
  obtain ⟨c, rest, rfl⟩ := List.exists_cons_of_ne_nil hne
  exact ⟨c, rest, rfl, hdigits c (List.mem_cons_self ..)⟩

/-- The digits of a natural number determine it. -/
theorem toDigits_injective {n m : Nat} (h : Nat.toDigits 10 n = Nat.toDigits 10 m) : n = m := by
  have hvalue := congrArg (Nat.ofDigitChars 10 · 0) h
  rwa [Nat.ofDigitChars_toDigits (by decide) (by decide),
    Nat.ofDigitChars_toDigits (by decide) (by decide)] at hvalue

/-- A natural number below the bound is read from its digits. -/
theorem readBelow?_toDigits {bound n : Nat} (h : n < bound) :
    readBelow? bound (Nat.toDigits 10 n) = some n := by
  have hnumeral := isNumeral_toDigits n
  have hvalue : Nat.ofDigitChars 10 (Nat.toDigits 10 n) 0 = n :=
    Nat.ofDigitChars_toDigits (by decide) (by decide)
  generalize Nat.toDigits 10 n = text at hnumeral hvalue
  obtain ⟨c, rest, rfl, hc⟩ := exists_cons_of_isNumeral hnumeral
  have hplus : c ≠ '+' := ne_of_isDigit hc (by decide)
  simp [readBelow?, hplus, hnumeral, hvalue, h]

/-- The digits are ten characters in a row. -/
theorem toNat_bounds_of_isDigit {c : Char} (h : c.isDigit = true) : 48 ≤ c.toNat ∧ c.toNat ≤ 57 := by
  simpa [Char.isDigit, UInt32.le_iff_toNat_le] using h

/-- A digit is visible. -/
theorem isVisible_of_isDigit {c : Char} (h : c.isDigit = true) : Text.IsVisible c := by
  have hrange := toNat_bounds_of_isDigit h
  exact ⟨by omega, by omega, ne_of_isDigit h (by decide)⟩

/-- The digits of a natural number are visible. -/
theorem isVisible_of_mem_toDigits {n : Nat} {c : Char} (h : c ∈ Nat.toDigits 10 n) : Text.IsVisible c :=
  isVisible_of_isDigit (Nat.isDigit_of_mem_toDigits (by decide) (by decide) h)

/-- The digits of a natural number are part of a word. -/
theorem isPlain_of_mem_toDigits {n : Nat} {c : Char} (h : c ∈ Nat.toDigits 10 n) : Text.IsPlain c :=
  (isVisible_of_mem_toDigits h).isPlain

namespace Literal

/-- The sign in front of a number; there is none in front of one that is not negative. -/
def signText (negative : Bool) : List Char := if negative then ['-'] else []

/-- The text of a literal, a decimal with its significand and its exponent as they are. -/
def text : Literal → List Char
  | .nan negative => signText negative ++ ['n', 'a', 'n']
  | .infinite negative => signText negative ++ ['i', 'n', 'f']
  | .decimal negative significand exponent =>
    signText negative ++
      (Nat.toDigits 10 significand ++
        'e' :: (signText (exponent < 0) ++ Nat.toDigits 10 exponent.natAbs))

/-- A sign is split off the digits behind it. -/
theorem splitSign_append (negative : Bool) {digits : List Char} (h : isNumeral digits = true)
    (rest : List Char) :
    splitSign (signText negative ++ (digits ++ rest)) = (negative, digits ++ rest) := by
  cases negative with
  | true => rfl
  | false =>
    obtain ⟨c, more, rfl, hc⟩ := exists_cons_of_isNumeral h
    have hminus : c ≠ '-' := ne_of_isDigit hc (by decide)
    have hplus : c ≠ '+' := ne_of_isDigit hc (by decide)
    simp [signText, splitSign, hminus, hplus]

/-- Digits make a number no smaller. -/
theorem le_ofDigitChars (digits : List Char) (n : Nat) : n ≤ Nat.ofDigitChars 10 digits n := by
  induction digits generalizing n with
  | nil => exact Nat.le_refl n
  | cons c rest ih =>
    have := ih (10 * n + (c.toNat - '0'.toNat))
    rw [Nat.ofDigitChars_cons]
    omega

/-- No digit of an exponent below 65536 is passed over. -/
theorem exponentSize_eq {digits : List Char} (h : Nat.ofDigitChars 10 digits 0 < 65536) :
    exponentSize digits = Nat.ofDigitChars 10 digits 0 := by
  rw [exponentSize]
  generalize 0 = n at h
  induction digits generalizing n with
  | nil => rfl
  | cons c rest ih =>
    have hle := Nat.lt_of_le_of_lt (le_ofDigitChars (c :: rest) n) h
    rw [Nat.ofDigitChars_cons] at h ⊢
    rw [List.foldl_cons, if_pos hle]
    exact ih _ h

/-- An exponent is read from its sign and its digits. -/
theorem readExponent?_of_splitSign {rest digits : List Char} {negative : Bool} {size : Nat}
    (hsplit : splitSign rest = (negative, digits)) (hdigits : isNumeral digits = true)
    (hvalue : Nat.ofDigitChars 10 digits 0 = size) (h : size < 65536) :
    readExponent? ('e' :: rest) = some (if negative then -(size : Int) else size) := by
  have hmark : Char.toLower 'e' = 'e' := by decide
  have hsize : exponentSize digits = size := by rw [exponentSize_eq (by rwa [hvalue]), hvalue]
  simp only [readExponent?, hsplit, hmark, hdigits, hsize, and_self, if_true]

/-- An exponent is read from its decimal digits, with a sign if it is negative. -/
theorem readExponent?_text {exponent : Int} (h : exponent.natAbs < 65536) :
    readExponent? ('e' :: (signText (exponent < 0) ++ Nat.toDigits 10 exponent.natAbs)) =
      some exponent := by
  have hsplit := splitSign_append (decide (exponent < 0)) (isNumeral_toDigits exponent.natAbs) []
  rw [List.append_nil] at hsplit
  rw [readExponent?_of_splitSign hsplit (isNumeral_toDigits _)
    (Nat.ofDigitChars_toDigits (by decide) (by decide)) h]
  simp only [decide_eq_true_iff, Option.some.injEq]
  split <;> omega

/-- A literal is read from its text. -/
theorem ofText?_text {l : Literal}
    (h : ∀ negative significand exponent, l = .decimal negative significand exponent →
      exponent.natAbs < 65536) : ofText? l.text = some l := by
  cases l with
  | nan negative | infinite negative => cases negative <;> rfl
  | decimal negative significand exponent =>
    have hexponent := readExponent?_text (h negative significand exponent rfl)
    have hdigits := (isNumeral_iff.mp (isNumeral_toDigits significand)).2
    rw [text, ofText?, splitSign_append negative (isNumeral_toDigits significand)]
    simp [ofDigits?, List.takeWhile_append_of_pos hdigits, List.dropWhile_append_of_pos hdigits,
      hexponent]

/-- The text of a literal is one word. -/
theorem isPlain_of_mem_text {l : Literal} {c : Char} (h : c ∈ l.text) : Text.IsPlain c := by
  have hsign {negative : Bool} (hc : c ∈ signText negative) : Text.IsPlain c := by
    obtain ⟨-, rfl⟩ : negative = true ∧ c = '-' := by simpa [signText] using hc
    decide
  cases l with
  | nan negative | infinite negative =>
    rcases List.mem_append.mp h with hc | hc
    · exact hsign hc
    simp only [List.mem_cons, List.not_mem_nil, or_false] at hc
    rcases hc with rfl | rfl | rfl <;> decide
  | decimal negative significand exponent =>
    rcases List.mem_append.mp h with hc | hc
    · exact hsign hc
    rcases List.mem_append.mp hc with hc | hc
    · exact isPlain_of_mem_toDigits hc
    rcases List.mem_cons.mp hc with rfl | hc
    · decide
    rcases List.mem_append.mp hc with hc | hc
    · exact hsign hc
    · exact isPlain_of_mem_toDigits hc

end Literal

end StackBytecode.Number
