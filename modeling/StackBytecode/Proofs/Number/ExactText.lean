import StackBytecode.Proofs.Number.Exact
import StackBytecode.Value

/-!
# The values that have a text

A number is read, bit for bit, from its exact decimal: the bits of its double are those of its
literal. What is no number is read from its name, with a sign or without. Only two of the many
values that are no number are read in this way; the others have no text at all, since no decimal
is rounded beyond infinity.
-/

namespace StackBytecode

namespace Number

/-- The bits of a decimal without its sign are at most those of infinity. -/
theorem Literal.decimalBits_le (significand : Nat) (exponent : Int) :
    decimalBits significand exponent ≤ Double.infinityBits := by
  unfold decimalBits
  dsimp only
  split
  · exact Nat.zero_le _
  split
  · exact Nat.le_refl _
  · exact Nat.min_le_right ..

/-- What is no number has all bits of the exponent and a fraction. -/
theorem Double.fields_of_nan {bits : UInt64} {sign : Bool} (h : ofBits bits = .nan sign) :
    bits.toNat / 0x10000000000000 % 0x800 = 2047 ∧ bits.toNat % 0x10000000000000 ≠ 0 := by
  rw [ofBits] at h
  split at h
  case isTrue hfield =>
    split at h
    case isTrue => cases h
    case isFalse hfraction => exact ⟨hfield, hfraction⟩
  case isFalse => split at h <;> cases h

/-- Bits that are at most those of infinity are a number, whatever their sign. -/
theorem Double.ofBits_withSign_ne_nan {magnitude : Nat} (h : magnitude ≤ infinityBits)
    (negative sign : Bool) : ofBits (withSign negative magnitude) ≠ .nan sign := by
  rw [infinityBits] at h
  intro hnan
  obtain ⟨hfield, hfraction⟩ := fields_of_nan hnan
  rw [toNat_withSign negative (by omega)] at hfield hfraction
  omega

end Number

namespace Value

open Number

/-- A value that source text can denote. Of those that are no number, these are the two which the
name of such a value stands for, without and with a minus sign. -/
def IsWritable (v : Value) : Prop :=
  (∃ negative, v.double = .nan negative) →
    v.toBits = 0x7FF8000000000000 ∨ v.toBits = 0xFFF8000000000000

/-- The value of a literal can be denoted. -/
theorem isWritable_ofBits_literal (l : Literal) : (ofBits l.bits).IsWritable := by
  rintro ⟨sign, hnan⟩
  cases l with
  | nan negative =>
    cases negative
    · exact .inl rfl
    · exact .inr rfl
  | infinite negative => exact absurd hnan (Double.ofBits_withSign_ne_nan (Nat.le_refl _) _ _)
  | decimal negative significand exponent =>
    exact absurd hnan (Double.ofBits_withSign_ne_nan (Literal.decimalBits_le significand exponent) _ _)

/-- A value that is read from a text can be denoted. -/
theorem isWritable_of_ofText? {text : List Char} {v : Value} (h : ofText? text = some v) :
    v.IsWritable := by
  obtain ⟨l, -, rfl⟩ := Option.map_eq_some_iff.mp h
  exact isWritable_ofBits_literal l

/-- The bits of a value that can be denoted are those of its literal. -/
theorem IsWritable.bits_literal {v : Value} (h : v.IsWritable) : v.double.literal.bits = v.toBits := by
  by_cases hnan : ∃ negative, v.double = .nan negative
  · rcases h hnan with hbits | hbits
    · rw [double, hbits]
      rfl
    · rw [double, hbits]
      rfl
  · exact Double.bits_literal fun negative hdouble => hnan ⟨negative, hdouble⟩

/-- The text of the number that a value is exactly. -/
def exactText (v : Value) : List Char := v.double.literal.text

/-- A value that can be denoted is read from its exact text. -/
theorem IsWritable.ofText?_exactText {v : Value} (h : v.IsWritable) : ofText? v.exactText = some v := by
  have hread : Literal.ofText? v.exactText = some v.double.literal :=
    Literal.ofText?_text fun negative significand exponent hdecimal =>
      Nat.lt_of_le_of_lt (Double.natAbs_exponent_le hdecimal) (by decide)
  rw [ofText?, hread, Option.map_some, h.bits_literal]

end Value

end StackBytecode
