import StackBytecode.Opcode
import StackBytecode.Proofs.Number.Numeral
import StackBytecode.Value

/-!
# Printed names and values are words

Whatever layout a number is written in, its text holds digits, a point, signs and the mark
of an exponent. All of these are visible and none ends a word, so the text of a value is a single
word. So is a mnemonic, and a natural number that is brought to a least width is one behind spaces
or zeros.
-/

namespace StackBytecode

open Text (IsPlain IsVisible)

namespace Text

/-- Whether a text is part of a word is told by its characters, one after the other. -/
instance (text : List Char) : Decidable (∀ c ∈ text, IsPlain c) := List.decidableBAll IsPlain text

/-- Whether a text is visible is told by its characters, one after the other. -/
instance (text : List Char) : Decidable (∀ c ∈ text, IsVisible c) := List.decidableBAll IsVisible text

/-- A visible text is part of a word. -/
theorem isPlain_of_isVisible {text : List Char} (h : ∀ c ∈ text, IsVisible c) : ∀ c ∈ text, IsPlain c :=
  fun c hc => (h c hc).isPlain

/-- What fills up a text on the left and the text itself are all that is in it. -/
theorem eq_or_mem_of_mem_leftpad {width : Nat} {fill c : Char} {text : List Char}
    (h : c ∈ text.leftpad width fill) : c = fill ∨ c ∈ text := by
  rw [List.leftpad, List.mem_append, List.mem_replicate] at h
  rcases h with ⟨-, hc⟩ | hc
  · exact .inl hc
  · exact .inr hc

/-- A numeral has a digit. -/
theorem toList_repr_ne_nil (n : Nat) : n.repr.toList ≠ [] := by
  rw [Nat.toList_repr]
  exact Nat.toDigits_ne_nil

/-- A numeral is visible. -/
theorem isVisible_of_mem_repr {n : Nat} : ∀ c ∈ n.repr.toList, IsVisible c := by
  rw [Nat.toList_repr]
  exact fun c hc => Number.isVisible_of_mem_toDigits hc

/-- A numeral is a word. -/
theorem isPlain_of_mem_repr {n : Nat} : ∀ c ∈ n.repr.toList, IsPlain c :=
  isPlain_of_isVisible isVisible_of_mem_repr

/-- The characters of a padded numeral fill it up or are visible. -/
theorem eq_or_isVisible_of_mem_padLeft {width n : Nat} {fill c : Char}
    (h : c ∈ (padLeft width fill n.repr).toList) : c = fill ∨ IsVisible c := by
  rw [padLeft, String.toList_ofList] at h
  rcases eq_or_mem_of_mem_leftpad h with hc | hc
  · exact .inl hc
  · exact .inr (isVisible_of_mem_repr c hc)

/-- A numeral behind zeros is visible. -/
theorem isVisible_of_mem_zeroPadded {width n : Nat} : ∀ c ∈ (zeroPadded width n).toList, IsVisible c := by
  intro c hc
  rcases eq_or_isVisible_of_mem_padLeft hc with rfl | hc
  · decide
  · exact hc

/-- A numeral behind zeros is one word. -/
theorem isPlain_of_mem_zeroPadded {width n : Nat} : ∀ c ∈ (zeroPadded width n).toList, IsPlain c :=
  isPlain_of_isVisible isVisible_of_mem_zeroPadded

/-- A numeral behind spaces is one word. -/
theorem words_spacePadded_append (width n : Nat) (text : List Char) :
    words ((spacePadded width n).toList ++ ' ' :: text) = n.repr.toList :: words text := by
  rw [spacePadded, padLeft, String.toList_ofList, List.leftpad, List.append_assoc,
    words_replicate_space_append]
  exact words_append_space (toList_repr_ne_nil n) isPlain_of_mem_repr text

end Text

/-- A mnemonic is not empty. -/
theorem Opcode.toList_mnemonic_ne_nil (op : Opcode) : op.mnemonic.toList ≠ [] := by
  simp [mnemonic]

/-- A mnemonic is visible. -/
theorem Opcode.isVisible_of_mem_mnemonic (op : Opcode) : ∀ c ∈ op.mnemonic.toList, IsVisible c := by
  rcases op with _ | _ | f | _
  case arith => cases f <;> simp [Opcode.mnemonic, Opcode.name] <;> decide
  all_goals
    simp [Opcode.mnemonic, Opcode.name]
    decide

/-- A mnemonic is a word. -/
theorem Opcode.isPlain_of_mem_mnemonic (op : Opcode) : ∀ c ∈ op.mnemonic.toList, IsPlain c :=
  Text.isPlain_of_isVisible op.isVisible_of_mem_mnemonic

/-- Different opcodes have different mnemonics. -/
theorem Opcode.mnemonic_inj {op other : Opcode} : op.mnemonic = other.mnemonic ↔ op = other := by
  have hfind (op : Opcode) : (all.find? fun other => other.mnemonic == op.mnemonic) = some op := by
    rcases op with _ | _ | f | _
    case arith => cases f <;> decide
    all_goals decide
  constructor
  · intro h
    have hother := hfind other
    rw [← h, hfind op] at hother
    exact Option.some.inj hother
  · intro h
    rw [h]

namespace Number

/-- Leaving out zeros adds nothing. -/
theorem mem_of_mem_trimZeros {c : Char} {digits : List Char} (h : c ∈ trimZeros digits) : c ∈ digits :=
  List.mem_reverse.mp ((List.dropWhile_sublist _).subset (List.mem_reverse.mp h))

/-- Trimming a fraction adds nothing. -/
theorem mem_of_mem_trimFraction {c : Char} {text : List Char} (h : c ∈ trimFraction text) : c ∈ text := by
  rw [trimFraction] at h
  split at h
  case isTrue =>
    exact mem_of_mem_trimZeros
      (List.mem_reverse.mp ((List.dropWhile_sublist _).subset (List.mem_reverse.mp h)))
  case isFalse => exact h

/-- A quotient with its decimal places is visible. -/
theorem Ratio.isVisible_of_mem_fixed (r : Ratio) (places : Nat) : ∀ c ∈ r.fixed places, IsVisible c := by
  have hdigits : ∀ c ∈ (Nat.toDigits 10 (r.mulPow 10 places).round).leftpad (places + 1) '0', IsVisible c := by
    intro c hc
    rcases Text.eq_or_mem_of_mem_leftpad hc with rfl | hc
    · decide
    · exact isVisible_of_mem_toDigits hc
  intro c hc
  rw [fixed] at hc
  split at hc
  case isTrue => exact hdigits c (List.mem_of_mem_take hc)
  case isFalse =>
    rcases List.mem_append.mp hc with hc | hc
    · exact hdigits c (List.mem_of_mem_take hc)
    · rcases List.mem_cons.mp hc with rfl | hc
      · decide
      · exact hdigits c (List.mem_of_mem_drop hc)

/-- The mantissa of a quotient is visible. -/
theorem Ratio.isVisible_of_mem_scientific (r : Ratio) (places : Nat) :
    ∀ c ∈ (r.scientific places).1, IsVisible c :=
  isVisible_of_mem_fixed _ places

/-- The sign and the digits of an exponent are visible. -/
theorem Layout.isVisible_of_mem_exponentPart (layout : Layout) (exponent : Int) :
    ∀ c ∈ layout.exponentPart exponent, IsVisible c := by
  refine List.forall_mem_cons.mpr ⟨?_, Text.isVisible_of_mem_zeroPadded⟩
  split <;> decide

end Number

namespace Value

/-- The text of a magnitude is visible. -/
theorem isVisible_of_mem_magnitudeText (d : Number.Magnitude) : ∀ c ∈ magnitudeText d, IsVisible c := by
  intro c hc
  have hmantissa := d.ratio.isVisible_of_mem_scientific (textDigits - 1)
  rw [magnitudeText] at hc
  generalize d.ratio.scientific (textDigits - 1) = shown at hmantissa hc
  obtain ⟨mantissa, exponent⟩ := shown
  dsimp only at hmantissa hc
  split at hc
  case isTrue => exact d.ratio.isVisible_of_mem_fixed _ c (Number.mem_of_mem_trimFraction hc)
  case isFalse =>
    rcases List.mem_append.mp hc with hc | hc
    · exact hmantissa c (Number.mem_of_mem_trimFraction hc)
    · rcases List.mem_cons.mp hc with rfl | hc
      · decide
      · exact Number.Layout.isVisible_of_mem_exponentPart _ _ c hc

/-- A sign in front leaves a text visible. -/
theorem isVisible_of_mem_signed {negative : Bool} {word : List Char} (h : ∀ c ∈ word, IsVisible c) :
    ∀ c ∈ signed negative word, IsVisible c := by
  rw [signed]
  split
  case isTrue => exact List.forall_mem_cons.mpr ⟨by decide, h⟩
  case isFalse => exact h

/-- The text of a value is visible. -/
theorem isVisible_of_mem_text (v : Value) : ∀ c ∈ v.text.toList, IsVisible c := by
  rw [text]
  cases v.double with
  | nan negative => exact (by decide : ∀ c ∈ "nan".toList, IsVisible c)
  | infinite negative =>
    rw [String.toList_ofList]
    exact isVisible_of_mem_signed (by decide)
  | finite negative d =>
    rw [String.toList_ofList]
    exact isVisible_of_mem_signed (isVisible_of_mem_magnitudeText d)

/-- The text of a value is one word. -/
theorem isPlain_of_mem_text (v : Value) : ∀ c ∈ v.text.toList, IsPlain c :=
  Text.isPlain_of_isVisible v.isVisible_of_mem_text

end Value

end StackBytecode
