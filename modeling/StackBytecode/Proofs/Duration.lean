import StackBytecode.Duration
import StackBytecode.Proofs.Number.Operations
import StackBytecode.Proofs.Number.Shown

/-!
# Splitting a duration into units

A duration is shown in milliseconds, in seconds, or in minutes and seconds. The split is proper if each
figure that is shown is less than one of the next unit. It is not always, because the unit is chosen before
the figures are rounded: seconds that are as near to sixty as half a unit of their last place are shown
as sixty.

All other durations are split properly as long as the minutes and the seconds behind them are those of all
the seconds. These are computed by dividing by sixty, multiplying the whole minutes out and taking them
off, and each result is rounded to a double. While the last place of the seconds is four or lower, the
roundings change nothing: sixty is a multiple of four, so every multiple of it is one of the last place.
-/

namespace StackBytecode.Duration

open Number
open Number.Double (IsRounding)
open Number.Literal (signText)
open Text (words IsPlain)

/-! ## Texts of split durations -/

/-- A number of milliseconds. -/
def millisecondsText (n : ℕ) : String := n.repr ++ " ms"

/-- A number of seconds with three places. -/
def secondsText (thousandths : ℕ) : String := String.ofList (placedText thousandths 3) ++ " s"

/-- A number of minutes, and a number of seconds with a sign and one place. -/
def minutesText (minutes : ℕ) (negative : Bool) (tenths : ℕ) : String :=
  minutes.repr ++ " min " ++ (if negative then "-" else "") ++ String.ofList (placedText tenths 1) ++ " s"

/-- The texts in which each figure is less than one of the next unit, and the first one is not zero
unless the unit is the least. -/
inductive IsProperSplit : String → Prop
  | milliseconds {n : ℕ} (lt : n < 1000) : IsProperSplit (millisecondsText n)
  | seconds {thousandths : ℕ} (one_le : 1000 ≤ thousandths) (lt : thousandths < 60000) :
    IsProperSplit (secondsText thousandths)
  | minutes {minutes tenths : ℕ} (one_le : 1 ≤ minutes) (lt : tenths < 600) :
    IsProperSplit (minutesText minutes false tenths)

/-- A written number with places is digits and a point. -/
theorem isDigit_or_eq_of_mem_placedText {n places : ℕ} {c : Char} (h : c ∈ placedText n places) :
    c.isDigit = true ∨ c = '.' := by
  rcases List.mem_append.mp h with h | h
  · exact .inl ((isNumeral_iff.mp (isNumeral_toDigits _)).2 c h)
  · cases hdigits : lastDigits places n with
    | nil =>
      rw [hdigits] at h
      exact absurd h List.not_mem_nil
    | cons first rest =>
      rw [hdigits] at h
      rcases List.mem_cons.mp h with rfl | h
      · exact .inr rfl
      · exact .inl (isDigit_of_mem_lastDigits c (hdigits ▸ h))

theorem isPlain_of_mem_placedText {n places : ℕ} : ∀ c ∈ placedText n places, IsPlain c := by
  intro c hc
  rcases isDigit_or_eq_of_mem_placedText hc with hdigit | rfl
  · exact (isVisible_of_isDigit hdigit).isPlain
  · decide

theorem placedText_ne_nil (n places : ℕ) : placedText n places ≠ [] :=
  List.append_ne_nil_of_left_ne_nil (isNumeral_iff.mp (isNumeral_toDigits _)).1 _

/-- The words of a number of milliseconds. -/
theorem words_millisecondsText (n : ℕ) :
    words (millisecondsText n).toList = [Nat.toDigits 10 n, ['m', 's']] := by
  have hdigits := (isNumeral_iff.mp (isNumeral_toDigits n)).1
  have htext : (millisecondsText n).toList = Nat.toDigits 10 n ++ ' ' :: ['m', 's'] := by
    rw [millisecondsText, String.toList_append, Nat.toList_repr]
    rfl
  rw [htext, Text.words_append_space hdigits fun c => isPlain_of_mem_toDigits]
  rfl

/-- The words of a number of seconds. -/
theorem words_secondsText (thousandths : ℕ) :
    words (secondsText thousandths).toList = [placedText thousandths 3, ['s']] := by
  have htext : (secondsText thousandths).toList = placedText thousandths 3 ++ ' ' :: ['s'] := by
    rw [secondsText, String.toList_append, String.toList_ofList]
    rfl
  rw [htext, Text.words_append_space (placedText_ne_nil _ _) isPlain_of_mem_placedText]
  rfl

/-- The words of a number of minutes and seconds. -/
theorem words_minutesText (minutes : ℕ) (negative : Bool) (tenths : ℕ) :
    words (minutesText minutes negative tenths).toList =
      [Nat.toDigits 10 minutes, ['m', 'i', 'n'], signText negative ++ placedText tenths 1, ['s']] := by
  have hdigits := (isNumeral_iff.mp (isNumeral_toDigits minutes)).1
  have htext : (minutesText minutes negative tenths).toList =
      Nat.toDigits 10 minutes ++ ' ' :: (['m', 'i', 'n'] ++
        ' ' :: (signText negative ++ placedText tenths 1 ++ ' ' :: ['s'])) := by
    rw [minutesText]
    simp only [String.toList_append, Nat.toList_repr, String.toList_ofList]
    cases negative <;> simp [signText]
  have hsigned : ∀ c ∈ signText negative ++ placedText tenths 1, IsPlain c := by
    refine List.forall_mem_append.mpr ⟨?_, isPlain_of_mem_placedText⟩
    cases negative <;> decide
  rw [htext, Text.words_append_space hdigits fun c => isPlain_of_mem_toDigits,
    Text.words_append_space (by decide) (by decide),
    Text.words_append_space (List.append_ne_nil_of_right_ne_nil _ (placedText_ne_nil _ _)) hsigned]
  rfl

/-- Which numbers of seconds are proper. -/
theorem isProperSplit_secondsText {thousandths : ℕ} :
    IsProperSplit (secondsText thousandths) ↔ 1000 ≤ thousandths ∧ thousandths < 60000 := by
  refine ⟨fun h => ?_, fun h => .seconds h.1 h.2⟩
  have hwords := words_secondsText thousandths
  generalize secondsText thousandths = text at h hwords
  cases h with
  | milliseconds lt =>
    rw [words_millisecondsText] at hwords
    simp at hwords
  | seconds one_le lt =>
    rw [words_secondsText] at hwords
    obtain rfl := placedText_inj.mp (List.cons.inj hwords).1
    exact ⟨one_le, lt⟩
  | minutes one_le lt =>
    rw [words_minutesText] at hwords
    simp at hwords

/-- Which numbers of minutes and seconds are proper. -/
theorem isProperSplit_minutesText {minutes tenths : ℕ} {negative : Bool} :
    IsProperSplit (minutesText minutes negative tenths) ↔ negative = false ∧ 1 ≤ minutes ∧ tenths < 600 := by
  refine ⟨fun h => ?_, fun ⟨hsign, hminutes, htenths⟩ => hsign ▸ .minutes hminutes htenths⟩
  have hwords := words_minutesText minutes negative tenths
  generalize minutesText minutes negative tenths = text at h hwords
  cases h with
  | milliseconds lt =>
    rw [words_millisecondsText] at hwords
    simp at hwords
  | seconds one_le lt =>
    rw [words_secondsText] at hwords
    simp at hwords
  | @minutes shown shownTenths one_le lt =>
    rw [words_minutesText] at hwords
    obtain ⟨hdigits, hrest⟩ := List.cons.inj hwords
    have htext := (List.cons.inj (List.cons.inj hrest).2).1
    cases negative with
    | true =>
      have hsigned : placedText shownTenths 1 = '-' :: placedText tenths 1 := htext
      have hsign : '-' ∈ placedText shownTenths 1 := hsigned ▸ List.mem_cons_self ..
      exact absurd (isDigit_or_eq_of_mem_placedText hsign) (by decide)
    | false =>
      obtain rfl := placedText_inj.mp htext
      obtain rfl := toDigits_injective hdigits
      exact ⟨rfl, one_le, lt⟩

/-! ## Results of computing -/

/-- The double nearest to a quotient has a denominator. -/
theorem den_asDouble_pos (r : Ratio) : 0 < (asDouble r).den := Magnitude.den_ratio_pos _

/-- Zero is a double. -/
theorem value_asDouble_of_eq_zero {r : Ratio} (hden : 0 < r.den) (h : r.value = 0) :
    (asDouble r).value = 0 := by
  have hnum : r.num = 0 := by
    rw [Ratio.value, div_eq_zero_iff] at h
    exact Nat.cast_eq_zero.mp (h.resolve_right (Nat.cast_ne_zero.mpr hden.ne'))
  rw [asDouble, Double.nearest, if_pos hnum, Magnitude.value_ratio, Magnitude.value, Nat.cast_zero, zero_mul]

/-- A positive quotient is rounded to a double. -/
theorem isRounding_asDouble {r : Ratio} (hden : 0 < r.den) (hpos : 0 < r.value) :
    IsRounding r.value (asDouble r).value := by
  have hnum : 0 < r.num := by
    refine Nat.pos_of_ne_zero fun hzero => hpos.ne' ?_
    rw [Ratio.value, hzero, Nat.cast_zero, zero_div]
  obtain ⟨hplace, hnearest⟩ := Double.nearest_spec hnum hden
  refine ⟨_, hnearest, ?_⟩
  rw [asDouble, Magnitude.value_ratio, Magnitude.value, hplace]

/-- One is not passed from below. -/
theorem value_asDouble_le_one {r : Ratio} (hden : 0 < r.den) (h : r.value ≤ 1) : (asDouble r).value ≤ 1 := by
  rcases r.value_nonneg.eq_or_lt with hzero | hpos
  · rw [value_asDouble_of_eq_zero hden hzero.symm]
    exact zero_le_one
  · have hone := (isRounding_asDouble hden hpos).le_natCast hpos (h.trans_lt (by norm_num))
      (h.trans_eq Nat.cast_one.symm)
    rwa [Nat.cast_one] at hone

/-- A double less one that is not greater is the double nearest to their difference. -/
theorem difference_of_le {a b : Ratio} (ha : 0 < a.den) (hb : 0 < b.den) (h : b.value ≤ a.value) :
    ∃ r : Ratio, 0 < r.den ∧ r.value = a.value - b.value ∧ difference a b = (false, asDouble r) := by
  have ha' : (0 : ℚ) < a.den := Nat.cast_pos.mpr ha
  have hb' : (0 : ℚ) < b.den := Nat.cast_pos.mpr hb
  have hle : b.num * a.den ≤ a.num * b.den := by
    rw [Ratio.value, Ratio.value, div_le_div_iff₀ hb' ha'] at h
    exact_mod_cast h
  refine ⟨⟨a.num * b.den - b.num * a.den, a.den * b.den⟩, Nat.mul_pos ha hb, ?_, ?_⟩
  · rw [Ratio.value, Ratio.value, Ratio.value, div_sub_div _ _ ha'.ne' hb'.ne', Nat.cast_sub hle]
    push_cast
    rw [mul_comm (b.num : ℚ)]
  · rw [difference]
    exact if_pos hle

/-! ## The seconds -/

section Seconds

variable (d : Duration)

/-- The whole seconds as a double. -/
def wholeDouble : Ratio := asDouble ⟨d.seconds.toNat, 1⟩

/-- What is left of a second as a double. -/
def fractionDouble : Ratio := asDouble ⟨d.nanoseconds, nanosPerSecond⟩

theorem value_fractionDouble_le_one : d.fractionDouble.value ≤ 1 := by
  refine value_asDouble_le_one (show 0 < nanosPerSecond by decide) ?_
  rw [Ratio.value, div_le_one (by norm_num [nanosPerSecond])]
  exact_mod_cast d.nanoseconds_lt.le

theorem value_fractionDouble_nonneg : 0 ≤ d.fractionDouble.value := Ratio.value_nonneg _

/-- The sum of the two parts stands for their sum. -/
theorem value_sum : (d.wholeDouble.add d.fractionDouble).value =
    d.wholeDouble.value + d.fractionDouble.value :=
  Ratio.value_add (den_asDouble_pos _) (den_asDouble_pos _)

theorem den_sum_pos : 0 < (d.wholeDouble.add d.fractionDouble).den :=
  Nat.mul_pos (den_asDouble_pos _) (den_asDouble_pos _)

/-- Below one second there is at most one. -/
theorem value_secondsDouble_le_one (h : d.seconds.toNat = 0) : d.secondsDouble.value ≤ 1 := by
  have hwhole : d.wholeDouble.value = 0 :=
    value_asDouble_of_eq_zero Nat.one_pos (by rw [Ratio.value_natCast, h, Nat.cast_zero])
  have hsum : (d.wholeDouble.add d.fractionDouble).value ≤ 1 := by
    rw [value_sum, hwhole, zero_add]
    exact d.value_fractionDouble_le_one
  exact value_asDouble_le_one d.den_sum_pos hsum

/-- From one second on the whole seconds are rounded to a double. -/
theorem isRounding_wholeDouble (h : 0 < d.seconds.toNat) :
    IsRounding d.seconds.toNat d.wholeDouble.value := by
  have hrounding := @isRounding_asDouble ⟨d.seconds.toNat, 1⟩ Nat.one_pos
    (by rw [Ratio.value_natCast]; exact_mod_cast h)
  rwa [Ratio.value_natCast] at hrounding

theorem one_le_value_wholeDouble (h : 0 < d.seconds.toNat) : 1 ≤ d.wholeDouble.value :=
  (d.isRounding_wholeDouble h).one_le (Nat.one_le_cast.mpr h)

/-- From one second on the seconds are the sum of the two parts, rounded to a double. -/
theorem isRounding_secondsDouble (h : 0 < d.seconds.toNat) :
    IsRounding (d.wholeDouble.value + d.fractionDouble.value) d.secondsDouble.value := by
  have hone := d.one_le_value_wholeDouble h
  have hfraction := d.value_fractionDouble_nonneg
  have hrounding := isRounding_asDouble d.den_sum_pos (by rw [value_sum]; linarith)
  rwa [value_sum] at hrounding

theorem one_le_value_secondsDouble (h : 0 < d.seconds.toNat) : 1 ≤ d.secondsDouble.value := by
  have hone := d.one_le_value_wholeDouble h
  have hfraction := d.value_fractionDouble_nonneg
  exact (d.isRounding_secondsDouble h).one_le (by linarith)

/-- The seconds of a duration of one second or more, but less than `2 ^ 54`, have their last place at
four or below. -/
theorem exists_value_secondsDouble (h : 0 < d.seconds.toNat) (hlt : d.seconds.toNat < 2 ^ 54) :
    d.secondsDouble.value < 2 ^ 55 ∧ ∃ (n : ℕ) (e : ℤ), n < 2 ^ 53 ∧ Double.leastExponent ≤ e ∧ e ≤ 2 ∧
      d.secondsDouble.value = n * 2 ^ e := by
  have hseconds : (d.seconds.toNat : ℚ) + 1 ≤ 2 ^ 54 := by exact_mod_cast hlt
  have hone := d.one_le_value_wholeDouble h
  have hfraction := d.value_fractionDouble_nonneg
  have hfractionLe := d.value_fractionDouble_le_one
  have hwhole := (abs_le.mp ((d.isRounding_wholeDouble h).abs_sub_le_of_one_le (Nat.one_le_cast.mpr h))).2
  have hrounding := d.isRounding_secondsDouble h
  have hsum := (abs_le.mp (hrounding.abs_sub_le_of_one_le (by linarith))).2
  have hlarge : d.secondsDouble.value < 2 ^ 55 := by linarith
  have hgreatest : d.wholeDouble.value + d.fractionDouble.value ≤ Double.greatest := by
    have hpowers : (2 : ℚ) ^ (55 : ℤ) ≤ 2 ^ (971 : ℤ) := zpow_le_zpow_right₀ one_le_two (by decide)
    refine le_trans ?_ (hpowers.trans Double.zpow_le_greatest)
    norm_num
    linarith
  obtain ⟨double, hdouble, hvalue⟩ := hrounding.exists_isDouble (by linarith) hgreatest
  have hexponent : double.exponent < 3 :=
    Double.exponent_lt_of_value_lt hdouble (by decide) (by rw [← hvalue]; exact_mod_cast hlarge)
  exact ⟨hlarge, double.mantissa, double.exponent, hdouble.mantissa_lt, hdouble.least_le, by omega, hvalue⟩

end Seconds

/-! ## The minutes and what is left -/

section Minutes

variable (d : Duration)

/-- The whole minutes as they are computed. -/
def minutes : ℕ := (asDouble (d.secondsDouble.divNat 60)).floor

/-- The seconds behind the minutes as they are computed, with their sign. -/
def rest : Bool × Ratio := difference d.secondsDouble (asDouble ⟨d.minutes * 60, 1⟩)

/-- A minute takes a second at least. -/
theorem seconds_pos (h : 60 ≤ d.secondsDouble.value) : 0 < d.seconds.toNat := by
  refine Nat.pos_of_ne_zero fun hzero => ?_
  have hone := d.value_secondsDouble_le_one hzero
  linarith

/-- The quotient that the minutes are counted in. -/
theorem isRounding_quotient (h : 60 ≤ d.secondsDouble.value) :
    IsRounding (d.secondsDouble.value / 60) (asDouble (d.secondsDouble.divNat 60)).value := by
  have hvalue : (d.secondsDouble.divNat 60).value = d.secondsDouble.value / 60 := by
    rw [Ratio.value_divNat, Nat.cast_ofNat]
  rw [← hvalue]
  refine isRounding_asDouble (Nat.mul_pos (den_asDouble_pos _) (by decide)) ?_
  rw [hvalue]
  linarith

/-- From sixty seconds on there is a minute. -/
theorem one_le_minutes (h : 60 ≤ d.secondsDouble.value) : 1 ≤ d.minutes := by
  rw [minutes, Ratio.floor_eq, Nat.one_le_floor_iff]
  exact (d.isRounding_quotient h).one_le (by linarith)

/-- A multiple of sixty below `2 ^ 55` is a double, because it is one of four. -/
theorem value_minutes_mul (hlt : (d.minutes : ℚ) * 60 < 2 ^ 55) (hone : 1 ≤ d.minutes) :
    (asDouble ⟨d.minutes * 60, 1⟩).value = d.minutes * 60 := by
  have hvalue : (Ratio.mk (d.minutes * 60) 1).value = d.minutes * 60 := by
    rw [Ratio.value_natCast]
    push_cast
    rfl
  have hpos : (0 : ℚ) < d.minutes * 60 := by
    have : (1 : ℚ) ≤ d.minutes := by exact_mod_cast hone
    linarith
  have hrounding := isRounding_asDouble (r := ⟨d.minutes * 60, 1⟩) Nat.one_pos (hvalue ▸ hpos)
  rw [hvalue] at hrounding
  refine hrounding.eq_of_double (n := 15 * d.minutes) (e := 2) ?_ ?_ (by decide) hpos
  · push_cast
    ring
  · have : d.minutes * 60 < 2 ^ 55 := by exact_mod_cast hlt
    omega

/-- Below `2 ^ 54` seconds the minutes are the whole minutes of all the seconds, and the seconds behind
them are what is left. -/
theorem minutes_and_rest (h : 60 ≤ d.secondsDouble.value) (hlt : d.seconds.toNat < 2 ^ 54) :
    d.minutes = ⌊d.secondsDouble.value / 60⌋₊ ∧ d.rest.1 = false ∧
      d.rest.2.value = d.secondsDouble.value - 60 * ⌊d.secondsDouble.value / 60⌋₊ := by
  obtain ⟨hlarge, n, e, hn, hleast, he, hvalue⟩ := d.exists_value_secondsDouble (d.seconds_pos h) hlt
  obtain ⟨units, hunits⟩ := Double.exists_natCast_eq_mul he 15
  have hsixty : ((60 : ℕ) : ℚ) = units * 2 ^ e := by
    rw [← hunits, Double.mul_zpow_neg_mul]
    norm_num
  have hfloor : d.minutes = ⌊d.secondsDouble.value / 60⌋₊ := by
    have hquotient := d.isRounding_quotient h
    have hone : 1 ≤ d.secondsDouble.value / 60 := by linarith
    have hbits : d.secondsDouble.value / 60 ≤ 2 ^ 52 := by linarith
    rw [minutes, Ratio.floor_eq]
    rw [hvalue] at hquotient hone hbits ⊢
    exact hquotient.floor_div hn hsixty hone hbits
  have hle : (d.minutes : ℚ) ≤ d.secondsDouble.value / 60 := by
    rw [hfloor]
    exact Nat.floor_le (by linarith)
  have hproduct : (asDouble ⟨d.minutes * 60, 1⟩).value = d.minutes * 60 :=
    d.value_minutes_mul (by linarith) (d.one_le_minutes h)
  refine ⟨hfloor, ?_⟩
  rw [← hfloor, rest]
  have hseconds : 0 < d.secondsDouble.den := den_asDouble_pos _
  obtain ⟨r, hden, hr, hdifference⟩ := difference_of_le hseconds (den_asDouble_pos _)
    (show (asDouble ⟨d.minutes * 60, 1⟩).value ≤ d.secondsDouble.value by rw [hproduct]; linarith)
  rw [hproduct] at hr
  rw [hdifference]
  refine ⟨rfl, ?_⟩
  rcases r.value_nonneg.eq_or_lt with hzero | hpos
  · rw [value_asDouble_of_eq_zero hden hzero.symm]
    linarith
  · have hrounding := isRounding_asDouble hden hpos
    rw [hr, hvalue] at hrounding hpos
    rw [hvalue, mul_comm (60 : ℚ)]
    exact hrounding.eq_sub_mul hn hleast hsixty hpos

end Minutes

/-! ## Proper splits -/

section Split

variable (d : Duration)

/-- The seconds in units of their third place, as they are shown. -/
def thousandths : ℕ := (d.secondsDouble.mulPow 10 (3 : ℕ)).round

/-- The seconds behind the minutes in units of their first place, as they are shown. -/
def tenths : ℕ := (d.rest.2.mulPow 10 (1 : ℕ)).round

/-- The units of a decimal place are the nearest. -/
theorem isNearestEven_units {r : Ratio} (hden : 0 < r.den) (places : ℕ) :
    IsNearestEven (r.value * 10 ^ places) (r.mulPow 10 places).round := by
  have hround := Ratio.isNearestEven_round (Ratio.den_mulPow_pos (show 0 < 10 by decide) hden places)
  rwa [Ratio.value_mulPow, zpow_natCast, Nat.cast_ofNat] at hround

theorem den_rest_pos : 0 < d.rest.2.den := by
  rw [rest, difference]
  split
  · exact den_asDouble_pos _
  · exact den_asDouble_pos _

/-- The unit is chosen by comparing the seconds before rounding. -/
theorem num_lt_iff : d.secondsDouble.num < 60 * d.secondsDouble.den ↔ d.secondsDouble.value < 60 := by
  have hden : (0 : ℚ) < d.secondsDouble.den := Nat.cast_pos.mpr (den_asDouble_pos _)
  rw [Ratio.value, div_lt_iff₀ hden]
  exact_mod_cast Iff.rfl

/-- The text of a duration is its number of milliseconds, its rounded number of seconds, or its number of
minutes with the rounded number of seconds behind them. -/
theorem text_eq : d.text =
    if d.milliseconds < 1000 then millisecondsText d.milliseconds
    else if d.secondsDouble.value < 60 then secondsText d.thousandths
    else minutesText d.minutes d.rest.1 d.tenths := by
  simp only [text, ← num_lt_iff, Ratio.fixed_eq]
  rfl

/-- Which durations have milliseconds as their unit. -/
theorem milliseconds_lt_iff : d.milliseconds < 1000 ↔ d.seconds.toNat = 0 := by
  have hnanoseconds := d.nanoseconds_lt
  rw [nanosPerSecond] at hnanoseconds
  rw [milliseconds]
  omega

/-- The number of seconds shown is proper unless it is rounded up to sixty. -/
theorem isProperSplit_thousandths (h : 0 < d.seconds.toNat) :
    IsProperSplit (secondsText d.thousandths) ↔ d.secondsDouble.value < 59.9995 := by
  have hone := d.one_le_value_secondsDouble h
  have hnearest := @isNearestEven_units d.secondsDouble (den_asDouble_pos _) 3
  have hleast : 1000 ≤ d.thousandths := hnearest.le_of_le (by push_cast; linarith)
  rw [isProperSplit_secondsText, and_iff_right hleast]
  refine (hnearest.lt_iff_of_even (by decide)).trans ?_
  push_cast
  constructor <;> intro hlt <;> linarith

/-- The number of seconds shown behind the minutes is proper unless it has a sign or is rounded up to
sixty. -/
theorem isProperSplit_tenths (h : 60 ≤ d.secondsDouble.value) :
    IsProperSplit (minutesText d.minutes d.rest.1 d.tenths) ↔ d.rest.1 = false ∧ d.rest.2.value < 59.95 := by
  have hnearest := isNearestEven_units d.den_rest_pos 1
  rw [isProperSplit_minutesText, and_iff_right (d.one_le_minutes h)]
  refine and_congr_right fun _ => (hnearest.lt_iff_of_even (by decide)).trans ?_
  push_cast
  constructor <;> intro hlt <;> linarith

/-- The text of a duration is a proper split exactly if the seconds are not shown as sixty: they, or what
is left of them behind the minutes, are not as near to sixty as half a unit of their last place, and what
is left is not negative. Below `2 ^ 54` seconds nothing is lost in taking the minutes off: these are
the whole minutes, and what is left is the rest of dividing the seconds by sixty. -/
theorem text_isProperSplit_iff :
    (IsProperSplit d.text ↔
      d.secondsDouble.value < 59.9995 ∨
        60 ≤ d.secondsDouble.value ∧ d.rest.1 = false ∧ d.rest.2.value < 59.95) ∧
    (60 ≤ d.secondsDouble.value → d.seconds.toNat < 2 ^ 54 →
      d.minutes = ⌊d.secondsDouble.value / 60⌋₊ ∧ d.rest.1 = false ∧
        d.rest.2.value = d.secondsDouble.value - 60 * ⌊d.secondsDouble.value / 60⌋₊) := by
  refine ⟨?_, d.minutes_and_rest⟩
  rw [text_eq]
  split
  case isTrue hmilliseconds =>
    have hone := d.value_secondsDouble_le_one (d.milliseconds_lt_iff.mp hmilliseconds)
    exact iff_of_true (.milliseconds hmilliseconds) (.inl (by linarith))
  case isFalse hlarge =>
    split
    case isTrue hlt =>
      rw [d.isProperSplit_thousandths (Nat.pos_of_ne_zero (mt d.milliseconds_lt_iff.mpr hlarge)), or_iff_left]
      exact fun h => absurd h.1 (not_le.mpr hlt)
    case isFalse hge =>
      have hsixty := not_lt.mp hge
      rw [d.isProperSplit_tenths hsixty, or_iff_right, and_iff_right hsixty]
      intro h
      linarith

end Split

/-- Ninety seconds are a minute and thirty seconds. -/
theorem text_isProperSplit_iff_ninety :
    let d : Duration := ⟨90, 0, by decide⟩
    (60 ≤ d.secondsDouble.value ∧ d.seconds.toNat < 2 ^ 54) ∧
      d.minutes = 1 ∧ d.rest.2.value = 30 ∧ IsProperSplit d.text := by
  intro d
  have hseconds : d.secondsDouble.value = 90 := by
    rw [show d.secondsDouble = ⟨6333186975989760, 70368744177664⟩ by decide +kernel, Ratio.value]
    norm_num
  have hsixty : 60 ≤ d.secondsDouble.value := by
    rw [hseconds]
    norm_num
  have hlt : d.seconds.toNat < 2 ^ 54 := by decide
  have hfloor : ⌊d.secondsDouble.value / 60⌋₊ = 1 := by
    rw [hseconds, Nat.floor_eq_iff (by norm_num)]
    norm_num
  obtain ⟨hproper, hsplit⟩ := text_isProperSplit_iff d
  obtain ⟨hminutes, hsign, hrest⟩ := hsplit hsixty hlt
  have hthirty : d.rest.2.value = 30 := by
    rw [hrest, hfloor, hseconds]
    norm_num
  refine ⟨⟨hsixty, hlt⟩, hminutes.trans hfloor, hthirty, hproper.mpr (.inr ⟨hsixty, hsign, ?_⟩)⟩
  rw [hthirty]
  norm_num

/-- Two durations that are shown with sixty seconds, one in seconds and one in minutes. -/
theorem text_with_sixty_seconds :
    let below : Duration := ⟨59, 999600000, by decide⟩
    let above : Duration := ⟨119, 960000000, by decide⟩
    (below.text = "60.000 s" ∧ ¬ IsProperSplit below.text) ∧
      above.text = "1 min 60.0 s" ∧ ¬ IsProperSplit above.text := by
  intro below above
  have hbelow : below.text = secondsText 60000 := by decide +kernel
  have habove : above.text = minutesText 1 false 600 := by decide +kernel
  refine ⟨⟨by decide +kernel, ?_⟩, by decide +kernel, ?_⟩
  · rw [hbelow, isProperSplit_secondsText]
    decide
  · rw [habove, isProperSplit_minutesText]
    decide

end StackBytecode.Duration
