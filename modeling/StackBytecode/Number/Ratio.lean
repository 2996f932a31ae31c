/-!
# Nonnegative quotients

Exact quotients of natural numbers, what all decimal text is computed from: comparing with a
power, scaling by a power, rounding to an integer. Denominators are positive wherever a value of
this library builds one.
-/

namespace StackBytecode.Number

/-- The integer nearest to a quotient; a half goes to the even neighbour. -/
def roundDiv (num den : Nat) : Nat :=
  let quotient := num / den
  let twice := 2 * (num % den)
  if twice < den then quotient
  else if den < twice then quotient + 1
  else quotient + quotient % 2

/-- The quotient `num / den`. -/
structure Ratio where
  num : Nat
  den : Nat
  deriving DecidableEq, Repr

namespace Ratio

/-- The quotient times a power of `base`, also a negative one. -/
def mulPow (r : Ratio) (base : Nat) : Int → Ratio
  | .ofNat k => ⟨r.num * base.pow k, r.den⟩
  | .negSucc k => ⟨r.num, r.den * base.pow (k + 1)⟩

/-- The quotient of two quotients, the second being a natural number. -/
def divNat (r : Ratio) (n : Nat) : Ratio := ⟨r.num, r.den * n⟩

/-- The sum of two quotients. -/
def add (r s : Ratio) : Ratio := ⟨r.num * s.den + s.num * r.den, r.den * s.den⟩

/-- The nearest integer, a half going to the even one. -/
def round (r : Ratio) : Nat := roundDiv r.num r.den

/-- The greatest integer that is not above the quotient. -/
def floor (r : Ratio) : Nat := r.num / r.den

/-- Whether the power `base ^ k` is at most the quotient. -/
def hasPow (r : Ratio) (base : Nat) : Int → Bool
  | .ofNat k => r.den * base.pow k ≤ r.num
  | .negSucc k => r.den ≤ r.num * base.pow (k + 1)

/-- The number of decimal digits of a natural number. -/
def digitCount (n : Nat) : Nat := (Nat.toDigits 10 n).length

/-- Whether `base ^ k` is the greatest power that is at most the quotient. -/
def isExponent (r : Ratio) (base : Nat) (k : Int) : Bool := r.hasPow base k && !r.hasPow base (k + 1)

/-- The exponent of the greatest power of ten that is at most a positive quotient, from the numbers
of digits above and below the line. -/
def countedExponentTen (r : Ratio) : Int :=
  let above : Int := (digitCount r.num : Int) - digitCount r.den
  if r.hasPow 10 above then above else above - 1

/-- The exponent of the greatest power of ten that is at most a positive quotient. The lengths in
binary tell it up to one for every double, and counting digits takes longer than checking three
candidates. -/
def exponentTen (r : Ratio) : Int :=
  let guess : Int := ((r.num.log2 : Int) - r.den.log2) * 30103 / 100000
  ([guess, guess - 1, guess + 1].find? (r.isExponent 10)).getD r.countedExponentTen

/-- The exponent of the greatest power of two that is at most a positive quotient. -/
def exponentTwo (r : Ratio) : Int :=
  let above : Int := (r.num.log2 : Int) - r.den.log2
  if r.hasPow 2 above then above else above - 1

/-- A positive quotient rounded to `count` significant decimal digits: the digits as one number
with `count` digits, and the exponent of the first of them. -/
def significant (r : Ratio) (count : Nat) : Nat × Int :=
  let exponent := r.exponentTen
  let digits := (r.mulPow 10 (count - 1 - exponent)).round
  if digits = Nat.pow 10 count then (Nat.pow 10 (count - 1), exponent + 1) else (digits, exponent)

/-- A quotient with exactly `places` decimal places, rounded to the nearest. -/
def fixed (r : Ratio) (places : Nat) : List Char :=
  let scaled := (r.mulPow 10 places).round
  let digits := (Nat.toDigits 10 scaled).leftpad (places + 1) '0'
  let whole := digits.take (digits.length - places)
  if places = 0 then whole else whole ++ '.' :: digits.drop (digits.length - places)

/-- A quotient as a mantissa with exactly `places` decimal places, rounded to the nearest, and the power
of ten it is scaled by. Zero is scaled by the power zero. -/
def scientific (r : Ratio) (places : Nat) : List Char × Int :=
  let (digits, exponent) := if r.num = 0 then (0, 0) else r.significant (places + 1)
  (fixed ⟨digits, Nat.pow 10 places⟩ places, exponent)

end Ratio

end StackBytecode.Number
