import StackBytecode.Number.Ratio

/-!
# Doubles as exact numbers

The sixty-four bits of a double are taken apart into a sign and `mantissa * 2 ^ exponent`, and a
quotient is brought to the double nearest to it, ties going to the even mantissa. Nothing here
uses floating-point arithmetic.
-/

namespace StackBytecode.Number

/-- The nonnegative number `mantissa * 2 ^ exponent`. -/
structure Magnitude where
  mantissa : Nat
  exponent : Int
  deriving DecidableEq, Repr

/-- A magnitude as a quotient. -/
def Magnitude.ratio (d : Magnitude) : Ratio := Ratio.mulPow ⟨d.mantissa, 1⟩ 2 d.exponent

/-- What a double stands for. What is not a number has a sign as well. -/
inductive Double
  | nan (negative : Bool)
  | infinite (negative : Bool)
  | finite (negative : Bool) (magnitude : Magnitude)
  deriving DecidableEq, Repr

namespace Double

/-- The exponent of the last place of the smallest doubles. -/
def leastExponent : Int := -1074

/-- The bits of positive infinity; greater ones without a sign are no number. -/
def infinityBits : Nat := 0x7FF0000000000000

/-- Takes the bits of a double apart: one of sign, eleven of exponent, fifty-two of fraction. -/
def ofBits (bits : UInt64) : Double :=
  let negative : Bool := 0x8000000000000000 ≤ bits.toNat
  let field : Nat := bits.toNat / 0x10000000000000 % 0x800
  let fraction : Nat := bits.toNat % 0x10000000000000
  if field = 2047 then if fraction = 0 then .infinite negative else .nan negative
  else if field = 0 then .finite negative ⟨fraction, leastExponent⟩
  else .finite negative ⟨0x10000000000000 + fraction, (field : Int) - 1075⟩

/-- The exponent of the last place that a double near a positive quotient has. -/
def lastPlace (r : Ratio) : Int := max (r.exponentTwo - 52) leastExponent

/-- The magnitude nearest to a quotient among those with at most fifty-three bits. -/
def nearest (r : Ratio) : Magnitude :=
  if r.num = 0 then ⟨0, leastExponent⟩
  else ⟨(r.mulPow 2 (-lastPlace r)).round, lastPlace r⟩

/-- The bits of a nonnegative magnitude in the form that `nearest` gives it. A mantissa of
fifty-three bits carries its first one into the exponent field, and what is too great is infinite. -/
def magnitudeBits (d : Magnitude) : Nat :=
  min ((d.exponent - leastExponent).toNat * 0x10000000000000 + d.mantissa) infinityBits

/-- The bits of a magnitude with a sign in front. -/
def withSign (negative : Bool) (magnitude : Nat) : UInt64 :=
  UInt64.ofNat (if negative then 0x8000000000000000 + magnitude else magnitude)

end Double

end StackBytecode.Number
