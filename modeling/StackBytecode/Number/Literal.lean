import StackBytecode.Number.Double

/-!
# Number literals

The grammar of numbers in source text: an optional sign, then `nan`, `inf` or `infinity` in any
ASCII case, or digits with an optional point and an optional exponent, at least one digit standing
before the exponent. Bounded natural numbers have a grammar of their own: digits after an optional
plus sign.
-/

namespace StackBytecode.Number

/-- Whether a text consists of decimal digits, at least one. -/
def isNumeral (text : List Char) : Bool := !text.isEmpty && text.all Char.isDigit

/-- Reads a natural number below a bound: digits after an optional plus sign. -/
def readBelow? (bound : Nat) (text : List Char) : Option Nat :=
  let digits := match text with
    | '+' :: rest => rest
    | _ => text
  if isNumeral digits then
    let n := Nat.ofDigitChars 10 digits 0
    if n < bound then some n else none
  else none

/-- A number as it is written. -/
inductive Literal
  | nan (negative : Bool)
  | infinite (negative : Bool)
  /-- The number `significand * 10 ^ exponent` with a sign. -/
  | decimal (negative : Bool) (significand : Nat) (exponent : Int)
  deriving DecidableEq, Repr

namespace Literal

/-- Splits an optional sign off, with whether it is a minus. -/
def splitSign : List Char → Bool × List Char
  | '-' :: rest => (true, rest)
  | '+' :: rest => (false, rest)
  | text => (false, text)

/-- Reads the name of a number that has no digits. -/
def ofName? (negative : Bool) (text : List Char) : Option Literal :=
  let name := text.map Char.toLower
  if name = ['n', 'a', 'n'] then some (.nan negative)
  else if name = ['i', 'n', 'f'] ∨ name = ['i', 'n', 'f', 'i', 'n', 'i', 't', 'y'] then
    some (.infinite negative)
  else none

/-- The size of an exponent. From 65536 on further digits are passed over: only a significand of
as many digits could still bring such a number into the range of a double. -/
def exponentSize (digits : List Char) : Nat :=
  digits.foldl (fun n c => if n < 65536 then 10 * n + (c.toNat - '0'.toNat) else n) 0

/-- Reads an optional exponent, which ends the text. -/
def readExponent? : List Char → Option Int
  | [] => some 0
  | mark :: rest =>
    let (negative, digits) := splitSign rest
    if mark.toLower = 'e' ∧ isNumeral digits then
      some (if negative then -(exponentSize digits : Int) else exponentSize digits)
    else none

/-- Reads digits with an optional point and an optional exponent. -/
def ofDigits? (negative : Bool) (text : List Char) : Option Literal :=
  let whole := text.takeWhile Char.isDigit
  let afterWhole := text.dropWhile Char.isDigit
  let (fraction, rest) := match afterWhole with
    | '.' :: more => (more.takeWhile Char.isDigit, more.dropWhile Char.isDigit)
    | _ => ([], afterWhole)
  if (whole ++ fraction).isEmpty then none
  else (readExponent? rest).map fun exponent =>
    .decimal negative (Nat.ofDigitChars 10 (whole ++ fraction) 0) (exponent - fraction.length)

/-- Reads a number. -/
def ofText? (text : List Char) : Option Literal :=
  let (negative, body) := splitSign text
  (ofDigits? negative body).or (ofName? negative body)

/-- The bits of the double nearest to `significand * 10 ^ exponent`. Numbers from `10 ^ 309` on
are infinite and numbers below `10 ^ (-330)` are zero, so that no greater power is computed. -/
def decimalBits (significand : Nat) (exponent : Int) : Nat :=
  let top := (Ratio.digitCount significand : Int) + exponent
  if significand = 0 ∨ top ≤ -330 then 0
  else if 310 ≤ top then Double.infinityBits
  else Double.magnitudeBits (Double.nearest (Ratio.mulPow ⟨significand, 1⟩ 10 exponent))

/-- The bits of the double that a literal stands for. What is not a number has the first bit of the
fraction set and no other. -/
def bits : Literal → UInt64
  | .nan negative => Double.withSign negative (Double.infinityBits + 0x8000000000000)
  | .infinite negative => Double.withSign negative Double.infinityBits
  | .decimal negative significand exponent =>
    Double.withSign negative (decimalBits significand exponent)

end Literal

end StackBytecode.Number
