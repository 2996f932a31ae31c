import StackBytecode.Number.Layout
import StackBytecode.Number.Literal
import StackBytecode.Number.Shortest

/-!
# Values

The numbers that the machine computes with: the sixty-four bits of doubles, with the arithmetic,
the comparison and the equality that IEEE gives to them, a reader for source text, and the text
with six significant digits that listings and results show.

Among the bits are many that are no number, and they are kept as they are. Only an operation whose
result is no number gives the same bits every time, where IEEE leaves the choice of them open.
-/

namespace StackBytecode

open Number

/-- A number of the machine: the bits of a double. -/
structure Value where
  ofBits ::
  toBits : UInt64
  deriving DecidableEq, Inhabited

namespace Value

/-- The number that a value is. The bits of what is no number do not tell in arithmetic. -/
def number (v : Value) : Float := Float.ofBits v.toBits

/-- The value of a number. -/
def ofNumber (x : Float) : Value := ofBits x.toBits

/-- Two values are `==` as IEEE numbers: the zeros are equal, and what is not a number differs from
everything. -/
instance : BEq Value := ⟨fun a b => a.number == b.number⟩

/-- The natural number `n` as a value, rounded to the nearest. -/
def ofNat (n : Nat) : Value := ofBits (Literal.bits (.decimal false n 0))

/-- What a value stands for. -/
def double (v : Value) : Double := Double.ofBits v.toBits

/-- Reads a value from the text of a number. -/
def ofText? (text : List Char) : Option Value := (Literal.ofText? text).map fun l => ofBits l.bits

/-- Addition. -/
def add (a b : Value) : Value := ofNumber (a.number + b.number)

/-- Subtraction. -/
def sub (a b : Value) : Value := ofNumber (a.number - b.number)

/-- Multiplication. -/
def mul (a b : Value) : Value := ofNumber (a.number * b.number)

/-- Division. -/
def div (a b : Value) : Value := ofNumber (a.number / b.number)

/-- The value with its sign changed, also when it is not a number. -/
def neg (a : Value) : Value := ofBits (a.toBits ^^^ 0x8000000000000000)

/-- The order of two values; there is none when one of them is not a number. -/
def compare? (a b : Value) : Option Ordering :=
  if a.number < b.number then some .lt
  else if b.number < a.number then some .gt
  else if a.number == b.number then some .eq
  else none

/-- Significant digits that a text shows. -/
def textDigits : Nat := 6

/-- Exponents from -4 to 5 are written positionally, zeros at the end of a fraction are left out,
and an exponent has at least two digits. -/
def textLayout : Layout := { lowest := -4, highest := 5, marksWhole := false, exponentWidth := 2 }

/-- The text of a magnitude. It is brought to the digits that are shown twice: first in scientific
notation, since only the rounded number tells the exponent, then with the decimal places which that
exponent leaves. -/
def magnitudeText (d : Magnitude) : List Char :=
  let (mantissa, exponent) := d.ratio.scientific (textDigits - 1)
  if textLayout.lowest ≤ exponent ∧ exponent ≤ textLayout.highest then
    trimFraction (d.ratio.fixed (textDigits - 1 - exponent).toNat)
  else trimFraction mantissa ++ 'e' :: textLayout.exponentPart exponent

/-- A text with a minus sign in front when the flag says so. -/
def signed (negative : Bool) (text : List Char) : List Char := if negative then '-' :: text else text

/-- The text of a value, with six significant digits. -/
def text (v : Value) : String :=
  match v.double with
  | .nan _ => "nan"
  | .infinite negative => String.ofList (signed negative ['i', 'n', 'f'])
  | .finite negative d => String.ofList (signed negative (magnitudeText d))

end Value

end StackBytecode
