import StackBytecode.Text.Columns

/-!
# Layouts of decimal numbers

Significant digits and the exponent of the first of them, written out positionally or with an
exponent. A `Layout` holds what a format decides; the digits are chosen elsewhere.
-/

namespace StackBytecode.Number

/-- The decisions of a decimal format. -/
structure Layout where
  /-- The least exponent that is written positionally. -/
  lowest : Int
  /-- The greatest exponent that is written positionally. -/
  highest : Int
  /-- Whether a whole number in positional form ends in a point and a zero. -/
  marksWhole : Bool
  /-- The least number of digits of a written exponent. -/
  exponentWidth : Nat

/-- Digits without the zeros at their end. -/
def trimZeros (digits : List Char) : List Char := (digits.reverse.dropWhile (· == '0')).reverse

/-- A number in positional notation without the zeros at the end of its fraction, and without its point
if they were all of the fraction. -/
def trimFraction (text : List Char) : List Char :=
  if text.contains '.' then ((trimZeros text).reverse.dropWhile (· == '.')).reverse else text

namespace Layout

/-- A fraction after its point; nothing, or one zero, for an empty fraction. -/
def fraction (layout : Layout) : List Char → List Char
  | [] => if layout.marksWhole then ['.', '0'] else []
  | digits => '.' :: digits

/-- Positional notation of digits whose first has the given exponent. -/
def positional (layout : Layout) (digits : List Char) : Int → List Char
  | .ofNat n => (digits.take (n + 1)).rightpad (n + 1) '0' ++ layout.fraction (digits.drop (n + 1))
  | .negSucc n => '0' :: layout.fraction (List.replicate n '0' ++ digits)

/-- The sign and the digits of an exponent. -/
def exponentPart (layout : Layout) (exponent : Int) : List Char :=
  (if exponent < 0 then '-' else '+') ::
    (Text.zeroPadded layout.exponentWidth exponent.natAbs).toList

/-- Notation with one digit before the point and an exponent. -/
def scientific (layout : Layout) (digits : List Char) (exponent : Int) : List Char :=
  let rest := digits.drop 1
  digits.take 1 ++ (if rest.isEmpty then [] else '.' :: rest) ++ 'e' :: layout.exponentPart exponent

/-- Digits without zeros at their end, in the notation that fits their exponent. -/
def write (layout : Layout) (digits : List Char) (exponent : Int) : List Char :=
  if layout.lowest ≤ exponent ∧ exponent ≤ layout.highest then layout.positional digits exponent
  else layout.scientific digits exponent

end Layout

end StackBytecode.Number
