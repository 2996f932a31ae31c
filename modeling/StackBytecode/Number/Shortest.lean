import StackBytecode.Number.Double

/-!
# Shortest decimals

The decimal with the fewest digits that a given positive double is nearest to, and of several with
as many digits the one nearest to the double. Seventeen digits are always enough.
-/

namespace StackBytecode.Number.Shortest

/-- The reals that round to a double, in quarters of its last place, with the double itself. The
ends belong to it when its mantissa is even. -/
structure Interval where
  low : Nat
  value : Nat
  high : Nat
  closed : Bool

/-- The interval of a double. Below a power of two the doubles lie twice as close. -/
def interval (d : Magnitude) : Interval :=
  let narrow := d.mantissa = 0x10000000000000 ∧ d.exponent ≠ Double.leastExponent
  { low := 4 * d.mantissa - if narrow then 1 else 2
    value := 4 * d.mantissa
    high := 4 * d.mantissa + 2
    closed := d.mantissa % 2 = 0 }

/-- Whether `n` steps of a decimal grid fall into the interval, where one quarter of the last
place is `scale` steps. -/
def Interval.contains (i : Interval) (scale : Ratio) (n : Nat) : Bool :=
  if i.closed then i.low * scale.num ≤ n * scale.den && n * scale.den ≤ i.high * scale.num
  else i.low * scale.num < n * scale.den && n * scale.den < i.high * scale.num

/-- The point of a decimal grid in the interval that is nearest to the double, if there is one. -/
def hit? (i : Interval) (scale : Ratio) : Option Nat :=
  let below := i.value * scale.num / scale.den
  let nearest := roundDiv (i.value * scale.num) scale.den
  if i.contains scale nearest then some nearest
  else if i.contains scale below then some below
  else if i.contains scale (below + 1) then some (below + 1)
  else none

/-- The shortest decimal of a positive double: its digits as a number, and the exponent of the
last digit. -/
def decimal (d : Magnitude) : Nat × Int :=
  let top := d.ratio.exponentTen
  let found := (List.range 17).findSome? fun (more : Nat) =>
    let last := top - (more : Int)
    (hit? (interval d) (Ratio.mulPow (Ratio.mulPow ⟨1, 4⟩ 2 d.exponent) 10 (-last))).map (·, last)
  found.getD (0, 0)

end StackBytecode.Number.Shortest
