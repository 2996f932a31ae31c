import StackBytecode.Number.Double

/-!
# Durations

A duration is shown in milliseconds below one second, in seconds with three places below one
minute, and otherwise in minutes and seconds with one place. Seconds are counted as a double, so
each step of the computation is brought to the nearest double; the unit is chosen before the
figures are rounded.
-/

namespace StackBytecode

open Number

/-- Nanoseconds in a second. -/
def Duration.nanosPerSecond : Nat := 1000000000

/-- A length of time: whole seconds in a word, and what is left of a second. -/
structure Duration where
  seconds : UInt64
  nanoseconds : Nat
  nanoseconds_lt : nanoseconds < Duration.nanosPerSecond
  deriving DecidableEq, Repr

namespace Duration

/-- The duration of seconds and nanoseconds together. Every full second among the nanoseconds
counts as a second; there is no duration when a word cannot hold the seconds. -/
def ofParts? (seconds nanoseconds : Nat) : Option Duration :=
  let total := seconds + nanoseconds / nanosPerSecond
  if total < UInt64.size then
    some ⟨UInt64.ofNat total, nanoseconds % nanosPerSecond, Nat.mod_lt _ (by decide)⟩
  else none

/-- The duration of a number of nanoseconds. -/
def ofNanoseconds (n : UInt64) : Duration :=
  ⟨UInt64.ofNat (n.toNat / nanosPerSecond), n.toNat % nanosPerSecond, Nat.mod_lt _ (by decide)⟩

/-- The double nearest to a quotient, as a quotient. -/
def asDouble (r : Ratio) : Ratio := (Double.nearest r).ratio

/-- Whole milliseconds. -/
def milliseconds (d : Duration) : Nat := d.seconds.toNat * 1000 + d.nanoseconds / 1000000

/-- The seconds of a duration as a double: the sum of two doubles, for the whole and the fraction. -/
def secondsDouble (d : Duration) : Ratio :=
  asDouble (Ratio.add (asDouble ⟨d.seconds.toNat, 1⟩) (asDouble ⟨d.nanoseconds, nanosPerSecond⟩))

/-- The difference of two doubles as a sign and a double. -/
def difference (a b : Ratio) : Bool × Ratio :=
  let left := a.num * b.den
  let right := b.num * a.den
  if right ≤ left then (false, asDouble ⟨left - right, a.den * b.den⟩)
  else (true, asDouble ⟨right - left, a.den * b.den⟩)

/-- The text of a duration. -/
def text (d : Duration) : String :=
  if d.milliseconds < 1000 then d.milliseconds.repr ++ " ms"
  else
    let s := d.secondsDouble
    if s.num < 60 * s.den then String.ofList (s.fixed 3) ++ " s"
    else
      let minutes := (asDouble (s.divNat 60)).floor
      let (negative, rest) := difference s (asDouble ⟨minutes * 60, 1⟩)
      minutes.repr ++ " min " ++ (if negative then "-" else "") ++ String.ofList (rest.fixed 1) ++ " s"

end Duration

end StackBytecode
