/-!
# Growth of buffers

The capacity of a buffer is part of what a chunk shows, so it follows a fixed policy: nothing
until the first write, then eight, then twice as much each time the buffer is full.
-/

namespace StackBytecode.Growth

/-- The capacity after the first growth. -/
def leastCapacity : Nat := 8

/-- The greatest capacity that a word can hold. -/
def greatestCapacity : Nat := UInt64.size - 1

/-- The capacity that follows a full one. -/
def next (capacity : Nat) : Nat :=
  if capacity < leastCapacity then leastCapacity else min (2 * capacity) greatestCapacity

/-- Why a buffer cannot grow. -/
inductive Fault
  /-- No allocation can be that large. -/
  | capacityOverflow (requested : Nat)
  /-- The allocation was refused. -/
  | allocationFailed (requested bytes : Nat)
  deriving DecidableEq, Repr

/-- The text of a growth fault. -/
def Fault.message : Fault → String
  | .capacityOverflow requested => s!"capacity overflow: cannot hold {requested} elements"
  | .allocationFailed requested bytes => s!"allocation of {bytes} bytes failed (capacity {requested})"

/-- Growing never shrinks a buffer whose capacity a word can hold. -/
theorem le_next {capacity : Nat} (h : capacity ≤ greatestCapacity) : capacity ≤ next capacity := by
  unfold next leastCapacity
  split <;> omega

end StackBytecode.Growth
