import Mathlib.Algebra.BigOperators.Group.List.Basic
import Mathlib.Algebra.GroupWithZero.Nat
import Mathlib.Data.Nat.Log
import StackBytecode.Buffer

/-!
# Growths of one buffer

What growing costs a buffer that is filled item by item. Its growths are its first storage and then
doublings, each of them by the append that exceeds the capacity. A capacity was left behind only for
more items than it holds, so all the capacities left behind, which is what was moved to new storage,
add up to less than twice the number of items.

The invariant says which doublings there were: those of the capacities that the size exceeds. An
append that fits changes nothing in this, and one that does not adds the next doubling.
-/

namespace StackBytecode

namespace Growth

/-- The capacities before and after each growth: the first storage, and so many doublings of it. -/
def doublings (count : Nat) : List (Nat × Nat) :=
  (0, leastCapacity) ::
    (List.range count).map fun k => (leastCapacity * 2 ^ k, leastCapacity * 2 ^ (k + 1))

/-- By these growths a buffer came to its size and its capacity. -/
inductive Grown : Nat → Nat → List (Nat × Nat) → Prop
  | empty : Grown 0 0 []
  | doubled {size : Nat} (count : Nat) (hpos : 0 < size) (hroom : size ≤ leastCapacity * 2 ^ count)
      (hneeded : ∀ k < count, leastCapacity * 2 ^ k < size) :
      Grown size (leastCapacity * 2 ^ count) (doublings count)

/-- What the growths of a buffer of some size and capacity are, and what they cost. -/
structure IsAmortized (size capacity : Nat) (growths : List (Nat × Nat)) : Prop where
  /-- A buffer without items has not grown. -/
  of_empty : size = 0 → capacity = 0 ∧ growths = []
  /-- Any other has grown to its first storage and then doubled up to its capacity. -/
  of_pos : 0 < size → ∃ count, capacity = leastCapacity * 2 ^ count ∧ growths = doublings count
  /-- The capacities before the growths add up to nothing in a buffer without items. -/
  sum_of_empty : size = 0 → (growths.map Prod.fst).sum = 0
  /-- In any other they add up to less than twice its size. -/
  sum_of_pos : 0 < size → (growths.map Prod.fst).sum < 2 * size
  /-- The logarithm of the capacity exceeds the number of growths by two at least. -/
  length_le : 0 < capacity → growths.length + 2 ≤ Nat.log 2 capacity

/-- A doubling takes twice the capacity. -/
theorem leastCapacity_mul_two_pow_succ (count : Nat) :
    leastCapacity * 2 ^ (count + 1) = 2 * (leastCapacity * 2 ^ count) := by
  rw [Nat.pow_succ, Nat.mul_comm (2 ^ count), Nat.mul_left_comm]

/-- One more doubling comes last. -/
theorem doublings_succ (count : Nat) :
    doublings (count + 1) =
      doublings count ++ [(leastCapacity * 2 ^ count, leastCapacity * 2 ^ (count + 1))] := by
  rw [doublings, doublings, List.range_succ, List.map_append, List.map_singleton, List.cons_append]

example : doublings 2 = [(0, 8), (8, 16), (16, 32)] := rfl

/-- There is one growth more than there are doublings. -/
theorem length_doublings (count : Nat) : (doublings count).length = count + 1 := by
  rw [doublings, List.length_cons, List.length_map, List.length_range]

/-- The capacities before the growths and the first one after them add up to the last. -/
theorem sum_fst_doublings (count : Nat) :
    ((doublings count).map Prod.fst).sum + leastCapacity = leastCapacity * 2 ^ count := by
  induction count with
  | zero => rfl
  | succ count ih =>
    rw [doublings_succ, List.map_append, List.sum_append, List.map_singleton, List.sum_singleton,
      leastCapacity_mul_two_pow_succ]
    omega

/-- A capacity in the lower half of a word is doubled. -/
theorem next_mul_two_pow {count : Nat} (h : leastCapacity * 2 ^ count < 2 ^ 63) :
    next (leastCapacity * 2 ^ count) = leastCapacity * 2 ^ (count + 1) := by
  have hleast : leastCapacity ≤ leastCapacity * 2 ^ count :=
    Nat.le_mul_of_pos_right _ (Nat.two_pow_pos count)
  rw [next, if_neg (Nat.not_lt.mpr hleast), leastCapacity_mul_two_pow_succ, greatestCapacity,
    UInt64.size]
  omega

/-- Growing makes room, unless a word can hold no greater capacity. -/
theorem lt_next {capacity : Nat} (h : capacity < greatestCapacity) : capacity < next capacity := by
  unfold next leastCapacity
  split <;> omega

namespace Grown

variable {size capacity : Nat} {growths : List (Nat × Nat)}

/-- The items have room. -/
theorem size_le (h : Grown size capacity growths) : size ≤ capacity := by
  cases h with
  | empty => exact Nat.le_refl 0
  | doubled count hpos hroom hneeded => exact hroom

/-- An append that fits is not among the growths. -/
theorem succ_of_lt (h : Grown size capacity growths) (hroom : size < capacity) :
    Grown (size + 1) capacity growths := by
  cases h with
  | empty => exact absurd hroom (Nat.lt_irrefl 0)
  | doubled count hpos _ hneeded =>
    exact .doubled count (Nat.succ_pos size) hroom fun k hk => Nat.lt_succ_of_lt (hneeded k hk)

/-- An append to a full buffer is one more growth. -/
theorem succ_of_full (h : Grown size capacity growths) (hfull : size = capacity)
    (hsize : size < 2 ^ 63) :
    Grown (size + 1) (next capacity) (growths ++ [(capacity, next capacity)]) := by
  cases h with
  | empty => exact .doubled 0 (Nat.succ_pos 0) (by decide) (by simp)
  | doubled count hpos hroom hneeded =>
    rw [next_mul_two_pow (hfull ▸ hsize), ← doublings_succ]
    refine .doubled (count + 1) (Nat.succ_pos size) ?_ ?_
    · rw [leastCapacity_mul_two_pow_succ]
      omega
    · intro k hk
      rcases Nat.lt_succ_iff_lt_or_eq.mp hk with hk | rfl
      · exact Nat.lt_succ_of_lt (hneeded k hk)
      · omega

/-- The growths of a buffer are as promised. -/
theorem isAmortized (h : Grown size capacity growths) : IsAmortized size capacity growths := by
  cases h with
  | empty => exact ⟨by simp, by simp, by simp, by simp, by simp⟩
  | doubled count hpos hroom hneeded =>
    have hsum := sum_fst_doublings count
    have hlog : Nat.log 2 (leastCapacity * 2 ^ count) = count + 3 := by
      have hpow : leastCapacity * 2 ^ count = 2 ^ (count + 3) := by
        rw [Nat.pow_add, Nat.mul_comm]
        rfl
      rw [hpow, Nat.log_pow Nat.one_lt_two]
    refine ⟨by omega, fun _ => ⟨count, rfl, rfl⟩, by omega, fun _ => ?_, fun _ => ?_⟩
    · cases count with
      | zero => simpa [doublings] using hpos
      | succ count =>
        -- the last capacity left behind was too small
        have hlast := hneeded count (Nat.lt_succ_self count)
        rw [leastCapacity_mul_two_pow_succ] at hsum
        have hleast : 0 < leastCapacity := by decide
        omega
    · rw [length_doublings, hlog]

end Grown

end Growth

namespace Buffer

variable {α : Type}

/-- An append to a buffer and the growth it brings: none if the item fits into the capacity, which
stays, and otherwise one from the capacity before to that after. -/
inductive Appends (b : Buffer α) (item : α) : Option (Nat × Nat) → Prop
  | fits (hroom : (b.push item).size ≤ b.capacity) (hcapacity : (b.push item).capacity = b.capacity) :
      Appends b item none
  | grows (hexceeds : b.capacity < (b.push item).size) :
      Appends b item (some (b.capacity, (b.push item).capacity))

/-- A full buffer grows by the policy. -/
theorem capacity_push_of_eq {b : Buffer α} (h : b.size = b.capacity) (item : α) :
    (b.push item).capacity = Growth.next b.capacity := if_pos h

/-- A buffer with room does not grow. -/
theorem capacity_push_of_lt {b : Buffer α} (h : b.size < b.capacity) (item : α) :
    (b.push item).capacity = b.capacity := if_neg (Nat.ne_of_lt h)

/-- An append keeps the items within the capacity. -/
theorem size_push_le_capacity {b : Buffer α} (h : b.size ≤ b.capacity) (hsize : b.size < 2 ^ 63)
    (item : α) : (b.push item).size ≤ (b.push item).capacity := by
  rw [size_push]
  rcases Nat.lt_or_eq_of_le h with hroom | hfull
  · rwa [capacity_push_of_lt hroom]
  · rw [capacity_push_of_eq hfull, ← hfull]
    exact Growth.lt_next (by rw [Growth.greatestCapacity, UInt64.size]; omega)

/-- The growth that is told before a write is the growth that it brings. -/
theorem appends_growth? {b : Buffer α} (h : b.size ≤ b.capacity) (item : α) :
    b.Appends item b.growth? := by
  rcases Nat.lt_or_eq_of_le h with hroom | hfull
  · rw [growth?, if_neg (Nat.ne_of_lt hroom)]
    exact .fits (by rwa [size_push]) (capacity_push_of_lt hroom item)
  · rw [growth?, if_pos hfull, ← capacity_push_of_eq hfull item]
    exact .grows (by rw [size_push, hfull]; exact Nat.lt_succ_self _)

/-- The growth that an append brings comes after those that the buffer had. -/
theorem Appends.grown {b : Buffer α} {item : α} {growth : Option (Nat × Nat)}
    {growths : List (Nat × Nat)} (happends : b.Appends item growth)
    (h : Growth.Grown b.size b.capacity growths) (hsize : b.size < 2 ^ 63) :
    Growth.Grown (b.push item).size (b.push item).capacity (growths ++ growth.toList) := by
  cases happends with
  | fits hroom hcapacity =>
    rw [size_push] at hroom ⊢
    rw [hcapacity, Option.toList_none, List.append_nil]
    exact h.succ_of_lt hroom
  | grows hexceeds =>
    rw [size_push] at hexceeds ⊢
    have hfull : b.size = b.capacity := Nat.le_antisymm h.size_le (Nat.le_of_lt_succ hexceeds)
    rw [capacity_push_of_eq hfull, Option.toList_some]
    exact h.succ_of_full hfull hsize

end Buffer

end StackBytecode
