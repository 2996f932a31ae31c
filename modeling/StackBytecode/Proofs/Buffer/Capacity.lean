import Mathlib.Algebra.Group.Nat.Defs
import Mathlib.Data.List.Forall2
import Mathlib.Data.List.Induction
import Mathlib.Data.Nat.Log
import Mathlib.Order.Bounds.Basic
import StackBytecode.Buffer

/-!
# Capacity as a function of size

A buffer that was filled item by item has a capacity that its size alone determines,
however often it grew on the way: none for no items, and else the least power of two that
holds them, but at least eight. The step is that of one growth. A full buffer of eight
items or more holds a power of two of them, and doubling gives the next power; the words
that hold capacities are wide enough as long as sizes stay below half of their range.

So two such buffers are equal exactly when their items are.
-/

namespace StackBytecode

namespace Growth

/-- The capacity that the policy gives to a size: none for no items, and else the least power of
two that is no smaller, but at least eight. -/
def capacityFor (size : Nat) : Nat :=
  if size = 0 then 0 else max leastCapacity (2 ^ Nat.clog 2 size)

/-- The capacity after so many writes to an empty buffer, growing whenever it is full. -/
def afterWrites : Nat → Nat
  | 0 => 0
  | count + 1 => if count = afterWrites count then next (afterWrites count) else afterWrites count

/-- The power in the policy is the least power of two that is no smaller than the size. -/
theorem isLeast_two_pow_clog (size : Nat) :
    IsLeast {power | power.isPowerOfTwo ∧ size ≤ power} (2 ^ Nat.clog 2 size) := by
  refine ⟨⟨⟨_, rfl⟩, Nat.le_pow_clog Nat.one_lt_two size⟩, ?_⟩
  intro power hpower
  obtain ⟨⟨k, rfl⟩, hsize⟩ := hpower
  exact Nat.pow_le_pow_right Nat.two_pos (Nat.clog_le_of_le_pow hsize)

/-- Up to eight items fit into the first storage. -/
theorem capacityFor_of_le {size : Nat} (hpos : 0 < size) (hsize : size ≤ leastCapacity) :
    capacityFor size = leastCapacity := by
  have hpow : 2 ^ Nat.clog 2 size ≤ leastCapacity :=
    Nat.pow_le_pow_right Nat.two_pos (Nat.clog_le_of_le_pow (y := 3) hsize)
  rw [capacityFor, if_neg (by omega), max_eq_left hpow]

/-- From eight items on the capacity is the power of two itself. -/
theorem capacityFor_of_ge {size : Nat} (hsize : leastCapacity ≤ size) :
    capacityFor size = 2 ^ Nat.clog 2 size := by
  have hle : size ≤ 2 ^ Nat.clog 2 size := Nat.le_pow_clog Nat.one_lt_two size
  have hpos : 0 < leastCapacity := by decide
  rw [capacityFor, if_neg (by omega), max_eq_right (hsize.trans hle)]

/-- One more item makes a full buffer grow by the policy and leaves any other as it is. -/
theorem capacityFor_succ {size : Nat} (hsize : size + 1 < 2 ^ 63) :
    capacityFor (size + 1) =
      if size = capacityFor size then next (capacityFor size) else capacityFor size := by
  have hleast : leastCapacity = 8 := rfl
  rcases Nat.eq_zero_or_pos size with rfl | hpos
  · rfl
  rcases Nat.lt_or_ge size leastCapacity with hlow | hhigh
  · rw [capacityFor_of_le hpos hlow.le, capacityFor_of_le (Nat.succ_pos size) hlow,
      if_neg hlow.ne]
  rw [capacityFor_of_ge hhigh, capacityFor_of_ge (hhigh.trans (Nat.le_succ size))]
  by_cases hfull : size = 2 ^ Nat.clog 2 size
  · -- the size is a power of two, so one item more needs the next power
    have hdouble : Nat.clog 2 (size + 1) = Nat.clog 2 size + 1 := by
      apply le_antisymm
      · apply Nat.clog_le_of_le_pow
        rw [Nat.pow_succ, ← hfull]
        omega
      · exact (Nat.clog_lt_clog_succ_iff Nat.one_lt_two).mpr hfull.symm
    rw [if_pos hfull, hdouble, Nat.pow_succ, ← hfull, next, if_neg (by omega), greatestCapacity,
      UInt64.size]
    omega
  · rw [if_neg hfull, (Nat.clog_eq_clog_succ_iff Nat.one_lt_two).mpr fun h => hfull h.symm]

/-- Growing when full follows the policy. -/
theorem afterWrites_eq {count : Nat} (h : count < 2 ^ 63) : afterWrites count = capacityFor count := by
  induction count with
  | zero => rfl
  | succ count ih => rw [afterWrites, ih (by omega), capacityFor_succ h]

end Growth

namespace Buffer

variable {α : Type}

/-- The buffer that holds items written one after the other. -/
def ofList (items : List α) : Buffer α := items.foldl push empty

@[simp] theorem ofList_nil : (ofList [] : Buffer α) = empty := rfl

theorem ofList_concat (items : List α) (item : α) :
    ofList (items ++ [item]) = (ofList items).push item := by
  rw [ofList, ofList, List.foldl_append, List.foldl_cons, List.foldl_nil]

@[simp] theorem toList_ofList (items : List α) : (ofList items).toList = items := by
  induction items using List.reverseRecOn with
  | nil => rfl
  | append_singleton items item ih => rw [ofList_concat, toList_push, ih]

@[simp] theorem size_ofList (items : List α) : (ofList items).size = items.length := by
  rw [← length_toList, toList_ofList]

/-- A buffer that was filled item by item has the capacity of so many writes. -/
theorem capacity_ofList (items : List α) :
    (ofList items).capacity = Growth.afterWrites items.length := by
  induction items using List.reverseRecOn with
  | nil => rfl
  | append_singleton items item ih =>
    rw [ofList_concat, List.length_append, List.length_singleton, Growth.afterWrites, ← ih,
      ← size_ofList items]
    rfl

/-- Lists compare equal exactly when their items do, in turn. -/
theorem beq_list_iff [BEq α] {items others : List α} :
    (items == others) = true ↔ List.Forall₂ (fun a b => (a == b) = true) items others := by
  induction items generalizing others with
  | nil => cases others <;> simp
  | cons a items ih => cases others <;> simp [ih]

/-- Buffers that were filled item by item compare equal exactly when their items do, in turn. -/
theorem beq_ofList_iff [BEq α] {items others : List α} :
    (ofList items == ofList others) = true ↔ List.Forall₂ (fun a b => (a == b) = true) items others := by
  have hbeq : (ofList items == ofList others) =
      (((ofList items).toList == (ofList others).toList) &&
        (ofList items).capacity == (ofList others).capacity) := by
    rw [toList, toList, Array.beq_toList]
    rfl
  rw [hbeq, toList_ofList, toList_ofList, Bool.and_eq_true, beq_list_iff, and_iff_left_of_imp]
  intro h
  rw [capacity_ofList, capacity_ofList, h.length_eq]
  exact beq_self_eq_true _

end Buffer

end StackBytecode
