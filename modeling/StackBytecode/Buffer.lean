import StackBytecode.Growth

/-!
# Buffers

Append-only sequences that track their capacity. The view of a buffer is the list of its items;
each operation is described by what it does to that view and to the capacity.
-/

namespace StackBytecode

/-- Items in the order of their writing, and the capacity reserved for them. -/
structure Buffer (α : Type) where
  items : Array α := #[]
  capacity : Nat := 0
  deriving DecidableEq, BEq, Repr

namespace Buffer

variable {α : Type}

/-- The buffer without items and without storage. -/
def empty : Buffer α := {}

/-- The number of items. -/
def size (b : Buffer α) : Nat := b.items.size

/-- The items, first to last. -/
def toList (b : Buffer α) : List α := b.items.toList

/-- The item at an index, if there is one. -/
def get? (b : Buffer α) (index : Nat) : Option α := b.items[index]?

/-- The capacities before and after the growth that the next write brings, if it brings one. -/
def growth? (b : Buffer α) : Option (Nat × Nat) :=
  if b.size = b.capacity then some (b.capacity, Growth.next b.capacity) else none

/-- The capacity after the next write. -/
def nextCapacity (b : Buffer α) : Nat :=
  if b.size = b.capacity then Growth.next b.capacity else b.capacity

/-- Appends an item, growing the buffer when it is full. The capacity comes first, so that the
items are held by nothing else when they are appended to. -/
def push (b : Buffer α) (item : α) : Buffer α :=
  let capacity := b.nextCapacity
  { items := b.items.push item, capacity }

@[simp] theorem toList_empty : (empty : Buffer α).toList = [] := rfl

@[simp] theorem capacity_empty : (empty : Buffer α).capacity = 0 := rfl

@[simp] theorem toList_push (b : Buffer α) (item : α) : (b.push item).toList = b.toList ++ [item] := by
  simp [push, toList]

@[simp] theorem size_push (b : Buffer α) (item : α) : (b.push item).size = b.size + 1 := by
  simp [push, size]

theorem length_toList (b : Buffer α) : b.toList.length = b.size := by simp [toList, size]

theorem get?_eq (b : Buffer α) (index : Nat) : b.get? index = b.toList[index]? := by
  simp [get?, toList]

/-- Only indices below the size have items. -/
theorem lt_size_of_get?_eq_some {b : Buffer α} {index : Nat} {item : α}
    (h : b.get? index = some item) : index < b.size := by
  rw [get?_eq] at h
  rw [← length_toList]
  exact (List.getElem?_eq_some_iff.mp h).1

theorem get?_eq_none_iff {b : Buffer α} {index : Nat} : b.get? index = none ↔ b.size ≤ index := by
  rw [get?_eq, List.getElem?_eq_none_iff, length_toList]

/-- The text of the fault of reading past the end. -/
def outOfBoundsMessage (b : Buffer α) (index : Nat) : String :=
  s!"index out of bounds: the len is {b.size} but the index is {index}"

end Buffer

end StackBytecode
