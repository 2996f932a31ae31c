import StackBytecode.Chunk

/-!
# Summing programs

A workload of any size: it pushes the numbers 0, 1, … one after the other, adding each to the sum
so far, and returns the sum. The pool holds at most 256 constants, so later terms begin again at
the first.
-/

namespace StackBytecode.SumProgram

/-- The source line of a term: four terms share one. -/
def termLine (term : Nat) : UInt32 := UInt32.ofNat (min (term / 4 + 1) (UInt32.size - 1))

/-- Writes one term: its constant, and an addition unless it is the first. -/
def writeTerm (c : Chunk) (term : Nat) : Chunk :=
  let line := termLine term
  let pushed := (c.writeOpcode .constant line).write (UInt8.ofNat (term % 256)) line
  if term = 0 then pushed else pushed.writeOpcode (.arith .add) line

/-- The chunk whose pool holds the constants of so many terms. -/
def constants (terms : Nat) : Chunk :=
  (List.range (min terms 256)).foldl (fun c n => c.addConstant (Value.ofNat n)) .empty

/-- The program that sums so many terms. -/
def chunk (terms : Nat) : Chunk :=
  ((List.range terms).foldl writeTerm (constants terms)).writeOpcode .ret (UInt32.ofNat (UInt32.size - 1))

end StackBytecode.SumProgram
