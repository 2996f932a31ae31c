import StackBytecode.Decoding

/-!
# Validation

A chunk is valid when all of its code decodes and every constant operand is the index of a pool
entry. The first fault in code order is reported.
-/

namespace StackBytecode

/-- Why a place in a chunk is not valid. -/
inductive ValidationCause
  | decode (cause : DecodeCause)
  /-- The operand is no index of a pool of that size. -/
  | constantOutOfRange (index size : Nat)
  deriving DecidableEq, Repr

/-- A place in a chunk that is not valid. -/
abbrev ValidationFault := Placed ValidationCause

/-- The text of a validation fault. -/
def ValidationFault.message (fault : ValidationFault) : String :=
  match fault.item with
  | .decode cause => s!"line {fault.line.toNat}: {cause.message fault.offset}"
  | .constantOutOfRange index size =>
    s!"line {fault.line.toNat}: constant {index} at offset {fault.offset} is out of range (pool holds {size})"

/-- The texts of a validation fault and of the fault below it, outermost first. -/
def ValidationFault.chain (fault : ValidationFault) : List String :=
  fault.message ::
    match fault.item with
    | .decode cause => [cause.message fault.offset]
    | .constantOutOfRange _ _ => []

/-- The fault of what is found at an offset, for a pool of the given size. -/
def ValidationFault.of? (poolSize : Nat) : Decoding.Found → Option ValidationFault
  | .error fault => some (fault.map .decode)
  | .ok ⟨offset, line, .constant index⟩ =>
    if index.toNat < poolSize then none
    else some ⟨offset, line, .constantOutOfRange index.toNat poolSize⟩
  | .ok _ => none

/-- The first fault of a chunk, if it has one. -/
def Chunk.validationFault? (c : Chunk) : Option ValidationFault :=
  c.decode.findSome? (ValidationFault.of? c.poolSize)

end StackBytecode
