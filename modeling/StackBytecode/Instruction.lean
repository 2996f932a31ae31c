import StackBytecode.Chunk

/-!
# Instructions

An operation of the machine with what stands for the constant it pushes: the index of a pool entry
in code, the number itself in source text. Instructions are encoded as cells of one line.
-/

namespace StackBytecode

/-- An operation whose constant, if it has one, is given by a `κ`. -/
inductive Operation (κ : Type)
  | constant (k : κ)
  | ret
  | arith (operation : Arith)
  | negate
  deriving DecidableEq, Repr

/-- The opcode of an operation. -/
def Operation.opcode {κ : Type} : Operation κ → Opcode
  | .constant _ => .constant
  | .ret => .ret
  | .arith f => .arith f
  | .negate => .negate

/-- An operation of code, where an index stands for a constant. -/
abbrev Instruction := Operation UInt8

/-- An operation of source text, where a constant stands for itself. -/
abbrev Statement := Operation Value

namespace Instruction

/-- The operand byte of an instruction. -/
def operand? : Instruction → Option UInt8
  | .constant index => some index
  | _ => none

/-- The encoded size of an instruction. -/
def size (i : Instruction) : Nat := 1 + i.opcode.operandSize

/-- The bytes of an instruction. -/
def bytes (i : Instruction) : List UInt8 := i.opcode.toByte :: i.operand?.toList

/-- The cells of an instruction of a source line. -/
def cells (i : Instruction) (line : UInt32) : List Cell := i.bytes.map (⟨·, line⟩)

theorem length_bytes (i : Instruction) : i.bytes.length = i.size := by cases i <;> rfl

end Instruction

/-- Something found in a chunk, with its offset and the source line of the byte there. -/
structure Placed (α : Type) where
  offset : Nat
  line : UInt32
  item : α
  deriving DecidableEq, Repr

/-- Something else at the same place. -/
def Placed.map {α β : Type} (f : α → β) (p : Placed α) : Placed β := ⟨p.offset, p.line, f p.item⟩

end StackBytecode
