import StackBytecode.Instruction

/-!
# Decoding

Code is read as instructions from offset zero on, up to the first byte that cannot be one. What
stands at one offset depends on the cell there and on the one after it; the walk over a chunk
passes over the operand bytes of what it has decoded.
-/

namespace StackBytecode

/-- Why bytes are no instruction. -/
inductive DecodeCause
  /-- The byte names no opcode. -/
  | unknownOpcode (byte : UInt8)
  /-- The operand of the opcode would lie past the end of the code. -/
  | truncatedOperand (op : Opcode)
  deriving DecidableEq, Repr

/-- A place where code is no instruction. -/
abbrev DecodeFault := Placed DecodeCause

/-- The text of a decoding fault. -/
def DecodeCause.message (offset : Nat) : DecodeCause → String
  | .unknownOpcode byte => s!"{Opcode.unknownMessage byte} at offset {offset}"
  | .truncatedOperand op => s!"{op.mnemonic} at offset {offset} is missing its operand"

namespace Decoding

/-- The instruction of a cell, given the cell after it. -/
def instruction? (cell : Cell) (after : Option Cell) : Except DecodeCause Instruction :=
  match Opcode.ofByte? cell.byte with
  | none => .error (.unknownOpcode cell.byte)
  | some .constant =>
    match after with
    | none => .error (.truncatedOperand .constant)
    | some operand => .ok (.constant operand.byte)
  | some .ret => .ok .ret
  | some (.arith f) => .ok (.arith f)
  | some .negate => .ok .negate

/-- What is found at an offset, a fault or an instruction. -/
abbrev Found := Except DecodeFault (Placed Instruction)

/-- What stands at an offset, given the cell there and the one after it. -/
def read (offset : Nat) (cell : Cell) (after : Option Cell) : Found :=
  match instruction? cell after with
  | .error cause => .error ⟨offset, cell.line, cause⟩
  | .ok instruction => .ok ⟨offset, cell.line, instruction⟩

/-- Reads cells from an offset on, after passing over as many as an earlier instruction still owns. -/
def walk (offset : Nat) : Nat → List Cell → List Found
  | _, [] => []
  | passed + 1, _ :: rest => walk (offset + 1) passed rest
  | 0, cell :: rest =>
    match read offset cell rest.head? with
    | .error fault => [.error fault]
    | .ok found => .ok found :: walk (offset + 1) found.item.opcode.operandSize rest

end Decoding

namespace Chunk

/-- The instructions of a chunk in order, ending with the first fault if there is one. -/
def decode (c : Chunk) : List Decoding.Found := Decoding.walk 0 0 c.cells.toList

/-- What stands at an offset; nothing at or past the end of the code. -/
def decodeAt (c : Chunk) (offset : Nat) : Option Decoding.Found :=
  (c.cells.get? offset).map fun cell => Decoding.read offset cell (c.cells.get? (offset + 1))

/-- The instructions before the first fault. -/
def instructions (c : Chunk) : List (Placed Instruction) := c.decode.filterMap Except.toOption

/-- The first fault, if there is one. -/
def decodeFault? (c : Chunk) : Option DecodeFault :=
  c.decode.findSome? fun
    | .error fault => some fault
    | .ok _ => none

/-- The offsets of the instructions before the first fault. -/
def instructionOffsets (c : Chunk) : List Nat := c.instructions.map Placed.offset

end Chunk

end StackBytecode
