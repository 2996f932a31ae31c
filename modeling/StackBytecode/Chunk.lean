import StackBytecode.Buffer
import StackBytecode.Opcode
import StackBytecode.Value

/-!
# Chunks

A chunk holds code bytes with the source line of each, and a pool of constants. Code and lines
are one buffer of cells, so they have one length and one capacity; the pool grows by itself.
Any byte can be written. Equality of chunks compares bytes, lines, constants as IEEE numbers, and
both capacities.
-/

namespace StackBytecode

/-- One code byte and the source line it comes from. -/
structure Cell where
  byte : UInt8
  line : UInt32
  deriving DecidableEq, Repr

/-- Code with its lines, and constants. -/
structure Chunk where
  cells : Buffer Cell := .empty
  pool : Buffer Value := .empty
  deriving BEq

namespace Chunk

/-- The chunk without code and constants. -/
def empty : Chunk := {}

/-- Appends one byte of code. -/
def write (c : Chunk) (byte : UInt8) (line : UInt32) : Chunk :=
  { c with cells := c.cells.push ⟨byte, line⟩ }

/-- Appends the byte of an opcode. -/
def writeOpcode (c : Chunk) (op : Opcode) (line : UInt32) : Chunk := c.write op.toByte line

/-- Appends a constant to the pool. -/
def addConstant (c : Chunk) (v : Value) : Chunk := { c with pool := c.pool.push v }

/-- The number of code bytes. -/
def size (c : Chunk) : Nat := c.cells.size

/-- The number of constants. -/
def poolSize (c : Chunk) : Nat := c.pool.size

/-- The index of the constant that was added last. -/
def lastIndex (c : Chunk) : Nat := c.poolSize - 1

/-- The code bytes. -/
def code (c : Chunk) : List UInt8 := c.cells.toList.map Cell.byte

/-- The source line of every code byte. -/
def lines (c : Chunk) : List UInt32 := c.cells.toList.map Cell.line

/-- The constants, in the order of their indices. -/
def constants (c : Chunk) : List Value := c.pool.toList

/-- The byte at an offset. -/
def byte? (c : Chunk) (offset : Nat) : Option UInt8 := (c.cells.get? offset).map Cell.byte

/-- The source line of the byte at an offset. -/
def line? (c : Chunk) (offset : Nat) : Option UInt32 := (c.cells.get? offset).map Cell.line

/-- The constant with an index. -/
def constant? (c : Chunk) (index : Nat) : Option Value := c.pool.get? index

theorem length_code (c : Chunk) : c.code.length = c.size := by
  simp [code, size, Buffer.length_toList]

theorem length_lines (c : Chunk) : c.lines.length = c.size := by
  simp [lines, size, Buffer.length_toList]

@[simp] theorem code_write (c : Chunk) (byte : UInt8) (line : UInt32) :
    (c.write byte line).code = c.code ++ [byte] := by simp [code, write]

@[simp] theorem lines_write (c : Chunk) (byte : UInt8) (line : UInt32) :
    (c.write byte line).lines = c.lines ++ [line] := by simp [lines, write]

@[simp] theorem constants_addConstant (c : Chunk) (v : Value) :
    (c.addConstant v).constants = c.constants ++ [v] := by simp [constants, addConstant]

end Chunk

end StackBytecode
