import StackBytecode.Instruction
import StackBytecode.Log

/-!
# Edits of chunks

What can be done to a chunk, as data. A history of edits determines a chunk and the log of its
growth: each growth is recorded by the very write that needs it.
-/

namespace StackBytecode

/-- One change of a chunk. -/
inductive Edit
  | write (byte : UInt8) (line : UInt32)
  | addConstant (value : Value)
  | clear
  deriving DecidableEq

/-- The edits that write an instruction of a source line. -/
def Instruction.edits (i : Instruction) (line : UInt32) : List Edit := i.bytes.map (.write · line)

/-- The chunk after an edit. -/
def Chunk.apply (c : Chunk) : Edit → Chunk
  | .write byte line => c.write byte line
  | .addConstant value => c.addConstant value
  | .clear => .empty

/-- What an edit of a chunk logs. -/
def Chunk.recordsOf (c : Chunk) : Edit → List Log.Record
  | .write _ _ => (c.cells.growth?.map fun (old, new) => .chunkGrown old new).toList
  | .addConstant _ => (c.pool.growth?.map fun (old, new) => .poolGrown old new).toList
  | .clear => [.chunkFreed c.size c.poolSize]

/-- The chunk after a history of edits. -/
def Chunk.applyAll (c : Chunk) (edits : List Edit) : Chunk := edits.foldl Chunk.apply c

/-- What a history of edits logs. -/
def Chunk.recordsOfAll (c : Chunk) : List Edit → List Log.Record
  | [] => []
  | edit :: edits => c.recordsOf edit ++ (c.apply edit).recordsOfAll edits

end StackBytecode
