import StackBytecode.Chunk.LineRuns
import StackBytecode.Decoding
import StackBytecode.Json

/-!
# Reports

What a chunk holds, as data: its constants, the runs of its line table, the instructions before
the first fault and that fault. A summary gives the counts alone.
-/

namespace StackBytecode

/-- A structured view of a chunk. -/
structure Report where
  name : String
  bytes : Nat
  capacity : Nat
  constants : List Value
  lineRuns : List LineRun
  instructions : List (Placed Instruction)
  /-- The text of the fault that ends decoding, if there is one. -/
  fault : Option String
  deriving BEq

namespace Report

/-- The report of a chunk under a name. -/
def ofChunk (c : Chunk) (name : String) : Report where
  name := name
  bytes := c.size
  capacity := c.cells.capacity
  constants := c.constants
  lineRuns := c.lineRuns
  instructions := c.instructions
  fault := c.decodeFault?.map fun fault => fault.item.message fault.offset

/-- A run of lines as a document. -/
def runDocument (run : LineRun) : Json :=
  .object [("start", .integer run.start), ("end", .integer run.stop), ("line", .integer run.line.toNat)]

/-- An instruction as a document. -/
def instructionDocument (found : Placed Instruction) : Json :=
  .object
    [("offset", .integer found.offset), ("line", .integer found.line.toNat),
      ("op", .string found.item.opcode.reportName),
      ("operand", (found.item.operand?.map fun byte => Json.integer byte.toNat).getD .null)]

/-- A report as a document. -/
def document (r : Report) : Json :=
  .object
    [("name", .string r.name), ("bytes", .integer r.bytes), ("capacity", .integer r.capacity),
      ("constants", .array (r.constants.map .real)),
      ("line_runs", .array (r.lineRuns.map runDocument)),
      ("instructions", .array (r.instructions.map instructionDocument)),
      ("error", (r.fault.map Json.string).getD .null)]

end Report

/-- The counts of a chunk on one line. -/
def Chunk.summary (c : Chunk) (name : String) : String :=
  name ++ s!": {c.size} bytes (capacity {c.cells.capacity}), {c.poolSize} constants, " ++
    s!"{c.instructions.length} instructions, {c.lineRuns.length} line runs"

end StackBytecode
