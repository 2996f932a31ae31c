import StackBytecode.Chunk

/-!
# Runs of lines

The line table of a chunk as maximal runs of bytes that share a line. Expanding the runs gives the
table back.
-/

namespace StackBytecode

/-- The offsets from `start` up to `stop`, without `stop`, and the line of their bytes. -/
structure LineRun where
  start : Nat
  stop : Nat
  line : UInt32
  deriving DecidableEq, Repr

namespace LineRun

/-- Puts one byte of a line in front of runs that begin right after it. -/
def extend (offset : Nat) (line : UInt32) : List LineRun → List LineRun
  | [] => [⟨offset, offset + 1, line⟩]
  | run :: runs =>
    if run.line = line then { run with start := offset } :: runs
    else ⟨offset, offset + 1, line⟩ :: run :: runs

/-- The runs of a line table whose first byte has the given offset. -/
def ofLines (offset : Nat) : List UInt32 → List LineRun
  | [] => []
  | line :: lines => extend offset line (ofLines (offset + 1) lines)

/-- The lines of the bytes of a run. -/
def expand (run : LineRun) : List UInt32 := List.replicate (run.stop - run.start) run.line

end LineRun

/-- The runs of the line table of a chunk. -/
def Chunk.lineRuns (c : Chunk) : List LineRun := LineRun.ofLines 0 c.lines

end StackBytecode
