import StackBytecode.Assembly.Command
import StackBytecode.Chunk.Edit

/-!
# Assembling

A source becomes a history of edits of an empty chunk, line by line, up to the first fault. Each
constant takes the next pool index, and every byte of a statement records the statement's line. A
line that is at fault only in its last words has made its edits already, which the log shows.
-/

namespace StackBytecode.Assembly

/-- The edits that source makes, and the fault it ends in, if it does. -/
structure Effect where
  edits : List Edit
  fault : Option Fault

/-- The edits of a statement, where `used` constants are in the pool already. -/
def statementEdits (used : Nat) (line : UInt32) : Statement → List Edit
  | .constant v => .addConstant v :: Instruction.edits (.constant (UInt8.ofNat used)) line
  | .ret => Instruction.edits .ret line
  | .arith f => Instruction.edits (.arith f) line
  | .negate => Instruction.edits .negate line

/-- The number of constants that a statement adds. -/
def statementConstants : Statement → Nat
  | .constant _ => 1
  | _ => 0

/-- The effect of a command, where `used` constants are in the pool already. -/
def commandEffect (number used : Nat) (c : Command) : Effect :=
  if maxConstants < used + statementConstants c.statement then ⟨[], some ⟨number, .tooManyConstants⟩⟩
  else
    { edits := statementEdits used c.line c.statement
      fault := c.extra.map fun word => ⟨number, .trailingInput c.statement.opcode word⟩ }

/-- The effect of lines from a number on, where `used` constants are in the pool already. -/
def linesEffect (number used : Nat) : List (List Char) → Effect
  | [] => ⟨[], none⟩
  | line :: rest =>
    match readLine number line with
    | .error cause => ⟨[], some ⟨number, cause⟩⟩
    | .ok none => linesEffect (number + 1) used rest
    | .ok (some command) =>
      let effect := commandEffect number used command
      match effect.fault with
      | some _ => effect
      | none =>
        let after := linesEffect (number + 1) (used + statementConstants command.statement) rest
        { after with edits := effect.edits ++ after.edits }

/-- The effect of a source. -/
def sourceEffect (source : String) : Effect := linesEffect 1 0 (Text.lines source.toList)

end StackBytecode.Assembly

namespace StackBytecode

open Assembly in
/-- Assembles a source into a chunk. -/
def assemble (source : String) : Except Assembly.Fault Chunk :=
  let effect := sourceEffect source
  match effect.fault with
  | some fault => .error fault
  | none => .ok (Chunk.empty.applyAll effect.edits)

open Assembly in
/-- What assembling a source logs. -/
def assemblyRecords (source : String) : List Log.Record :=
  let effect := sourceEffect source
  .assembling :: Chunk.empty.recordsOfAll effect.edits ++
    match assemble source with
    | .ok c => [.assembled c.size c.poolSize]
    | .error _ => []

end StackBytecode
