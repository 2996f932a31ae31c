import StackBytecode.Listing
import StackBytecode.Log
import StackBytecode.Machine.Step

/-!
# The machine

Code has no jumps, so a run takes the decoded instructions of a chunk in order until one stops it
or they end. A run is a value: the instructions it came to with the stack before each, its result,
and the stack it leaves. The machine keeps that stack until its next run, which starts with an
empty one.
-/

namespace StackBytecode

namespace Machine

/-- The settings of a machine. -/
structure Config where
  /-- The number of values that the stack may hold. -/
  stackMax : Nat := 256
  /-- Whether every instruction is logged before it runs. -/
  trace : Bool := false
  deriving DecidableEq, Repr

/-- An instruction that a run came to, and the stack before it. -/
structure Visit where
  found : Placed Instruction
  stack : Stack
  deriving DecidableEq

/-- A run from its start to its end. -/
structure Run where
  visits : List Visit
  result : Except RuntimeFault (Option Value)
  stack : Stack

/-- Runs what is found in a chunk on a stack. -/
def run (limit : Nat) (pool : Buffer Value) (stack : Stack) : List Decoding.Found → Run
  | [] => ⟨[], .ok none, stack⟩
  | .error fault :: _ => ⟨[], .error (fault.map .decode), stack⟩
  | .ok found :: rest =>
    match step limit pool stack found.item with
    | .stop result left => ⟨[⟨found, stack⟩], result.mapError (found.map fun _ => ·), left⟩
    | .next stack' =>
      let after := run limit pool stack' rest
      { after with visits := ⟨found, stack⟩ :: after.visits }

/-- The text of a stack, bottom first. -/
def stackText (stack : Stack) : String :=
  stack.values.reverse.foldl (fun out v => out ++ "[ " ++ v.text ++ " ]") ""

/-- The log record of a visit. -/
def Visit.record (c : Chunk) (visit : Visit) : Log.Record :=
  .instruction (c.entryAt visit.found.offset).full (stackText visit.stack)

end Machine

/-- A machine: its settings, and the stack that its last run left. -/
structure Machine where
  config : Machine.Config := {}
  stack : Stack := .empty

namespace Machine

/-- The run of a chunk. -/
def runOf (config : Config) (c : Chunk) : Run := run config.stackMax c.pool .empty c.decode

/-- Runs a chunk, whatever the machine ran before. -/
def interpret (m : Machine) (c : Chunk) : Except RuntimeFault (Option Value) × Machine :=
  let run := runOf m.config c
  (run.result, { m with stack := run.stack })

/-- What running a chunk logs. -/
def records (config : Config) (c : Chunk) : List Log.Record :=
  .interpreting c.size ::
    if config.trace then (runOf config c).visits.map (Visit.record c) else []

end Machine

end StackBytecode
