import StackBytecode.Assembly
import StackBytecode.Files
import StackBytecode.Machine
import StackBytecode.Settings

/-!
# Sources of the tools

An input is the path of a file, or a dash for the standard input, which then is the only one. A
source is assembled and run under the name of its input; each failure says at which of these it
happened.
-/

namespace StackBytecode.Tool

/-- The input that stands for the standard input. -/
def stdinMark : String := "-"

/-- The text of the refusal of several inputs with the standard input among them. -/
def mixedInputsMessage : String := "'-' (stdin) cannot be mixed with other inputs"

/-- Whether inputs may be given together. -/
def inputsAgree (inputs : List String) : Bool := inputs.length ≤ 1 || !inputs.contains stdinMark

/-- The text of an input, and the name it is shown under. -/
structure Source where
  text : String
  name : String
  deriving DecidableEq, Repr

/-- Why there is no result for an input. -/
inductive SourceFault
  | unreadable (input : String) (reason : ReadFault)
  | notAssembled (name : String) (fault : Assembly.Fault)
  | notRun (name : String) (fault : RuntimeFault)
  deriving DecidableEq, Repr

/-- The texts of a fault, outermost first. -/
def SourceFault.chain : SourceFault → List String
  | .unreadable input reason => ["reading " ++ input, reason.message]
  | .notAssembled name fault => ["assembling " ++ name, fault.message]
  | .notRun name fault => ("running " ++ name) :: RuntimeFault.chain fault

/-- Reads an input, with the contents and the name of the standard input. -/
def readSource (files : Files) (stdin : ByteArray) (stdinName input : String) :
    Except SourceFault Source :=
  if input = stdinMark then
    match decodeText stdin with
    | .ok text => .ok ⟨text, stdinName⟩
    | .error reason => .error (.unreadable "stdin" reason)
  else
    match files.text input with
    | .ok text => .ok ⟨text, input⟩
    | .error reason => .error (.unreadable input reason)

/-- Assembles a source. -/
def assembleSource (source : Source) : Except SourceFault Chunk :=
  (assemble source.text).mapError (.notAssembled source.name)

/-- Runs a chunk under a name. -/
def runChunk (settings : Settings) (name : String) (c : Chunk) : Except SourceFault (Option Value) :=
  (Machine.runOf settings.machine c).result.mapError (.notRun name)

end StackBytecode.Tool
