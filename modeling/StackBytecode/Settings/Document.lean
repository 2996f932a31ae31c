import StackBytecode.Json
import StackBytecode.Machine

/-!
# Opcodes and machine settings as documents

An opcode is written as its report name, or as an object whose one member has that name and is
null. Machine settings are an object with some of their two members, each once, or a list with the first
of them in order. Anything else is refused.
-/

namespace StackBytecode

namespace Opcode

/-- The opcode with a report name. -/
def ofReportName? (name : String) : Option Opcode := all.find? (·.reportName == name)

/-- Reads an opcode. -/
def ofDocument? : Json → Option Opcode
  | .string name => ofReportName? name
  | .object [(name, .null)] => ofReportName? name
  | _ => none

end Opcode

namespace Machine.Config

/-- Reads a stack limit: an integer that a word can hold. -/
def readStackMax? : Json → Option Nat
  | .integer (.ofNat n) => if n < UInt64.size then some n else none
  | _ => none

/-- Reads a switch. -/
def readTrace? : Json → Option Bool
  | .bool b => some b
  | _ => none

/-- Settings with one member of an object in their place. -/
def withMember? (config : Machine.Config) : String × Json → Option Machine.Config
  | ("stack_max", value) => (readStackMax? value).map fun n => { config with stackMax := n }
  | ("trace", value) => (readTrace? value).map fun b => { config with trace := b }
  | _ => none

/-- Reads machine settings. -/
def ofDocument? : Json → Option Machine.Config
  | .object members =>
    if (members.map Prod.fst).Nodup then members.foldlM withMember? {} else none
  | .array [] => some {}
  | .array [limit] => (readStackMax? limit).map fun n => { stackMax := n }
  | .array [limit, switch] =>
    (readStackMax? limit).bind fun n => (readTrace? switch).map fun b => { stackMax := n, trace := b }
  | _ => none

end Machine.Config

end StackBytecode
