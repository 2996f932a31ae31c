import StackBytecode.Decoding
import StackBytecode.Stack

/-!
# One step of the machine

The machine keeps a stack of values. A step runs one instruction on it: the stack goes
on, or the run stops with a result and the stack it leaves. Every push is checked against the
limit, also one that follows a pop.
-/

namespace StackBytecode

/-- Why a run stops before its end. -/
inductive RuntimeCause
  | decode (cause : DecodeCause)
  /-- The operand is no index of a pool of that size. -/
  | constantOutOfRange (index size : Nat)
  /-- The stack holds too few values for the opcode. -/
  | stackUnderflow (op : Opcode)
  /-- The stack holds as many values as it may. -/
  | stackOverflow (limit : Nat)
  deriving DecidableEq, Repr

/-- The place of a fault of a run. -/
abbrev RuntimeFault := Placed RuntimeCause

/-- The text of a fault of a run. -/
def RuntimeFault.message (fault : RuntimeFault) : String :=
  s!"[line {fault.line.toNat}] " ++
    match fault.item with
    | .decode cause => cause.message fault.offset
    | .constantOutOfRange index size => s!"constant {index} out of range (pool holds {size})"
    | .stackUnderflow op => s!"stack underflow in {op.mnemonic}"
    | .stackOverflow limit => s!"stack overflow (max {limit})"

/-- The texts of a fault of a run and of the fault below it, outermost first. -/
def RuntimeFault.chain (fault : RuntimeFault) : List String :=
  fault.message ::
    match fault.item with
    | .decode cause => [cause.message fault.offset]
    | _ => []

/-- The result of an arithmetic operation on the value below the top and the top. -/
def Arith.apply : Arith → Value → Value → Value
  | .add => Value.add
  | .subtract => Value.sub
  | .multiply => Value.mul
  | .divide => Value.div

namespace Machine

/-- What an instruction does to a stack. -/
inductive Outcome
  /-- The run goes on with a stack. -/
  | next (stack : Stack)
  /-- The run stops with a value, with no value, or with a fault, and leaves a stack. -/
  | stop (result : Except RuntimeCause (Option Value)) (stack : Stack)

/-- Pushes a value, unless the stack is full. -/
def push (limit : Nat) (stack : Stack) (v : Value) : Outcome :=
  if stack.depth < limit then .next (stack.push v) else .stop (.error (.stackOverflow limit)) stack

/-- Runs one instruction. -/
def step (limit : Nat) (pool : Buffer Value) (stack : Stack) : Instruction → Outcome
  | .constant index =>
    match pool.get? index.toNat with
    | some v => push limit stack v
    | none => .stop (.error (.constantOutOfRange index.toNat pool.size)) stack
  | .ret =>
    match stack.pop? with
    | some (v, below) => .stop (.ok (some v)) below
    | none => .stop (.ok none) stack
  | .arith f =>
    match stack.popTwo? with
    | some (b, a, rest) => push limit rest (f.apply a b)
    | none => .stop (.error (.stackUnderflow (.arith f))) stack
  | .negate =>
    match stack.pop? with
    | some (a, rest) => push limit rest a.neg
    | none => .stop (.error (.stackUnderflow .negate)) stack

end Machine

end StackBytecode
