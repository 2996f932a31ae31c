/-!
# Opcodes

The closed set of operations of the machine. The order of `Opcode.all` is the encoding: an
opcode's byte is its place in that list. Only `constant` is followed by an operand byte.
-/

namespace StackBytecode

/-- The arithmetic operations that take two operands. -/
inductive Arith
  | add
  | subtract
  | multiply
  | divide
  deriving DecidableEq, Repr

/-- The tag that begins an instruction. -/
inductive Opcode
  /-- Push the constant whose index is the next byte. -/
  | constant
  /-- Stop with the value on top of the stack. -/
  | ret
  /-- Replace the two values on top of the stack by a result. -/
  | arith (operation : Arith)
  /-- Change the sign of the value on top of the stack. -/
  | negate
  deriving DecidableEq, Repr

namespace Opcode

/-- Every opcode, in the order of their bytes. -/
def all : List Opcode :=
  [.constant, .ret, .arith .add, .arith .subtract, .arith .multiply, .arith .divide, .negate]

/-- The byte of an opcode. -/
def toByte : Opcode → UInt8
  | .constant => 0
  | .ret => 1
  | .arith .add => 2
  | .arith .subtract => 3
  | .arith .multiply => 4
  | .arith .divide => 5
  | .negate => 6

/-- The opcode of a byte; bytes past the table have none. -/
def ofByte? (byte : UInt8) : Option Opcode := all[byte.toNat]?

/-- The number of operand bytes after an opcode. -/
def operandSize : Opcode → Nat
  | .constant => 1
  | _ => 0

/-- The name of an opcode in source text, in its usual case. -/
def name : Opcode → String
  | .constant => "CONSTANT"
  | .ret => "RETURN"
  | .arith .add => "ADD"
  | .arith .subtract => "SUBTRACT"
  | .arith .multiply => "MULTIPLY"
  | .arith .divide => "DIVIDE"
  | .negate => "NEGATE"

/-- The name of an opcode in listings and messages. -/
def mnemonic (op : Opcode) : String := "OP_" ++ op.name

/-- The name of an opcode in structured reports. -/
def reportName : Opcode → String
  | .constant => "Constant"
  | .ret => "Return"
  | .arith .add => "Add"
  | .arith .subtract => "Subtract"
  | .arith .multiply => "Multiply"
  | .arith .divide => "Divide"
  | .negate => "Negate"

/-- Finds an opcode by its bare name in any ASCII case. -/
def ofName? (text : List Char) : Option Opcode :=
  all.find? fun op => op.name.toList.map Char.toLower == text.map Char.toLower

/-- The text of a byte that belongs to no opcode. -/
def unknownMessage (byte : UInt8) : String := "unknown opcode " ++ byte.toNat.repr

theorem ofByte?_toByte (op : Opcode) : ofByte? op.toByte = some op := by
  rcases op with _ | _ | f | _
  case arith => cases f <;> rfl
  all_goals rfl

theorem ofByte?_eq_none_iff (byte : UInt8) : ofByte? byte = none ↔ 7 ≤ byte.toNat := by
  simp [ofByte?, all]

theorem operandSize_le_one (op : Opcode) : op.operandSize ≤ 1 := by
  cases op <;> simp [operandSize]

end Opcode

end StackBytecode
