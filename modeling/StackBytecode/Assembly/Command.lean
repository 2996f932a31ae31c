import StackBytecode.Instruction
import StackBytecode.Text.Split

/-!
# Lines of source text

A line of source is cut at its first semicolon and split into words. An optional word that begins
with an at sign overrides the recorded source line; then follow the name of an instruction, for
`CONSTANT` a number, and nothing else. Names have any ASCII case and may carry the prefix `OP_`.
-/

namespace StackBytecode.Assembly

/-- What is wrong with a line. -/
inductive Cause
  /-- The word names no instruction. -/
  | unknownInstruction (name : String)
  /-- The word is no number; it is empty when there is none. -/
  | invalidNumber (found : String)
  /-- The word stands after a complete instruction. -/
  | trailingInput (op : Opcode) (found : String)
  /-- The word begins with an at sign, and what follows is no line number. -/
  | invalidLineOverride (found : String)
  /-- One more constant than an operand byte can count. -/
  | tooManyConstants
  deriving DecidableEq, Repr

/-- What is wrong with a source, and the number of the line, from one on. -/
structure Fault where
  line : Nat
  cause : Cause
  deriving DecidableEq, Repr

/-- The most constants that an operand byte can count. -/
def maxConstants : Nat := 256

/-- The text of a fault. -/
def Fault.message (fault : Fault) : String :=
  s!"line {fault.line}: " ++
    match fault.cause with
    | .unknownInstruction name => "unknown instruction " ++ quoted name
    | .invalidNumber found => "expected a number, found " ++ quoted found
    | .trailingInput op found => "unexpected " ++ quoted found ++ " after " ++ op.mnemonic
    | .invalidLineOverride found => "invalid line override " ++ quoted found
    | .tooManyConstants => s!"too many constants in one chunk (max {maxConstants})"
where
  /-- A word between backquotes. -/
  quoted (word : String) : String := "\x60" ++ word ++ "\x60"

/-- The part of a line before its comment, as words. -/
def lineWords (line : List Char) : List (List Char) :=
  Text.words (line.takeWhile (· != ';'))

/-- The line number that bytes record for a statement on a line, when nothing overrides it. -/
def recordedLine (number : Nat) : UInt32 := UInt32.ofNat (min number (UInt32.size - 1))

/-- The recorded line of a line with the given words, and the words after an override. -/
def readOverride (number : Nat) : List (List Char) → Except Cause (UInt32 × List (List Char))
  | ('@' :: digits) :: rest =>
    match Number.readBelow? UInt32.size digits with
    | some line => .ok (UInt32.ofNat line, rest)
    | none => .error (.invalidLineOverride (String.ofList ('@' :: digits)))
  | words => .ok (recordedLine number, words)

/-- A name without the prefix that listings show. -/
def bareName (name : List Char) : List Char :=
  if (name.take 3).map Char.toLower = ['o', 'p', '_'] then name.drop 3 else name

/-- A statement, the line that its bytes record, and the word after it if there is one. -/
structure Command where
  line : UInt32
  statement : Statement
  extra : Option String
  deriving DecidableEq

/-- Reads the statement that follows a name, with the words after it. -/
def readStatement (op : Opcode) (words : List (List Char)) :
    Except Cause (Statement × List (List Char)) :=
  match op with
  | .constant =>
    let number := words.headD []
    match Value.ofText? number with
    | some v => .ok (.constant v, words.tail)
    | none => .error (.invalidNumber (String.ofList number))
  | .ret => .ok (.ret, words)
  | .arith f => .ok (.arith f, words)
  | .negate => .ok (.negate, words)

/-- Reads the words of a line; there is no command on a line without a name. -/
def readWords (number : Nat) (words : List (List Char)) : Except Cause (Option Command) := do
  match ← readOverride number words with
  | (_, []) => return none
  | (line, name :: rest) =>
    match Opcode.ofName? (bareName name) with
    | none => throw (.unknownInstruction (String.ofList name))
    | some op =>
      let (statement, rest) ← readStatement op rest
      return some { line, statement, extra := rest.head?.map String.ofList }

/-- Reads a line of source with its number. -/
def readLine (number : Nat) (line : List Char) : Except Cause (Option Command) :=
  readWords number (lineWords line)

end StackBytecode.Assembly
