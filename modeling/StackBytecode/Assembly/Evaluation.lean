import StackBytecode.Assembly
import StackBytecode.Machine.Step

/-!
# Evaluating source

What a source means without code: its statements, one after the other, act on a stack of values.
Nothing is encoded, decoded or looked up in a pool here. Offsets are those that the statements
would have in code, so that a fault names the same place, and only a constant can find the stack
full: every other statement takes at least as many values as it puts back.
-/

namespace StackBytecode.Assembly

/-- The commands of a source, leaving out lines without one or with a fault. -/
def commands (source : String) : List Command :=
  ((Text.lines source.toList).zipIdx 1).filterMap fun (line, number) =>
    (readLine number line).toOption.join

/-- The number of code bytes of a statement. -/
def statementSize : Statement → Nat
  | .constant _ => 2
  | _ => 1

/-- Evaluates commands on a stack, top first, the first of them having the given offset: what they
result in, and the stack they leave. -/
def evaluate (limit offset : Nat) (stack : List Value) :
    List Command → Except RuntimeFault (Option Value) × List Value
  | [] => (.ok none, stack)
  | c :: rest =>
    let next := offset + statementSize c.statement
    let underflow := (.error ⟨offset, c.line, .stackUnderflow c.statement.opcode⟩, stack)
    match c.statement, stack with
    | .constant v, stack =>
      if limit ≤ stack.length then (.error ⟨offset, c.line, .stackOverflow limit⟩, stack)
      else evaluate limit next (v :: stack) rest
    | .ret, [] => (.ok none, [])
    | .ret, v :: below => (.ok (some v), below)
    | .arith f, b :: a :: below => evaluate limit next (f.apply a b :: below) rest
    | .negate, a :: below => evaluate limit next (a.neg :: below) rest
    | _, _ => underflow

end StackBytecode.Assembly
