import StackBytecode.Machine

/-!
# What one instruction can do

On a stack within its limit an instruction does one of eight things. Only a constant can
find the stack full: every other push follows a pop, and the depth is within the limit
before the pop already. A stop that is not a return leaves the stack as it was.

The stack stays within its limit from step to step, so these are all the steps of a run.
-/

namespace StackBytecode

namespace Stack

theorem depth_push (s : Stack) (v : Value) : (s.push v).depth = s.depth + 1 := rfl

/-- A pop fails exactly on the empty stack. -/
theorem pop?_eq_none_iff_depth {s : Stack} : s.pop? = none ↔ s.depth < 1 := by
  rw [pop?_eq_none_iff, s.depth_eq, Nat.lt_one_iff, List.length_eq_zero_iff]

/-- A pop leaves one value less. -/
theorem depth_of_pop? {s t : Stack} {v : Value} (h : s.pop? = some (v, t)) : s.depth = t.depth + 1 := by
  rw [s.depth_eq, pop?_eq_some_iff.mp h, t.depth_eq, List.length_cons]

/-- Popping two values gives the top first and then the one below it. -/
theorem popTwo?_eq_some_iff {s t : Stack} {a b : Value} :
    s.popTwo? = some (b, a, t) ↔ s.values = b :: a :: t.values := by
  rcases s with ⟨_ | ⟨top, _ | ⟨second, below⟩⟩, depth, h⟩
  · simp [popTwo?, pop?]
  · simp [popTwo?, pop?]
  · simp only [popTwo?, pop?, Option.bind_some, Option.map_some, Option.some.injEq, Prod.mk.injEq,
      List.cons.injEq, and_congr_right_iff]
    intro _ _
    exact ⟨fun e => by rw [← e], fun e => ext_values e⟩

/-- Popping two values leaves two values less. -/
theorem depth_of_popTwo? {s t : Stack} {a b : Value} (h : s.popTwo? = some (b, a, t)) :
    s.depth = t.depth + 2 := by
  rw [s.depth_eq, popTwo?_eq_some_iff.mp h, t.depth_eq, List.length_cons, List.length_cons]

/-- Popping two values fails exactly when there are fewer. -/
theorem popTwo?_eq_none_iff {s : Stack} : s.popTwo? = none ↔ s.depth < 2 := by
  rw [s.depth_eq]
  rcases s with ⟨_ | ⟨top, _ | ⟨second, below⟩⟩, depth, h⟩ <;> simp [popTwo?, pop?]

end Stack

/-- The number of values that an operation takes from the stack, if it must find them there. -/
def Operation.arity {κ : Type} : Operation κ → Nat
  | .constant _ => 0
  | .ret => 0
  | .arith _ => 2
  | .negate => 1

namespace Machine

/-- What an instruction does to a stack within its limit. -/
inductive Acts (limit : Nat) (pool : Buffer Value) (stack : Stack) : Instruction → Outcome → Prop
  | dangles {index : UInt8} (hindex : pool.size ≤ index.toNat) :
      Acts limit pool stack (.constant index)
        (.stop (.error (.constantOutOfRange index.toNat pool.size)) stack)
  | overflows {index : UInt8} {v : Value} (hv : pool.get? index.toNat = some v)
      (hfull : limit ≤ stack.depth) :
      Acts limit pool stack (.constant index) (.stop (.error (.stackOverflow limit)) stack)
  | pushes {index : UInt8} {v : Value} (hv : pool.get? index.toNat = some v)
      (hroom : stack.depth < limit) : Acts limit pool stack (.constant index) (.next (stack.push v))
  | returns {v : Value} {below : Stack} (hstack : stack.values = v :: below.values) :
      Acts limit pool stack .ret (.stop (.ok (some v)) below)
  | leaves (hstack : stack.values = []) : Acts limit pool stack .ret (.stop (.ok none) stack)
  | combines {f : Arith} {a b : Value} {rest : Stack} (hstack : stack.values = b :: a :: rest.values) :
      Acts limit pool stack (.arith f) (.next (rest.push (f.apply a b)))
  | negates {a : Value} {rest : Stack} (hstack : stack.values = a :: rest.values) :
      Acts limit pool stack .negate (.next (rest.push a.neg))
  | underflows {i : Instruction} (hstack : stack.depth < i.arity) :
      Acts limit pool stack i (.stop (.error (.stackUnderflow i.opcode)) stack)

/-- A push with room for the value goes on. -/
theorem push_of_lt {limit : Nat} {stack : Stack} (v : Value) (h : stack.depth < limit) :
    push limit stack v = .next (stack.push v) := if_pos h

/-- Every instruction acts on a stack within its limit in one of these ways. -/
theorem acts_step {limit : Nat} (pool : Buffer Value) {stack : Stack} (hdepth : stack.depth ≤ limit)
    (i : Instruction) : Acts limit pool stack i (step limit pool stack i) := by
  cases i with
  | constant index =>
    rw [step]
    cases hv : pool.get? index.toNat with
    | none => exact .dangles (Buffer.get?_eq_none_iff.mp hv)
    | some v =>
      by_cases hroom : stack.depth < limit
      · simpa only [push_of_lt v hroom] using Acts.pushes hv hroom
      · simpa only [push, if_neg hroom] using Acts.overflows hv (Nat.le_of_not_lt hroom)
  | ret =>
    rw [step]
    cases hpop : stack.pop? with
    | none => exact .leaves (Stack.pop?_eq_none_iff.mp hpop)
    | some popped => exact .returns (Stack.pop?_eq_some_iff.mp hpop)
  | arith f =>
    rw [step]
    cases hpop : stack.popTwo? with
    | none => exact .underflows (Stack.popTwo?_eq_none_iff.mp hpop)
    | some popped =>
      obtain ⟨b, a, rest⟩ := popped
      have hpopped := Stack.depth_of_popTwo? hpop
      have hroom : rest.depth < limit := by omega
      simpa only [push_of_lt _ hroom] using Acts.combines (Stack.popTwo?_eq_some_iff.mp hpop)
  | negate =>
    rw [step]
    cases hpop : stack.pop? with
    | none => exact .underflows (Stack.pop?_eq_none_iff_depth.mp hpop)
    | some popped =>
      obtain ⟨a, rest⟩ := popped
      have hpopped := Stack.depth_of_pop? hpop
      have hroom : rest.depth < limit := by omega
      simpa only [push_of_lt _ hroom] using Acts.negates (Stack.pop?_eq_some_iff.mp hpop)

/-- A step keeps the stack within its limit. -/
theorem Acts.depth_le {limit : Nat} {pool : Buffer Value} {stack stack' : Stack} {i : Instruction}
    (h : Acts limit pool stack i (.next stack')) (hdepth : stack.depth ≤ limit) :
    stack'.depth ≤ limit := by
  rw [stack.depth_eq] at hdepth
  cases h with
  | pushes hv hroom => exact hroom
  | combines hstack =>
    rw [hstack, List.length_cons, List.length_cons] at hdepth
    rw [Stack.depth_push, Stack.depth_eq]
    omega
  | negates hstack =>
    rw [hstack, List.length_cons] at hdepth
    rw [Stack.depth_push, Stack.depth_eq]
    omega

end Machine

end StackBytecode
