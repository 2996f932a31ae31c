import StackBytecode.Value

/-!
# Stacks of values

A stack keeps its depth beside its values, so comparing it with a limit takes one step however deep
it is. The values alone determine a stack.
-/

namespace StackBytecode

/-- Values, top first, and their number. -/
structure Stack where
  values : List Value
  depth : Nat
  depth_eq : depth = values.length
  deriving DecidableEq

namespace Stack

/-- The stack without values. -/
def empty : Stack := ⟨[], 0, rfl⟩

/-- A stack with a value on top. -/
def push (s : Stack) (v : Value) : Stack := ⟨v :: s.values, s.depth + 1, by simp [s.depth_eq]⟩

/-- The top and the stack below it. -/
def pop? : Stack → Option (Value × Stack)
  | ⟨[], _, _⟩ => none
  | ⟨v :: below, depth, h⟩ => some (v, ⟨below, depth - 1, by simp [h]⟩)

/-- The top, the value below it, and the stack below both. -/
def popTwo? (s : Stack) : Option (Value × Value × Stack) :=
  s.pop?.bind fun (b, below) => below.pop?.map fun (a, rest) => (b, a, rest)

theorem ext_values {s t : Stack} (h : s.values = t.values) : s = t := by
  cases s
  cases t
  simp_all

@[simp] theorem values_empty : empty.values = [] := rfl

@[simp] theorem values_push (s : Stack) (v : Value) : (s.push v).values = v :: s.values := rfl

theorem pop?_eq_some_iff {s t : Stack} {v : Value} :
    s.pop? = some (v, t) ↔ s.values = v :: t.values := by
  rcases s with ⟨_ | ⟨w, below⟩, depth, h⟩
  · simp [pop?]
  · simp only [pop?, Option.some.injEq, Prod.mk.injEq, List.cons.injEq, and_congr_right_iff]
    exact fun _ => ⟨fun e => by rw [← e], fun e => ext_values e⟩

theorem pop?_eq_none_iff {s : Stack} : s.pop? = none ↔ s.values = [] := by
  rcases s with ⟨_ | _, _, _⟩ <;> simp [pop?]

end Stack

end StackBytecode
