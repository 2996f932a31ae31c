import StackBytecode.Proofs.Chunk.History
import StackBytecode.Proofs.Machine.Step

/-!
# Runs do not depend on values

What a run does is decided by the code and by how many values are on the stack, never by
what the values are. Two chunks that differ in nothing but the values of their constants are
run in lock step: before each instruction the two stacks have the same depth, so both of
them hold enough values for it and have room for its result, or neither does. Whether a
constant is in the pool is told by its index and the size of the pool.

Results and stacks are compared by what is left of them without the values: the fault, or
whether there is a value at all, and the depth.
-/

namespace StackBytecode

namespace Stack

/-- Stacks of the same depth are both empty, or a value can be popped from both of them. -/
theorem pop?_of_depth_eq {s t : Stack} (h : s.depth = t.depth) :
    (s.pop? = none ∧ t.pop? = none) ∨
      ∃ v w s' t', s.pop? = some (v, s') ∧ t.pop? = some (w, t') ∧ s'.depth = t'.depth := by
  cases hs : s.pop? with
  | none =>
    rw [pop?_eq_none_iff_depth, h] at hs
    exact .inl ⟨rfl, pop?_eq_none_iff_depth.mpr hs⟩
  | some popped =>
    obtain ⟨v, s'⟩ := popped
    have hdepth : s.depth = s'.depth + 1 := depth_of_pop? hs
    cases ht : t.pop? with
    | none =>
      rw [pop?_eq_none_iff_depth] at ht
      omega
    | some popped =>
      obtain ⟨w, t'⟩ := popped
      have hdepth' : t.depth = t'.depth + 1 := depth_of_pop? ht
      exact .inr ⟨v, w, s', t', rfl, rfl, by omega⟩

/-- Stacks of the same depth hold fewer than two values each, or two values can be popped from both
of them. -/
theorem popTwo?_of_depth_eq {s t : Stack} (h : s.depth = t.depth) :
    (s.popTwo? = none ∧ t.popTwo? = none) ∨
      ∃ b a b' a' s' t', s.popTwo? = some (b, a, s') ∧ t.popTwo? = some (b', a', t') ∧
        s'.depth = t'.depth := by
  rcases pop?_of_depth_eq h with ⟨hs, ht⟩ | ⟨b, b', s', t', hs, ht, h'⟩
  · left
    simp only [popTwo?, hs, ht, Option.bind_none, and_self]
  · rcases pop?_of_depth_eq h' with ⟨hs', ht'⟩ | ⟨a, a', s'', t'', hs', ht', h''⟩
    · left
      simp only [popTwo?, hs, ht, Option.bind_some, hs', ht', Option.map_none, and_self]
    · right
      refine ⟨b, a, b', a', s'', t'', ?_, ?_, h''⟩
      · simp only [popTwo?, hs, Option.bind_some, hs', Option.map_some]
      · simp only [popTwo?, ht, Option.bind_some, ht', Option.map_some]

end Stack

namespace Machine

/-- Two outcomes differ in values at most: both go on with the same depth, or both stop with the same
depth and with the same fault, a value each, or no value. -/
inductive Outcome.Alike : Outcome → Outcome → Prop
  | next {s t : Stack} (hdepth : s.depth = t.depth) : Alike (.next s) (.next t)
  | stop {a b : Except RuntimeCause (Option Value)} {s t : Stack}
      (hresult : a.map Option.isSome = b.map Option.isSome) (hdepth : s.depth = t.depth) :
      Alike (.stop a s) (.stop b t)

/-- Two runs differ in values at most: they come to the same instructions with the same depths, and
end with the same depth and with the same fault, a value each, or no value. -/
structure Run.Alike (run other : Run) : Prop where
  visits : (run.visits.map fun v => (v.found, v.stack.depth)) =
    other.visits.map fun v => (v.found, v.stack.depth)
  result : run.result.map Option.isSome = other.result.map Option.isSome
  depth : run.stack.depth = other.stack.depth

/-- Whatever is pushed on stacks of the same depth, there is room on both of them or on neither. -/
theorem alike_push (limit : Nat) {s t : Stack} (h : s.depth = t.depth) (v w : Value) :
    (push limit s v).Alike (push limit t w) := by
  rw [push, push, h]
  split
  case isTrue => exact .next (congrArg (· + 1) h)
  case isFalse => exact .stop rfl h

/-- An instruction does the same on stacks of the same depth with pools of the same size. -/
theorem alike_step (limit : Nat) {pool other : Buffer Value} (hpool : pool.size = other.size)
    {s t : Stack} (h : s.depth = t.depth) (i : Instruction) :
    (step limit pool s i).Alike (step limit other t i) := by
  cases i with
  | constant index =>
    rw [step, step]
    cases hv : pool.get? index.toNat with
    | none =>
      have hw : other.get? index.toNat = none := by
        rwa [Buffer.get?_eq_none_iff, ← hpool, ← Buffer.get?_eq_none_iff]
      simp only [hw, hpool]
      exact .stop rfl h
    | some v =>
      obtain ⟨w, hw⟩ : ∃ w, other.get? index.toNat = some w := by
        rw [← Option.ne_none_iff_exists', ne_eq, Buffer.get?_eq_none_iff, ← hpool,
          ← Buffer.get?_eq_none_iff, hv]
        exact Option.some_ne_none v
      simp only [hw]
      exact alike_push limit h v w
  | ret =>
    rw [step, step]
    rcases Stack.pop?_of_depth_eq h with ⟨hs, ht⟩ | ⟨v, w, s', t', hs, ht, h'⟩
    · simp only [hs, ht]
      exact .stop rfl h
    · simp only [hs, ht]
      exact .stop rfl h'
  | arith f =>
    rw [step, step]
    rcases Stack.popTwo?_of_depth_eq h with ⟨hs, ht⟩ | ⟨b, a, b', a', s', t', hs, ht, h'⟩
    · simp only [hs, ht]
      exact .stop rfl h
    · simp only [hs, ht]
      exact alike_push limit h' _ _
  | negate =>
    rw [step, step]
    rcases Stack.pop?_of_depth_eq h with ⟨hs, ht⟩ | ⟨v, w, s', t', hs, ht, h'⟩
    · simp only [hs, ht]
      exact .stop rfl h
    · simp only [hs, ht]
      exact alike_push limit h' _ _

/-- From stacks of the same depth and with pools of the same size, runs of the same code differ in
values at most. -/
theorem alike_run (limit : Nat) {pool other : Buffer Value} (hpool : pool.size = other.size)
    {s t : Stack} (h : s.depth = t.depth) (found : List Decoding.Found) :
    (run limit pool s found).Alike (run limit other t found) := by
  induction found generalizing s t with
  | nil => exact ⟨rfl, rfl, h⟩
  | cons head rest ih =>
    cases head with
    | error fault => exact ⟨rfl, rfl, h⟩
    | ok head =>
      have hhead : (head, s.depth) = (head, t.depth) := by rw [h]
      have halike := alike_step limit hpool h head.item
      rw [run, run]
      generalize step limit pool s head.item = first at halike
      generalize step limit other t head.item = second at halike
      cases halike with
      | next hdepth =>
        have hafter := ih hdepth
        exact ⟨List.cons_eq_cons.mpr ⟨hhead, hafter.visits⟩, hafter.result, hafter.depth⟩
      | @stop a b s' t' hresult hdepth =>
        have hplace (r : Except RuntimeCause (Option Value)) :
            (r.mapError (head.map fun _ => ·)).map Option.isSome =
              (r.map Option.isSome).mapError (head.map fun _ => ·) := by
          cases r <;> rfl
        refine ⟨List.cons_eq_cons.mpr ⟨hhead, rfl⟩, ?_, hdepth⟩
        rw [hplace, hplace, hresult]

/-- Results that are equal without their values are the same fault, a value each, or no value. -/
theorem eq_or_isSome_of_map_isSome_eq {a b : Except RuntimeFault (Option Value)}
    (h : a.map Option.isSome = b.map Option.isSome) :
    (∃ fault, a = .error fault ∧ b = .error fault) ∨
      (∃ v w, a = .ok (some v) ∧ b = .ok (some w)) ∨ (a = .ok none ∧ b = .ok none) := by
  rcases a with fault | _ | v <;> rcases b with fault' | _ | w
  all_goals simp_all [Except.map]

/-- Neither the course of a run nor its faults depend on values. Machines with the same settings that
interpret chunks with the same code, the same lines and equally many constants, whatever these are,
come to the same instructions with equally many values on their stacks. They both end in the same
fault, or both in some value, or both in none, and leave equally many values. -/
theorem interpret_independent_of_values (m : Machine) {c d : Chunk} (hcode : c.code = d.code)
    (hlines : c.lines = d.lines) (hconstants : c.constants.length = d.constants.length) :
    ((∃ fault, (m.interpret c).1 = .error fault ∧ (m.interpret d).1 = .error fault) ∨
      (∃ v w, (m.interpret c).1 = .ok (some v) ∧ (m.interpret d).1 = .ok (some w)) ∨
      ((m.interpret c).1 = .ok none ∧ (m.interpret d).1 = .ok none)) ∧
    (m.interpret c).2.stack.values.length = (m.interpret d).2.stack.values.length ∧
    ((runOf m.config c).visits.map fun v => (v.found, v.stack.values.length)) =
      (runOf m.config d).visits.map fun v => (v.found, v.stack.values.length) := by
  have hdecode : c.decode = d.decode := by
    rw [Chunk.decode, Chunk.decode, cells_eq_iff.mpr ⟨hcode, hlines⟩]
  have hpool : c.pool.size = d.pool.size := by
    rwa [← Buffer.length_toList, ← Buffer.length_toList]
  have halike : (runOf m.config c).Alike (runOf m.config d) := by
    rw [runOf, runOf, hdecode]
    exact alike_run _ hpool rfl _
  have hvisits := halike.visits
  have hdepth := halike.depth
  simp only [Stack.depth_eq] at hvisits hdepth
  exact ⟨eq_or_isSome_of_map_isSome_eq halike.result, hdepth, hvisits⟩

/-- An addition underflows behind a division by zero as it does behind one of what is not a number
by infinity. -/
theorem interpret_independent_of_values_division :
    ∃ c d : Chunk, c.constants = [Value.ofNat 1, Value.ofNat 0] ∧
      d.constants = [Value.ofBits 0x7FF8000000000000, Value.ofBits 0x7FF0000000000000] ∧
      (({} : Machine).interpret c).1 = .error ⟨5, 2, .stackUnderflow (.arith .add)⟩ ∧
      (({} : Machine).interpret d).1 = .error ⟨5, 2, .stackUnderflow (.arith .add)⟩ := by
  let code (c : Chunk) : Chunk :=
    (((((c.writeOpcode .constant 1).write 0 1).writeOpcode .constant 1).write 1 1).writeOpcode
      (.arith .divide) 1).writeOpcode (.arith .add) 2
  let c := code ((Chunk.empty.addConstant (.ofNat 1)).addConstant (.ofNat 0))
  let d := code ((Chunk.empty.addConstant (.ofBits 0x7FF8000000000000)).addConstant
    (.ofBits 0x7FF0000000000000))
  have hrun : (({} : Machine).interpret c).1 = .error ⟨5, 2, .stackUnderflow (.arith .add)⟩ := rfl
  have hcode : c.code = d.code := by decide
  have hlines : c.lines = d.lines := by decide
  have hconstants : c.constants.length = d.constants.length := by decide
  have hboth := (interpret_independent_of_values {} hcode hlines hconstants).1
  refine ⟨c, d, rfl, rfl, hrun, ?_⟩
  rcases hboth with ⟨fault, hc, hd⟩ | ⟨v, w, hc, hd⟩ | ⟨hc, hd⟩
  · rw [hrun] at hc
    rw [hd, ← hc]
  · rw [hrun] at hc
    cases hc
  · rw [hrun] at hc
    cases hc

end Machine

end StackBytecode
