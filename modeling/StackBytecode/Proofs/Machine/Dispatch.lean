import StackBytecode.Machine
import StackBytecode.Proofs.Decoding.Layout

/-!
# Dispatching by an instruction pointer

A run is computed along the list of what decoding finds. It is also the run that an
instruction pointer takes: what stands at the pointer is decoded only when the pointer
comes to it, and then the pointer moves behind it. What stands behind a return, a fault of
the stack or a place that does not decode is never read.
-/

namespace StackBytecode.Machine

/-- From an instruction pointer and a stack, dispatching takes a run. -/
inductive Dispatches (limit : Nat) (c : Chunk) : Nat → Stack → Run → Prop
  | off {ip : Nat} {stack : Stack} (hcode : c.decodeAt ip = none) :
      Dispatches limit c ip stack ⟨[], .ok none, stack⟩
  | faults {ip : Nat} {stack : Stack} {fault : DecodeFault}
      (hcode : c.decodeAt ip = some (.error fault)) :
      Dispatches limit c ip stack ⟨[], .error (fault.map .decode), stack⟩
  | stops {ip : Nat} {stack left : Stack} {found : Placed Instruction}
      {result : Except RuntimeCause (Option Value)} (hcode : c.decodeAt ip = some (.ok found))
      (hstep : step limit c.pool stack found.item = .stop result left) :
      Dispatches limit c ip stack ⟨[⟨found, stack⟩], result.mapError (found.map fun _ => ·), left⟩
  | goes {ip : Nat} {stack stack' : Stack} {found : Placed Instruction} {after : Run}
      (hcode : c.decodeAt ip = some (.ok found))
      (hstep : step limit c.pool stack found.item = .next stack')
      (hafter : Dispatches limit c (ip + found.item.size) stack' after) :
      Dispatches limit c ip stack { after with visits := ⟨found, stack⟩ :: after.visits }

/-- Dispatching takes the run of what is found in turn from the pointer on. -/
theorem dispatches_run {limit ip : Nat} {c : Chunk} {found : List Decoding.Found} (stack : Stack)
    (h : c.Iterates ip found) : Dispatches limit c ip stack (run limit c.pool stack found) := by
  induction h generalizing stack with
  | off hcode => exact .off hcode
  | faults hcode => exact .faults hcode
  | @goes ip found rest hcode hrest ih =>
    rw [run]
    cases hstep : step limit c.pool stack found.item with
    | stop result left => exact .stops hcode hstep
    | next stack' => exact .goes hcode hstep (ih stack')

/-- Dispatching takes no other run than that of what is found from the pointer on. -/
theorem Dispatches.eq_run {limit ip : Nat} {c : Chunk} {stack : Stack} {taken : Run}
    (h : Dispatches limit c ip stack taken) : taken = run limit c.pool stack (c.decodeFrom ip) := by
  induction h with
  | off hcode => rw [c.decodeFrom_eq, hcode, run]
  | faults hcode => rw [c.decodeFrom_eq, hcode, run]
  | stops hcode hstep => rw [c.decodeFrom_eq, hcode, run, hstep]
  | goes hcode hstep hafter ih => rw [c.decodeFrom_eq, hcode, run, hstep, ih]

/-- The run of a chunk is the one that dispatching takes from offset zero and no values. -/
theorem dispatches_iff_runOf {config : Config} {c : Chunk} {taken : Run} :
    Dispatches config.stackMax c 0 .empty taken ↔ taken = runOf config c := by
  constructor
  · intro h
    exact h.eq_run
  · intro h
    rw [h]
    exact dispatches_run .empty c.iterates_decode

end StackBytecode.Machine
