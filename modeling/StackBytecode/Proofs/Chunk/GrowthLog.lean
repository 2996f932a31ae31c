import StackBytecode.Chunk.Edit
import StackBytecode.Proofs.Buffer.GrowthLog

/-!
# The log of a chunk that is filled

The code and the pool of a chunk grow at different rates, and their growths stand in one log. Each
stands where the append is that brings it, so the log is tied to the appends one by one. Of either
buffer it tells the growths that the buffer has had, because an append to the other one leaves it
and its part of the log as they are.
-/

namespace StackBytecode

namespace Log

/-- The capacities in a record of the growth of code. -/
def Record.chunkGrowth? : Record → Option (Nat × Nat)
  | .chunkGrown old new => some (old, new)
  | _ => none

/-- The capacities in a record of the growth of a pool. -/
def Record.poolGrowth? : Record → Option (Nat × Nat)
  | .poolGrown old new => some (old, new)
  | _ => none

end Log

namespace Chunk

/-- Appends lead from a chunk to another and log this. Every append logs the growth that it brings to
its buffer, if it brings one, and nothing else, before the next append is made. -/
inductive Fills : Chunk → List Edit → List Log.Record → Chunk → Prop
  | done (c : Chunk) : Fills c [] [] c
  | write {c d : Chunk} {byte : UInt8} {line : UInt32} {growth : Option (Nat × Nat)}
      {edits : List Edit} {log : List Log.Record} (happends : c.cells.Appends ⟨byte, line⟩ growth)
      (h : Fills (c.write byte line) edits log d) :
      Fills c (.write byte line :: edits)
        ((growth.map fun (old, new) => .chunkGrown old new).toList ++ log) d
  | addConstant {c d : Chunk} {v : Value} {growth : Option (Nat × Nat)} {edits : List Edit}
      {log : List Log.Record} (happends : c.pool.Appends v growth)
      (h : Fills (c.addConstant v) edits log d) :
      Fills c (.addConstant v :: edits)
        ((growth.map fun (old, new) => .poolGrown old new).toList ++ log) d

/-- Edits that clear nothing fill a chunk, and their log is that of their appends. -/
theorem fills_recordsOfAll {c : Chunk} {edits : List Edit} (hedits : ∀ edit ∈ edits, edit ≠ .clear)
    (hcells : c.cells.size ≤ c.cells.capacity) (hpool : c.pool.size ≤ c.pool.capacity)
    (hsize : c.cells.size + edits.length < 2 ^ 63) (hpoolSize : c.pool.size + edits.length < 2 ^ 63) :
    Fills c edits (c.recordsOfAll edits) (c.applyAll edits) := by
  induction edits generalizing c with
  | nil => exact .done c
  | cons edit edits ih =>
    rw [List.length_cons] at hsize hpoolSize
    rw [recordsOfAll]
    have hrest := fun e he => hedits e (List.mem_cons_of_mem edit he)
    cases edit with
    | write byte line =>
      refine .write (Buffer.appends_growth? hcells _) (ih hrest ?_ hpool ?_ (Nat.lt_of_succ_lt hpoolSize))
      · exact Buffer.size_push_le_capacity hcells (by omega) _
      · rw [Chunk.write, Buffer.size_push]
        omega
    | addConstant v =>
      refine .addConstant (Buffer.appends_growth? hpool _) (ih hrest hcells ?_ (Nat.lt_of_succ_lt hsize) ?_)
      · exact Buffer.size_push_le_capacity hpool (by omega) _
      · rw [Chunk.addConstant, Buffer.size_push]
        omega
    | clear => exact absurd rfl (hedits .clear (List.mem_cons_self ..))

/-- The log of filling a chunk holds growths only. -/
theorem Fills.isGrowth {c d : Chunk} {edits : List Edit} {log : List Log.Record}
    (h : Fills c edits log d) :
    ∀ record ∈ log, record.chunkGrowth?.isSome ∨ record.poolGrowth?.isSome := by
  induction h with
  | done c => simp
  | @write c d byte line growth edits log happends h ih =>
    cases growth with
    | none => exact ih
    | some growth => exact List.forall_mem_cons.mpr ⟨.inl rfl, ih⟩
  | @addConstant c d v growth edits log happends h ih =>
    cases growth with
    | none => exact ih
    | some growth => exact List.forall_mem_cons.mpr ⟨.inr rfl, ih⟩

/-- The growths of code in the log of filling a chunk come after those that its code has had. -/
theorem Fills.grown_cells {c d : Chunk} {edits : List Edit} {log : List Log.Record}
    {growths : List (Nat × Nat)} (h : Fills c edits log d)
    (hgrown : Growth.Grown c.cells.size c.cells.capacity growths)
    (hsize : c.cells.size + edits.length < 2 ^ 63) :
    Growth.Grown d.cells.size d.cells.capacity
      (growths ++ log.filterMap Log.Record.chunkGrowth?) := by
  induction h generalizing growths with
  | done c => rwa [List.filterMap_nil, List.append_nil]
  | @write c d byte line growth edits log happends h ih =>
    rw [List.length_cons] at hsize
    have hrest := ih (happends.grown hgrown (by omega)) (by rw [Chunk.write, Buffer.size_push]; omega)
    rw [List.append_assoc] at hrest
    cases growth <;> exact hrest
  | @addConstant c d v growth edits log happends h ih =>
    rw [List.length_cons] at hsize
    have hrest := ih hgrown (Nat.lt_of_succ_lt hsize)
    cases growth <;> exact hrest

/-- The growths of the pool in the log of filling a chunk come after those that its pool has had. -/
theorem Fills.grown_pool {c d : Chunk} {edits : List Edit} {log : List Log.Record}
    {growths : List (Nat × Nat)} (h : Fills c edits log d)
    (hgrown : Growth.Grown c.pool.size c.pool.capacity growths)
    (hsize : c.pool.size + edits.length < 2 ^ 63) :
    Growth.Grown d.pool.size d.pool.capacity
      (growths ++ log.filterMap Log.Record.poolGrowth?) := by
  induction h generalizing growths with
  | done c => rwa [List.filterMap_nil, List.append_nil]
  | @write c d byte line growth edits log happends h ih =>
    rw [List.length_cons] at hsize
    have hrest := ih hgrown (Nat.lt_of_succ_lt hsize)
    cases growth <;> exact hrest
  | @addConstant c d v growth edits log happends h ih =>
    rw [List.length_cons] at hsize
    have hrest := ih (happends.grown hgrown (by omega))
      (by rw [Chunk.addConstant, Buffer.size_push]; omega)
    rw [List.append_assoc] at hrest
    cases growth <;> exact hrest

/-- No edit logs that something was assembled. -/
theorem assembled_notMem_recordsOfAll (c : Chunk) (edits : List Edit) (bytes constants : Nat) :
    .assembled bytes constants ∉ c.recordsOfAll edits := by
  induction edits generalizing c with
  | nil => exact List.not_mem_nil
  | cons edit edits ih =>
    have hedit : .assembled bytes constants ∉ c.recordsOf edit := by
      cases edit with
      | write byte line => cases hgrowth : c.cells.growth? <;> simp [recordsOf, hgrowth]
      | addConstant v => cases hgrowth : c.pool.growth? <;> simp [recordsOf, hgrowth]
      | clear => simp [recordsOf]
    rw [recordsOfAll, List.mem_append]
    exact not_or_intro hedit (ih _)

end Chunk

end StackBytecode
