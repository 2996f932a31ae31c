import Mathlib.Data.List.Infix
import StackBytecode.Proofs.Decoding.Tiling
import StackBytecode.Proofs.Machine.Step

/-!
# Faults leave nothing behind

A run that ends in a fault has done what the instructions before the fault do, and nothing
else: its stack is the one that is left by running the code cut off at the fault, which ends
without a value. The stack never holds more values than it may, and this is also why a fault
is atomic. An operation pops before it pushes, and its push always finds the room that the
pop has made, so no operation fails after a pop.

Comparing with the cut code needs decoding to read the same instructions in both, which it
does because each of them ends before the cut.
-/

namespace StackBytecode

namespace Chunk

open Decoding

/-- The first bytes of a chunk with their lines, and all of its constants. -/
def cut (c : Chunk) (size : Nat) : Chunk := { c with cells := .ofList (c.cells.toList.take size) }

/-- The opcode of the byte at an offset. -/
def opcode? (c : Chunk) (offset : Nat) : Option Opcode := (c.byte? offset).bind Opcode.ofByte?

/-- An instruction stands at its opcode. -/
theorem opcode?_of_decodeAt {c : Chunk} {offset : Nat} {found : Placed Instruction}
    (h : c.decodeAt offset = some (.ok found)) : c.opcode? offset = some found.item.opcode := by
  obtain ⟨tail, htail⟩ := (decodeAt_eq_ok_iff.mp h).2.2
  rw [opcode?, byte?_eq, ← List.head?_drop, ← htail, Instruction.bytes, List.cons_append,
    List.head?_cons, Option.bind_some, Opcode.ofByte?_toByte]

/-- Chunks whose first cells are the same have the same instructions there. -/
theorem Reads.congr {c d : Chunk} {size offset stop : Nat} {found : List (Placed Instruction)}
    (hcells : c.cells.toList.take size = d.cells.toList.take size)
    (h : c.Reads offset found stop) (hstop : stop ≤ size) : d.Reads offset found stop := by
  induction h with
  | stays => exact .stays
  | @goes offset stop first rest hcode hrest ih =>
    have hend : offset + first.item.size ≤ size := by
      rw [hrest.stop_eq] at hstop
      omega
    have hpos : 0 < first.item.size := Nat.add_pos_left Nat.one_pos _
    obtain ⟨hoffset, hline, hbytes⟩ := decodeAt_eq_ok_iff.mp hcode
    refine .goes (decodeAt_eq_ok_iff.mpr ⟨hoffset, ?_, ?_⟩) (ih hstop)
    · rw [line?, Buffer.get?_eq] at hline ⊢
      rw [← List.getElem?_take_of_lt (by omega : offset < size), ← hcells,
        List.getElem?_take_of_lt (by omega), hline]
    · have hcode : c.code.take size = d.code.take size := by
        rw [code, code, ← List.map_take, ← List.map_take, hcells]
      have hin : first.item.bytes <+: (c.code.take size).drop offset := by
        rw [List.drop_take, List.prefix_take_iff, Instruction.length_bytes]
        exact ⟨hbytes, by omega⟩
      rw [hcode] at hin
      exact hin.trans (List.IsPrefix.drop (List.take_prefix size d.code) offset)

/-- Code that is cut off behind some instructions decodes as these. -/
theorem Reads.decode_cut {c : Chunk} {stop : Nat} {found : List (Placed Instruction)}
    (h : c.Reads 0 found stop) : (c.cut stop).decode = found.map .ok := by
  have hcells : (c.cut stop).cells.toList = c.cells.toList.take stop := Buffer.toList_ofList _
  have hreads : (c.cut stop).Reads 0 found stop :=
    h.congr (by rw [hcells, List.take_take, Nat.min_self]) (Nat.le_refl stop)
  have hend : (c.cut stop).decodeAt stop = none := by
    rw [decodeAt_eq_none_iff, size, ← Buffer.length_toList, hcells, List.length_take]
    exact Nat.min_le_left ..
  have hfrom := hreads.decodeFrom_eq
  rw [(c.cut stop).decodeFrom_eq stop, hend] at hfrom
  exact hfrom.trans (List.append_nil _)

/-- What is found in turn behind some instructions stands where these come to. -/
theorem Iterates.reads_of_append {c : Chunk} {offset : Nat} {before : List (Placed Instruction)}
    {last : Found} {after : List Found}
    (h : c.Iterates offset (before.map .ok ++ last :: after)) :
    c.Reads offset before (offsetOf last) ∧ c.decodeAt (offsetOf last) = some last := by
  induction before generalizing offset with
  | nil =>
    have hlast : c.decodeAt offset = some last := by
      cases h with
      | faults hcode => exact hcode
      | goes hcode hrest => exact hcode
    rw [offsetOf_of_decodeAt hlast]
    exact ⟨.stays, hlast⟩
  | cons first before ih =>
    cases h with
    | goes hcode hrest =>
      obtain ⟨hreads, hlast⟩ := ih hrest
      exact ⟨.goes hcode hreads, hlast⟩

end Chunk

namespace Machine

/-- A step leaves the stack within its limit also when it stops. -/
theorem Acts.depth_le_of_stop {limit : Nat} {pool : Buffer Value} {stack left : Stack}
    {i : Instruction} {result : Except RuntimeCause (Option Value)}
    (h : Acts limit pool stack i (.stop result left)) (hdepth : stack.depth ≤ limit) :
    left.depth ≤ limit := by
  cases h with
  | dangles hindex => exact hdepth
  | overflows hv hfull => exact hdepth
  | returns hstack =>
    rw [stack.depth_eq, hstack, List.length_cons] at hdepth
    rw [left.depth_eq]
    omega
  | leaves hstack => exact hdepth
  | underflows hstack => exact hdepth

/-- A run from a stack within its limit keeps to it, before every instruction and at the end. -/
theorem depth_le_run {limit : Nat} {pool : Buffer Value} {stack : Stack} {found : List Decoding.Found}
    (hdepth : stack.depth ≤ limit) :
    (∀ visit ∈ (run limit pool stack found).visits, visit.stack.depth ≤ limit) ∧
      (run limit pool stack found).stack.depth ≤ limit := by
  induction found generalizing stack with
  | nil => exact ⟨by simp [run], hdepth⟩
  | cons head rest ih =>
    cases head with
    | error fault => exact ⟨by simp [run], hdepth⟩
    | ok head =>
      have hacts := acts_step pool hdepth head.item
      rw [run]
      cases hstep : step limit pool stack head.item with
      | stop result left =>
        rw [hstep] at hacts
        exact ⟨by simpa using hdepth, hacts.depth_le_of_stop hdepth⟩
      | next stack' =>
        rw [hstep] at hacts
        obtain ⟨hvisits, hstack⟩ := ih (hacts.depth_le hdepth)
        exact ⟨by simpa using ⟨hdepth, hvisits⟩, hstack⟩

/-- Why a run that has come to a stack within its limit fails at what it finds next. -/
inductive Fails (limit : Nat) (pool : Buffer Value) (stack : Stack) :
    Decoding.Found → RuntimeFault → Prop
  | decodes (fault : DecodeFault) : Fails limit pool stack (.error fault) (fault.map .decode)
  | dangles {found : Placed Instruction} {index : UInt8} (hitem : found.item = .constant index)
      (hindex : pool.size ≤ index.toNat) :
      Fails limit pool stack (.ok found)
        (found.map fun _ => .constantOutOfRange index.toNat pool.size)
  | overflows {found : Placed Instruction} {index : UInt8} (hitem : found.item = .constant index)
      (hfull : stack.depth = limit) :
      Fails limit pool stack (.ok found) (found.map fun _ => .stackOverflow limit)
  | underflows {found : Placed Instruction} (hlow : stack.depth < found.item.arity) :
      Fails limit pool stack (.ok found) (found.map fun i => .stackUnderflow i.opcode)

/-- An instruction that fails leaves the stack as it was. -/
theorem Acts.fails {limit : Nat} {pool : Buffer Value} {stack left : Stack}
    {found : Placed Instruction} {cause : RuntimeCause}
    (h : Acts limit pool stack found.item (.stop (.error cause) left)) (hdepth : stack.depth ≤ limit) :
    left = stack ∧ Fails limit pool stack (.ok found) (found.map fun _ => cause) := by
  obtain ⟨offset, line, item⟩ := found
  cases h with
  | dangles hindex => exact ⟨rfl, .dangles rfl hindex⟩
  | overflows hv hfull => exact ⟨rfl, .overflows rfl (Nat.le_antisymm hdepth hfull)⟩
  | underflows hstack => exact ⟨rfl, .underflows hstack⟩

/-- A run that fails has run the instructions before the fault to their end, and leaves their
stack. -/
theorem run_eq_error {limit : Nat} {pool : Buffer Value} {stack : Stack} {found : List Decoding.Found}
    {fault : RuntimeFault} (hdepth : stack.depth ≤ limit)
    (h : (run limit pool stack found).result = .error fault) :
    ∃ (before : List (Placed Instruction)) (last : Decoding.Found) (after : List Decoding.Found),
      found = before.map .ok ++ last :: after ∧
      (run limit pool stack (before.map .ok)).result = .ok none ∧
      (run limit pool stack (before.map .ok)).stack = (run limit pool stack found).stack ∧
      Fails limit pool (run limit pool stack found).stack last fault := by
  induction found generalizing stack with
  | nil => cases h
  | cons head rest ih =>
    cases head with
    | error other =>
      obtain rfl := Except.error.inj h
      exact ⟨[], .error other, rest, rfl, rfl, rfl, .decodes other⟩
    | ok head =>
      have hacts := acts_step pool hdepth head.item
      rw [run] at h ⊢
      cases hstep : step limit pool stack head.item with
      | stop result left =>
        rw [hstep] at h hacts
        cases result with
        | ok value => cases h
        | error cause =>
          obtain rfl : (head.map fun _ => cause) = fault := Except.error.inj h
          obtain ⟨rfl, hfails⟩ := hacts.fails hdepth
          exact ⟨[], .ok head, rest, rfl, rfl, rfl, hfails⟩
      | next stack' =>
        rw [hstep] at h hacts
        obtain ⟨before, last, after, rfl, hresult, hstack, hfails⟩ := ih (hacts.depth_le hdepth) h
        refine ⟨head :: before, last, after, rfl, ?_, ?_, hfails⟩
        · rw [List.map_cons, run, hstep]
          exact hresult
        · rw [List.map_cons, run, hstep]
          exact hstack

/-- A fault stands where the run found what it fails at. -/
theorem Fails.offset_eq {limit : Nat} {pool : Buffer Value} {stack : Stack} {last : Decoding.Found}
    {fault : RuntimeFault} (h : Fails limit pool stack last fault) :
    fault.offset = Decoding.offsetOf last := by
  cases h <;> rfl

/-- What a fault says of the code holds of what stands at its offset. -/
theorem Fails.located {limit : Nat} {pool : Buffer Value} {stack : Stack} {last : Decoding.Found}
    {fault : RuntimeFault} {c : Chunk} (h : Fails limit pool stack last fault)
    (hlast : c.decodeAt fault.offset = some last) :
    c.line? fault.offset = some fault.line ∧
      ∀ op, fault.item = .stackUnderflow op ∨ fault.item = .decode (.truncatedOperand op) →
        c.opcode? fault.offset = some op := by
  cases h with
  | decodes fault =>
    obtain ⟨-, hline, -⟩ := Chunk.decodeAt_eq_error_iff.mp hlast
    refine ⟨hline, fun op hop => ?_⟩
    have hitem : fault.item = .truncatedOperand op := by simpa [Placed.map] using hop
    obtain ⟨rfl, -, hbyte⟩ := (Chunk.truncatedOperand_iff hlast op).mp hitem
    rw [Chunk.opcode?, Chunk.byte?_eq]
    exact congrArg (Option.bind · Opcode.ofByte?) hbyte
  | dangles hitem hindex =>
    exact ⟨(Chunk.decodeAt_eq_ok_iff.mp hlast).2.1, by simp [Placed.map]⟩
  | overflows hitem hfull =>
    exact ⟨(Chunk.decodeAt_eq_ok_iff.mp hlast).2.1, by simp [Placed.map]⟩
  | underflows hlow =>
    refine ⟨(Chunk.decodeAt_eq_ok_iff.mp hlast).2.1, fun op hop => ?_⟩
    rw [Chunk.opcode?_of_decodeAt hlast]
    simpa [Placed.map] using hop

/-- Only a constant finds the stack full. -/
theorem Fails.of_stackOverflow {limit max : Nat} {pool : Buffer Value} {stack : Stack}
    {last : Decoding.Found} {fault : RuntimeFault} {c : Chunk} (h : Fails limit pool stack last fault)
    (hlast : c.decodeAt fault.offset = some last) (hitem : fault.item = .stackOverflow max) :
    max = limit ∧ c.opcode? fault.offset = some .constant ∧ stack.depth = limit := by
  cases h with
  | decodes fault => cases hitem
  | dangles hfound hindex => cases hitem
  | underflows hlow => cases hitem
  | overflows hfound hfull =>
    cases hitem
    refine ⟨rfl, ?_, hfull⟩
    rw [Chunk.opcode?_of_decodeAt hlast, hfound]
    rfl

/-- An arithmetic operation finds fewer than two values, or a negation none. -/
theorem Fails.of_stackUnderflow {limit : Nat} {pool : Buffer Value} {stack : Stack}
    {last : Decoding.Found} {fault : RuntimeFault} {op : Opcode} (h : Fails limit pool stack last fault)
    (hitem : fault.item = .stackUnderflow op) :
    (∃ f, op = .arith f ∧ stack.depth < 2) ∨ (op = .negate ∧ stack.depth = 0) := by
  cases h with
  | decodes fault => cases hitem
  | dangles hfound hindex => cases hitem
  | overflows hfound hfull => cases hitem
  | @underflows found hlow =>
    obtain ⟨offset, line, i⟩ := found
    cases hitem
    cases i with
    | constant index => cases hlow
    | ret => cases hlow
    | arith f => exact .inl ⟨f, rfl, hlow⟩
    | negate => exact .inr ⟨rfl, Nat.lt_one_iff.mp hlow⟩

/-- A fault is atomic and well located, and the limit on the stack is an invariant. Whatever the
limit and the chunk, no stack of a run holds more values than it may. If the run ends in a fault,
the line of the fault is the one of the code at its offset, and the opcode it names, if it names
one, is the one that stands there. Interpreting the code up to that offset, with the same
constants, ends without a value and leaves the very stack that the fault leaves. A full stack is
found by a constant only, and stays full; too few values are fewer than two for an arithmetic
operation and none for a negation. -/
theorem interpret_fault_atomic (m : Machine) (c : Chunk) :
    (∀ visit ∈ (runOf m.config c).visits, visit.stack.depth ≤ m.config.stackMax) ∧
    (m.interpret c).2.stack.depth ≤ m.config.stackMax ∧
    ∀ fault, (m.interpret c).1 = .error fault →
      c.line? fault.offset = some fault.line ∧
      (∀ op, fault.item = .stackUnderflow op ∨ fault.item = .decode (.truncatedOperand op) →
        c.opcode? fault.offset = some op) ∧
      (m.interpret (c.cut fault.offset)).1 = .ok none ∧
      (m.interpret (c.cut fault.offset)).2.stack = (m.interpret c).2.stack ∧
      (∀ max, fault.item = .stackOverflow max →
        max = m.config.stackMax ∧ c.opcode? fault.offset = some .constant ∧
          (m.interpret c).2.stack.depth = m.config.stackMax) ∧
      ∀ op, fault.item = .stackUnderflow op →
        (∃ f, op = .arith f ∧ (m.interpret c).2.stack.depth < 2) ∨
          (op = .negate ∧ (m.interpret c).2.stack.depth = 0) := by
  have hempty : Stack.empty.depth ≤ m.config.stackMax := Nat.zero_le _
  refine ⟨(depth_le_run hempty).1, (depth_le_run hempty).2, fun fault hfault => ?_⟩
  obtain ⟨before, last, after, hdecode, hresult, hleft, hfails⟩ := run_eq_error hempty hfault
  have hiterates := c.iterates_decode
  rw [hdecode] at hiterates
  obtain ⟨hreads, hlast⟩ := hiterates.reads_of_append
  rw [← hfails.offset_eq] at hreads hlast
  have hcut : runOf m.config (c.cut fault.offset) =
      run m.config.stackMax c.pool .empty (before.map .ok) := by
    rw [runOf, hreads.decode_cut]
    rfl
  obtain ⟨hline, hopcode⟩ := hfails.located hlast
  refine ⟨hline, hopcode, ?_, ?_, fun max => hfails.of_stackOverflow hlast,
    fun op => hfails.of_stackUnderflow⟩
  · exact (congrArg Run.result hcut).trans hresult
  · exact (congrArg Run.stack hcut).trans hleft

/-- With room for one value, pushing it a second time fails and leaves the first. -/
theorem interpret_fault_atomic_second_constant :
    ∃ (m : Machine) (c : Chunk), (m.interpret c).1 = .error ⟨2, 7, .stackOverflow 1⟩ ∧
      c.opcode? 2 = some .constant ∧ (m.interpret (c.cut 2)).1 = .ok none ∧
      (m.interpret c).2.stack.depth = 1 := by
  let m : Machine := { config := { stackMax := 1 } }
  let c := ((((Chunk.empty.addConstant (.ofNat 1)).writeOpcode .constant 3).write 0 3).writeOpcode
    .constant 7).write 0 7
  have hrun : (m.interpret c).1 = .error ⟨2, 7, .stackOverflow 1⟩ := rfl
  obtain ⟨-, -, hfault⟩ := interpret_fault_atomic m c
  obtain ⟨-, -, hcut, -, hfull, -⟩ := hfault _ hrun
  obtain ⟨-, hopcode, hdepth⟩ := hfull 1 rfl
  exact ⟨m, c, hrun, hopcode, hcut, hdepth⟩

end Machine

end StackBytecode
