import Mathlib.Data.List.Chain
import Mathlib.Tactic.IntervalCases
import StackBytecode.Proofs.Chunk.History
import StackBytecode.Proofs.Decoding.Layout

/-!
# Decoding tiles the code

What stands at an offset is an instruction exactly when the bytes from there on begin with
that instruction's own, and a fault exactly when the byte there is no opcode or is the last
one and misses its operand. So decoding and encoding undo each other. Instructions that are
written one after the other are read back as they were, and the instructions read from any
bytes are, written again, the very bytes up to the first fault or to the end.

The operand byte of an instruction is passed over and never read as an opcode, which is why
the statements go from offset to offset and not from byte to byte.
-/

namespace StackBytecode

/-! ## What stands at an offset -/

namespace Opcode

/-- The byte of an opcode is the only one that stands for it. -/
theorem toByte_of_ofByte? {byte : UInt8} {op : Opcode} (h : ofByte? byte = some op) :
    op.toByte = byte := by
  have hlt : byte.toNat < 7 := by
    rw [← Nat.not_le, ← ofByte?_eq_none_iff, h]
    exact Option.some_ne_none op
  apply UInt8.toNat_inj.mp
  rw [ofByte?] at h
  generalize byte.toNat = n at h hlt
  interval_cases n <;> cases h <;> rfl

end Opcode

namespace Decoding

/-- Cells begin with an instruction exactly when their bytes begin with those of the instruction. -/
theorem instruction?_eq_ok_iff {cell : Cell} {rest : List Cell} {i : Instruction} :
    instruction? cell rest.head? = .ok i ↔ i.bytes <+: (cell :: rest).map Cell.byte := by
  constructor
  · intro h
    rw [instruction?.eq_def] at h
    split at h
    case h_1 => cases h
    case h_2 hop =>
      split at h
      case h_1 => cases h
      case h_2 operand hoperand =>
        obtain rfl := Except.ok.inj h
        obtain ⟨rest, rfl⟩ := List.head?_eq_some_iff.mp hoperand
        exact ⟨rest.map Cell.byte, by
          rw [List.map_cons, ← Opcode.toByte_of_ofByte? hop]
          rfl⟩
    all_goals
      rename_i hop
      obtain rfl := Except.ok.inj h
      exact ⟨rest.map Cell.byte, by
        rw [List.map_cons, ← Opcode.toByte_of_ofByte? hop]
        rfl⟩
  · intro h
    obtain ⟨tail, htail⟩ := h
    rw [Instruction.bytes, List.cons_append, List.map_cons] at htail
    obtain ⟨hbyte, hoperand⟩ := List.cons.inj htail
    rw [instruction?.eq_def, ← hbyte, Opcode.ofByte?_toByte]
    cases i with
    | constant index =>
      cases rest with
      | nil => cases hoperand
      | cons operand rest =>
        obtain ⟨rfl, -⟩ := List.cons.inj hoperand
        rfl
    | ret => rfl
    | arith f => rfl
    | negate => rfl

/-- Cells begin with no instruction exactly when the first byte is no opcode, or is that of a
constant and the last one. -/
theorem instruction?_eq_error_iff {cell : Cell} {rest : List Cell} {cause : DecodeCause} :
    instruction? cell rest.head? = .error cause ↔
      (cause = .unknownOpcode cell.byte ∧ 7 ≤ cell.byte.toNat) ∨
        (cause = .truncatedOperand .constant ∧ cell.byte = 0 ∧ rest = []) := by
  rw [instruction?.eq_def]
  cases hop : Opcode.ofByte? cell.byte with
  | none =>
    have hhigh : 7 ≤ cell.byte.toNat := (Opcode.ofByte?_eq_none_iff _).mp hop
    have hnonzero : cell.byte ≠ 0 := by
      intro hzero
      rw [hzero] at hhigh
      exact absurd hhigh (by decide)
    simp [hhigh, hnonzero, eq_comm]
  | some op =>
    have hbyte := Opcode.toByte_of_ofByte? hop
    cases op with
    | constant => cases rest <;> simp [← hbyte, Opcode.toByte, eq_comm]
    | ret => simp [← hbyte, Opcode.toByte]
    | arith f => cases f <;> simp [← hbyte, Opcode.toByte]
    | negate => simp [← hbyte, Opcode.toByte]

end Decoding

namespace Chunk

open Decoding

/-- What stands at an offset is read from the cells from there on. -/
theorem decodeAt_eq (c : Chunk) (offset : Nat) :
    c.decodeAt offset = (c.cells.toList.drop offset).head?.map fun cell =>
      Decoding.read offset cell (c.cells.toList.drop offset).tail.head? := by
  rw [decodeAt, Buffer.get?_eq, Buffer.get?_eq, ← List.head?_drop, ← List.head?_drop,
    ← List.tail_drop]

/-- The byte at an offset is that of the code. -/
theorem byte?_eq (c : Chunk) (offset : Nat) : c.byte? offset = c.code[offset]? := by
  rw [byte?, Buffer.get?_eq, code, List.getElem?_map]

/-- The line at an offset is that of the line table. -/
theorem line?_eq (c : Chunk) (offset : Nat) : c.line? offset = c.lines[offset]? := by
  rw [line?, Buffer.get?_eq, lines, List.getElem?_map]

/-- Nothing stands at or past the end of the code. -/
theorem decodeAt_eq_none_iff {c : Chunk} {offset : Nat} :
    c.decodeAt offset = none ↔ c.size ≤ offset := by
  rw [decodeAt, Option.map_eq_none_iff, Buffer.get?_eq_none_iff]
  rfl

/-- An instruction stands at an offset when the code goes on from there with its bytes. -/
theorem decodeAt_eq_ok_iff {c : Chunk} {offset : Nat} {found : Placed Instruction} :
    c.decodeAt offset = some (.ok found) ↔
      found.offset = offset ∧ c.line? offset = some found.line ∧
        found.item.bytes <+: c.code.drop offset := by
  rw [decodeAt_eq, line?, Buffer.get?_eq, ← List.head?_drop, code, ← List.map_drop]
  cases c.cells.toList.drop offset with
  | nil => simp
  | cons cell rest =>
    rw [← instruction?_eq_ok_iff, List.head?_cons, List.tail_cons, Option.map_some, Option.map_some,
      Decoding.read.eq_def]
    cases instruction? cell rest.head? with
    | error cause => simp
    | ok i =>
      obtain ⟨start, line, item⟩ := found
      simp [eq_comm]

/-- A fault stands at an offset when the byte there is no opcode, or is that of a constant at the
end of the code. -/
theorem decodeAt_eq_error_iff {c : Chunk} {offset : Nat} {fault : DecodeFault} :
    c.decodeAt offset = some (.error fault) ↔
      fault.offset = offset ∧ c.line? offset = some fault.line ∧
        ((∃ byte, fault.item = .unknownOpcode byte ∧ c.byte? offset = some byte ∧ 7 ≤ byte.toNat) ∨
          (fault.item = .truncatedOperand .constant ∧ c.byte? offset = some 0 ∧
            offset + 1 = c.size)) := by
  have hsize : (c.cells.toList.drop offset).length = c.size - offset := by
    rw [List.length_drop, Buffer.length_toList]
    rfl
  rw [decodeAt_eq, line?, byte?, Buffer.get?_eq, ← List.head?_drop]
  cases hcells : c.cells.toList.drop offset with
  | nil => simp
  | cons cell rest =>
    rw [hcells, List.length_cons] at hsize
    have hlast : rest = [] ↔ offset + 1 = c.size := by
      rw [← List.length_eq_zero_iff]
      omega
    have hfault (cause : DecodeCause) : instruction? cell rest.head? = .error cause ↔
        (∃ byte, cause = .unknownOpcode byte ∧ some cell.byte = some byte ∧ 7 ≤ byte.toNat) ∨
          (cause = .truncatedOperand .constant ∧ some cell.byte = some 0 ∧ offset + 1 = c.size) := by
      rw [instruction?_eq_error_iff, hlast]
      simp
    obtain ⟨start, line, cause⟩ := fault
    rw [List.head?_cons, List.tail_cons, Option.map_some, Option.map_some, Option.map_some, ← hfault,
      Decoding.read.eq_def]
    cases instruction? cell rest.head? with
    | error other => simp [eq_comm]
    | ok i => simp

/-- The fault that stands at an offset is an unknown opcode exactly when the byte there is above all
opcodes. -/
theorem unknownOpcode_iff {c : Chunk} {offset : Nat} {fault : DecodeFault}
    (h : c.decodeAt offset = some (.error fault)) (byte : UInt8) :
    fault.item = .unknownOpcode byte ↔ c.code[offset]? = some byte ∧ 7 ≤ byte.toNat := by
  obtain ⟨-, -, hcause⟩ := decodeAt_eq_error_iff.mp h
  rw [byte?_eq] at hcause
  constructor
  · intro hitem
    rcases hcause with ⟨other, hother, hbyte, hhigh⟩ | ⟨hother, -⟩
    · cases hitem.symm.trans hother
      exact ⟨hbyte, hhigh⟩
    · cases hitem.symm.trans hother
  · intro hbyte
    obtain ⟨hbyte, hhigh⟩ := hbyte
    rcases hcause with ⟨other, hother, hbyte', -⟩ | ⟨-, hbyte', -⟩
    · rw [hother, Option.some.inj (hbyte'.symm.trans hbyte)]
    · cases hbyte'.symm.trans hbyte
      exact absurd hhigh (by decide)

/-- The fault that stands at an offset is a missing operand exactly when the offset is the last one
and holds the byte of a constant. -/
theorem truncatedOperand_iff {c : Chunk} {offset : Nat} {fault : DecodeFault}
    (h : c.decodeAt offset = some (.error fault)) (op : Opcode) :
    fault.item = .truncatedOperand op ↔
      op = .constant ∧ offset + 1 = c.code.length ∧ c.code[offset]? = some 0 := by
  obtain ⟨-, -, hcause⟩ := decodeAt_eq_error_iff.mp h
  rw [byte?_eq, ← length_code] at hcause
  constructor
  · intro hitem
    rcases hcause with ⟨other, hother, -⟩ | ⟨hother, hbyte, hlast⟩
    · cases hitem.symm.trans hother
    · cases hitem.symm.trans hother
      exact ⟨rfl, hlast, hbyte⟩
  · intro hplace
    obtain ⟨rfl, -, hbyte⟩ := hplace
    rcases hcause with ⟨other, -, hbyte', hhigh⟩ | ⟨hother, -⟩
    · cases hbyte'.symm.trans hbyte
      exact absurd hhigh (by decide)
    · exact hother

/-! ## Reading instructions in turn -/

/-- From one offset decoding reads instructions in turn and comes to another. -/
inductive Reads (c : Chunk) : Nat → List (Placed Instruction) → Nat → Prop
  | stays {offset : Nat} : Reads c offset [] offset
  | goes {offset stop : Nat} {found : Placed Instruction} {rest : List (Placed Instruction)}
      (hcode : c.decodeAt offset = some (.ok found))
      (hrest : Reads c (offset + found.item.size) rest stop) : Reads c offset (found :: rest) stop

/-- The first instruction that is read stands at the first offset. -/
theorem Reads.offset_head {c : Chunk} {offset stop : Nat} {found : List (Placed Instruction)}
    (h : c.Reads offset found stop) : ∀ p ∈ found.head?, p.offset = offset := by
  cases h with
  | stays => simp
  | goes hcode hrest => simpa using (decodeAt_eq_ok_iff.mp hcode).1

/-- Each instruction that is read stands right behind the one before it. -/
theorem Reads.isChain {c : Chunk} {offset stop : Nat} {found : List (Placed Instruction)}
    (h : c.Reads offset found stop) :
    found.IsChain fun p q => q.offset = p.offset + p.item.size := by
  induction h with
  | stays => exact List.IsChain.nil
  | goes hcode hrest ih =>
    rw [List.isChain_cons]
    refine ⟨?_, ih⟩
    intro q hq
    rw [hrest.offset_head q hq, (decodeAt_eq_ok_iff.mp hcode).1]

/-- The code goes on with the bytes of what is read, and then with that from the last offset on. -/
theorem Reads.code_drop {c : Chunk} {offset stop : Nat} {found : List (Placed Instruction)}
    (h : c.Reads offset found stop) :
    c.code.drop offset = (found.flatMap fun p => p.item.bytes) ++ c.code.drop stop := by
  induction h with
  | stays => rfl
  | @goes offset stop first rest hcode hrest ih =>
    obtain ⟨tail, htail⟩ := (decodeAt_eq_ok_iff.mp hcode).2.2
    have hdrop : tail = c.code.drop (offset + first.item.size) := by
      rw [← List.drop_drop, ← htail, ← Instruction.length_bytes, List.drop_left]
    rw [← htail, hdrop, ih, List.flatMap_cons, List.append_assoc]

/-- The last offset is as far behind the first as there are bytes. -/
theorem Reads.stop_eq {c : Chunk} {offset stop : Nat} {found : List (Placed Instruction)}
    (h : c.Reads offset found stop) :
    stop = offset + (found.flatMap fun p => p.item.bytes).length := by
  induction h with
  | stays => rfl
  | goes hcode hrest ih =>
    rw [ih, List.flatMap_cons, List.length_append, Instruction.length_bytes, Nat.add_assoc]

/-- Decoding finds what is read, and then what it finds from the last offset on. -/
theorem Reads.decodeFrom_eq {c : Chunk} {offset stop : Nat} {found : List (Placed Instruction)}
    (h : c.Reads offset found stop) :
    c.decodeFrom offset = found.map .ok ++ c.decodeFrom stop := by
  induction h with
  | stays => rfl
  | goes hcode hrest ih =>
    rw [Chunk.decodeFrom_eq, hcode, List.map_cons, List.cons_append, ← ih]

/-- What is found in turn are instructions that are read, up to the end of the code or to a fault. -/
theorem Iterates.reads {c : Chunk} {offset : Nat} {list : List Found} (h : c.Iterates offset list) :
    ∃ found stop, c.Reads offset found stop ∧
      ((c.decodeAt stop = none ∧ list = found.map .ok) ∨
        ∃ fault, c.decodeAt stop = some (.error fault) ∧ list = found.map .ok ++ [.error fault]) := by
  induction h with
  | @off offset hcode => exact ⟨[], offset, .stays, .inl ⟨hcode, rfl⟩⟩
  | @faults offset fault hcode => exact ⟨[], offset, .stays, .inr ⟨fault, hcode, rfl⟩⟩
  | @goes offset first list hcode hrest ih =>
    obtain ⟨found, stop, hreads, hend⟩ := ih
    refine ⟨first :: found, stop, .goes hcode hreads, ?_⟩
    rcases hend with ⟨hnone, rfl⟩ | ⟨fault, hfault, rfl⟩
    · exact .inl ⟨hnone, rfl⟩
    · exact .inr ⟨fault, hfault, rfl⟩

/-- The instructions of a chunk are read from its start on, up to the end of the code or to the
fault that ends decoding. -/
theorem reads_instructions (c : Chunk) :
    ∃ stop, c.Reads 0 c.instructions stop ∧
      ((c.decodeAt stop = none ∧ c.decode = c.instructions.map .ok ∧ c.decodeFault? = none) ∨
        ∃ fault, c.decodeAt stop = some (.error fault) ∧
          c.decode = c.instructions.map .ok ++ [.error fault] ∧ c.decodeFault? = some fault) := by
  obtain ⟨found, stop, hreads, hend⟩ := c.iterates_decode.reads
  rcases hend with ⟨hnone, hdecode⟩ | ⟨fault, hfault, hdecode⟩
  · have hinstructions := instructions_of_decode hdecode
    refine ⟨stop, hinstructions.symm ▸ hreads, .inl ⟨hnone, hinstructions.symm ▸ hdecode, ?_⟩⟩
    rw [decodeFault?, hdecode]
    exact List.findSome?_eq_none_iff.mpr (List.forall_mem_map.mpr fun _ _ => rfl)
  · have hinstructions : c.instructions = found := by
      rw [instructions, hdecode, List.filterMap_append, List.filterMap_map]
      exact (List.append_nil _).trans List.filterMap_some
    refine ⟨stop, hinstructions.symm ▸ hreads, .inr ⟨fault, hfault, hinstructions.symm ▸ hdecode, ?_⟩⟩
    exact List.findSome?_eq_some_iff.mpr
      ⟨_, _, _, hdecode, rfl, List.forall_mem_map.mpr fun _ _ => rfl⟩

/-- Code without a fault is read to its end as its instructions. -/
theorem reads_of_clean {c : Chunk} (h : c.decodeFault? = none) :
    ∃ stop, c.size ≤ stop ∧ c.Reads 0 c.instructions stop := by
  obtain ⟨stop, hreads, ⟨hnone, -⟩ | ⟨fault, -, -, hfault⟩⟩ := c.reads_instructions
  · exact ⟨stop, decodeAt_eq_none_iff.mp hnone, hreads⟩
  · cases h.symm.trans hfault

/-! ## Both directions -/

/-- The edits that write instructions with their source lines. -/
def programEdits (program : List (UInt32 × Instruction)) : List Edit :=
  program.flatMap fun (line, i) => i.edits line

/-- Writing instructions clears nothing. -/
theorem ne_clear_of_mem_programEdits {program : List (UInt32 × Instruction)} :
    ∀ edit ∈ programEdits program, edit ≠ .clear := by
  intro edit hedit
  obtain ⟨entry, -, hedit⟩ := List.mem_flatMap.mp hedit
  obtain ⟨byte, -, rfl⟩ := List.mem_map.mp hedit
  exact Edit.noConfusion

/-- Writing instructions to a chunk gives it their cells. -/
theorem cells_applyAll_programEdits (program : List (UInt32 × Instruction)) :
    (Chunk.empty.applyAll (programEdits program)).cells.toList = encode program := by
  have hcells (entry : UInt32 × Instruction) :
      (entry.2.edits entry.1).filterMap Edit.cell? = entry.2.cells entry.1 := by
    rw [Instruction.edits, List.filterMap_map]
    exact congrFun List.filterMap_eq_map entry.2.bytes
  rw [applyAll_empty, ofContents, Buffer.toList_ofList, writtenCells,
    sinceClear_eq_self ne_clear_of_mem_programEdits, programEdits, List.filterMap_flatMap]
  exact congrArg (List.flatMap · program) (funext hcells)

/-- The offsets of placed instructions are the running sums of the sizes. -/
theorem offset_place (offset : Nat) (program : List (UInt32 × Instruction)) :
    (place offset program).map Placed.offset =
      (List.range program.length).map fun k =>
        offset + ((program.take k).map fun entry => entry.2.size).sum := by
  induction program generalizing offset with
  | nil => rfl
  | cons entry rest ih =>
    rw [place, List.map_cons, ih, List.length_cons, List.range_succ_eq_map, List.map_cons,
      List.map_map]
    simp [Function.comp_def, Nat.add_assoc]

/-- Decoding and encoding undo each other. Instructions that are written to an empty chunk are
what it decodes as, at the running sums of their sizes. And whatever bytes a chunk holds, the
instructions that decoding finds begin at offset zero, follow each other without a gap and are,
written again, the bytes up to an offset `e`: either that is the end of the code and there is no
fault, or there is one, it is the last thing found and stands at `e`. It is an unknown opcode
exactly when the byte at `e` is above all opcodes, and a missing operand of a constant exactly
when `e` is the last offset and holds the byte of a constant. -/
theorem decoding_inverts_encoding :
    (∀ program : List (UInt32 × Instruction), ∃ found : List (Placed Instruction),
      (Chunk.empty.applyAll (programEdits program)).decode = found.map .ok ∧
        found.map (fun p => (p.line, p.item)) = program ∧
        found.map Placed.offset = (List.range program.length).map fun k =>
          ((program.take k).map fun entry => entry.2.size).sum) ∧
    ∀ c : Chunk, ∃ (found : List (Placed Instruction)) (e : Nat),
      (∀ p ∈ found.head?, p.offset = 0) ∧
      (found.IsChain fun p q => q.offset = p.offset + p.item.size) ∧
      (found.flatMap fun p => p.item.bytes) = c.code.take e ∧
      ((c.decode = found.map .ok ∧ e = c.code.length) ∨
        ∃ fault, c.decode = found.map .ok ++ [.error fault] ∧ fault.offset = e ∧ e < c.code.length ∧
          (∀ byte, fault.item = .unknownOpcode byte ↔ c.code[e]? = some byte ∧ 7 ≤ byte.toNat) ∧
          (∀ op, fault.item = .truncatedOperand op ↔
            op = .constant ∧ e + 1 = c.code.length ∧ c.code[e]? = some 0)) := by
  constructor
  · intro program
    have hoffsets := offset_place 0 program
    simp only [Nat.zero_add] at hoffsets
    exact ⟨place 0 program, decode_of_encode (cells_applyAll_programEdits program),
      map_place 0 program, hoffsets⟩
  · intro c
    obtain ⟨found, e, hreads, hend⟩ := c.iterates_decode.reads
    have hcode := hreads.code_drop
    have hstop := hreads.stop_eq
    rw [List.drop_zero] at hcode
    rw [Nat.zero_add] at hstop
    have htake : (found.flatMap fun p => p.item.bytes) = c.code.take e := by
      rw [hcode, List.take_left' hstop.symm]
    refine ⟨found, e, hreads.offset_head, hreads.isChain, htake, ?_⟩
    rcases hend with ⟨hnone, hdecode⟩ | ⟨fault, hfault, hdecode⟩
    · refine .inl ⟨hdecode, ?_⟩
      have hle := decodeAt_eq_none_iff.mp hnone
      have hlength := congrArg List.length hcode
      rw [List.length_append, ← hstop, List.length_drop] at hlength
      rw [← length_code] at hle
      omega
    · refine .inr ⟨fault, hdecode, ?_⟩
      have hlt : e < c.code.length := by
        rw [length_code, ← Nat.not_le, ← decodeAt_eq_none_iff, hfault]
        exact Option.some_ne_none _
      exact ⟨(decodeAt_eq_error_iff.mp hfault).1, hlt, unknownOpcode_iff hfault,
        truncatedOperand_iff hfault⟩

end Chunk

end StackBytecode
