import StackBytecode.Proofs.Chunk.LineRuns
import StackBytecode.Proofs.Decoding.Tiling
import StackBytecode.Proofs.Text.Printed
import StackBytecode.Report

/-!
# Chunks recovered from their reports

A report holds neither code nor lines, but two views of them: the instructions before the
first fault, and the runs of the line table. Both can be inverted. The runs expand to the
lines, also where an operand has a line of its own, and the instructions are the code up to
the fault. The text of the fault tells which byte stands there. So nothing is lost of a
chunk without a fault, and of one with a fault only the code behind it.

The offset of the fault is not read out of its text. It is the number of bytes that the
instructions take, so it is the same for chunks with the same instructions, and with it
their texts can only be equal if the reasons are.
-/

namespace StackBytecode

/-! ## The byte that a fault tells of -/

namespace DecodeCause

/-- The byte that cannot be an instruction. -/
def byte : DecodeCause → UInt8
  | .unknownOpcode byte => byte
  | .truncatedOperand op => op.toByte

/-- The texts of the two kinds of reasons begin differently. -/
theorem head?_message (offset : Nat) (cause : DecodeCause) :
    (cause.message offset).toList.head? =
      match cause with
      | .unknownOpcode _ => some 'u'
      | .truncatedOperand _ => some 'O' := by
  cases cause with
  | unknownOpcode byte =>
    change ("unknown opcode " ++ byte.toNat.repr ++ " at offset " ++ offset.repr).toList.head? = some 'u'
    simp [String.toList_append]
  | truncatedOperand op =>
    change ("OP_" ++ op.name ++ " at offset " ++ offset.repr ++ " is missing its operand").toList.head? =
      some 'O'
    simp [String.toList_append]

/-- A byte can be read back from its numeral. -/
theorem repr_toNat_inj {byte other : UInt8} : byte.toNat.repr = other.toNat.repr ↔ byte = other := by
  constructor
  · intro h
    have hdigits : Nat.toDigits 10 byte.toNat = Nat.toDigits 10 other.toNat := by
      rw [← Nat.toList_repr, h, Nat.toList_repr]
    have hread := Number.readBelow?_toDigits byte.toNat_lt
    rw [hdigits, Number.readBelow?_toDigits other.toNat_lt] at hread
    exact (UInt8.toNat_inj.mp (Option.some.inj hread)).symm
  · intro h
    rw [h]

/-- Different reasons have different texts at one offset. -/
theorem message_inj {offset : Nat} {cause other : DecodeCause} :
    cause.message offset = other.message offset ↔ cause = other := by
  constructor
  · intro h
    have hhead : (cause.message offset).toList.head? = (other.message offset).toList.head? := by rw [h]
    rw [head?_message, head?_message] at hhead
    cases cause with
    | unknownOpcode byte =>
      cases other with
      | unknownOpcode byte' =>
        change "unknown opcode " ++ byte.toNat.repr ++ " at offset " ++ offset.repr =
          "unknown opcode " ++ byte'.toNat.repr ++ " at offset " ++ offset.repr at h
        rw [String.append_left_inj, String.append_left_inj, String.append_right_inj,
          repr_toNat_inj] at h
        rw [h]
      | truncatedOperand op => exact absurd hhead (by simp)
    | truncatedOperand op =>
      cases other with
      | unknownOpcode byte => exact absurd hhead (by simp)
      | truncatedOperand op' =>
        change op.mnemonic ++ " at offset " ++ offset.repr ++ " is missing its operand" =
          op'.mnemonic ++ " at offset " ++ offset.repr ++ " is missing its operand" at h
        rw [String.append_left_inj, String.append_left_inj, String.append_left_inj,
          Opcode.mnemonic_inj] at h
        rw [h]
  · intro h
    rw [h]

end DecodeCause

/-! ## What the instructions tell of the code -/

namespace Chunk

/-- The instructions of a chunk without a fault are its code. -/
theorem code_eq_of_decodeFault?_eq_none {c : Chunk} (h : c.decodeFault? = none) :
    c.code = c.instructions.flatMap fun p => p.item.bytes := by
  obtain ⟨stop, hstop, hreads⟩ := reads_of_clean h
  have hcode := hreads.code_drop
  rw [← length_code] at hstop
  rwa [List.drop_zero, List.drop_of_length_le hstop, List.append_nil] at hcode

/-- The instructions of a chunk with a fault are its code up to the fault, and the reason of the
fault tells the byte there. -/
theorem code_take_of_decodeFault?_eq_some {c : Chunk} {fault : DecodeFault}
    (h : c.decodeFault? = some fault) :
    fault.offset = (c.instructions.flatMap fun p => p.item.bytes).length ∧
      c.lines[fault.offset]? = some fault.line ∧ fault.offset < c.size ∧
      c.code.take (fault.offset + 1) =
        (c.instructions.flatMap fun p => p.item.bytes) ++ [fault.item.byte] := by
  obtain ⟨stop, hreads, ⟨-, -, hnone⟩ | ⟨other, hother, -, hfault⟩⟩ := c.reads_instructions
  · cases h.symm.trans hnone
  · cases h.symm.trans hfault
    obtain ⟨rfl, hline, hcause⟩ := decodeAt_eq_error_iff.mp hother
    have hbyte : c.code[fault.offset]? = some fault.item.byte := by
      rw [← byte?_eq]
      rcases hcause with ⟨byte, hitem, hbyte, -⟩ | ⟨hitem, hbyte, -⟩
      · rw [hitem, hbyte]
        rfl
      · rw [hitem, hbyte]
        rfl
    have hstop := hreads.stop_eq
    have hcode := hreads.code_drop
    rw [Nat.zero_add] at hstop
    rw [List.drop_zero] at hcode
    refine ⟨hstop, line?_eq c _ ▸ hline, ?_, ?_⟩
    · rw [← length_code]
      exact (List.getElem?_eq_some_iff.mp hbyte).1
    · rw [List.take_add_one, hbyte, Option.toList_some, hcode, List.take_left' hstop.symm]

end Chunk

/-! ## Two chunks with one report -/

namespace Report

/-- Reports compare equal when they agree in all their fields, and in their constants as IEEE
numbers. -/
theorem beq_iff {r s : Report} : (r == s) = true ↔
    r.name = s.name ∧ r.bytes = s.bytes ∧ r.capacity = s.capacity ∧
      List.Forall₂ (fun v w => (v.number == w.number) = true) r.constants s.constants ∧
      r.lineRuns = s.lineRuns ∧ r.instructions = s.instructions ∧ r.fault = s.fault := by
  have hbeq : (r == s) = (r.name == s.name && (r.bytes == s.bytes && (r.capacity == s.capacity &&
      (r.constants == s.constants && (r.lineRuns == s.lineRuns &&
        (r.instructions == s.instructions && r.fault == s.fault)))))) := rfl
  rw [hbeq]
  simp only [Bool.and_eq_true, beq_iff_eq, Buffer.beq_list_iff]
  rfl

end Report

namespace Chunk

/-- Chunks with the same instructions, the same lines and the same text of their fault have the
same fault. -/
theorem decodeFault?_eq_of_message_eq {c d : Chunk} (hinstructions : c.instructions = d.instructions)
    (hlines : c.lines = d.lines)
    (htext : (c.decodeFault?.map fun fault => fault.item.message fault.offset) =
      d.decodeFault?.map fun fault => fault.item.message fault.offset) :
    c.decodeFault? = d.decodeFault? := by
  cases hc : c.decodeFault? with
  | none =>
    rw [hc] at htext
    exact (Option.map_eq_none_iff.mp htext.symm).symm
  | some fault =>
    rw [hc] at htext
    obtain ⟨other, hd, htext⟩ := Option.map_eq_some_iff.mp htext.symm
    obtain ⟨hoffset, hline, -⟩ := code_take_of_decodeFault?_eq_some hc
    obtain ⟨hoffset', hline', -⟩ := code_take_of_decodeFault?_eq_some hd
    have hplace : fault.offset = other.offset := by
      rw [hoffset, hoffset', hinstructions]
    rw [hlines, hplace, hline'] at hline
    obtain ⟨offset, line, item⟩ := fault
    obtain ⟨offset', line', item'⟩ := other
    obtain rfl : offset = offset' := hplace
    obtain rfl : line' = line := Option.some.inj hline
    obtain rfl : item' = item := DecodeCause.message_inj.mp htext
    exact hd.symm

/-- The pool of a chunk with a history has the capacity of as many writes as there are constants. -/
theorem capacity_pool_of_chunksAfter {actions : List RowAction} {index : Nat} {c : Chunk}
    (h : (chunksAfter actions)[index]? = some c) :
    c.pool.capacity = Growth.afterWrites c.constants.length := by
  obtain ⟨history, -, rfl⟩ := eq_ofContents_of_chunksAfter h
  rw [constants_ofContents, ofContents, Buffer.capacity_ofList]

/-- A report loses nothing of a chunk whose code is well formed. Take two chunks with histories
whose reports under one name compare equal. (No report with a constant that is not a number equals
another one, so there is none in either chunk.) If no fault is reported, the chunks are equal: the
code is the bytes of the instructions, the lines are the runs expanded, and the constants and the
capacity are those of the report. If a fault is reported, both chunks have it, and they agree in
their length, lines, constants and capacities, and in their code up to and with the byte at the
fault. -/
theorem report_determines_chunk {actions others : List RowAction} {index place : Nat} {c d : Chunk}
    (hc : (chunksAfter actions)[index]? = some c) (hd : (chunksAfter others)[place]? = some d)
    {name : String} (h : (Report.ofChunk c name == Report.ofChunk d name) = true) :
    ((Report.ofChunk c name).fault = none →
      (c == d) = true ∧
        c.code = (Report.ofChunk c name).instructions.flatMap (fun p => p.item.bytes) ∧
        c.lines = (Report.ofChunk c name).lineRuns.flatMap LineRun.expand ∧
        c.constants = (Report.ofChunk c name).constants ∧
        c.cells.capacity = (Report.ofChunk c name).capacity) ∧
    ∀ text, (Report.ofChunk c name).fault = some text →
      c.code.length = d.code.length ∧ c.lines = d.lines ∧
        List.Forall₂ (fun v w => (v.number == w.number) = true) c.constants d.constants ∧
        c.cells.capacity = d.cells.capacity ∧ c.pool.capacity = d.pool.capacity ∧
        ∃ fault, c.decodeFault? = some fault ∧ d.decodeFault? = some fault ∧
          text = fault.item.message fault.offset ∧ fault.offset < c.code.length ∧
          c.code.take (fault.offset + 1) = d.code.take (fault.offset + 1) := by
  obtain ⟨-, hsize, hcapacity, hconstants, hruns, hinstructions, htext⟩ := Report.beq_iff.mp h
  change c.size = d.size at hsize
  change c.instructions = d.instructions at hinstructions
  have hlines : c.lines = d.lines := by
    rw [← flatMap_expand_lineRuns, ← flatMap_expand_lineRuns]
    exact congrArg (List.flatMap LineRun.expand) hruns
  have hfault := decodeFault?_eq_of_message_eq hinstructions hlines htext
  constructor
  · intro hnone
    have hnone := Option.map_eq_none_iff.mp hnone
    have hcode := code_eq_of_decodeFault?_eq_none hnone
    have hcode' := code_eq_of_decodeFault?_eq_none (hfault.symm.trans hnone)
    refine ⟨?_, hcode, (flatMap_expand_lineRuns c).symm, rfl, rfl⟩
    obtain ⟨history, -, rfl⟩ := eq_ofContents_of_chunksAfter hc
    obtain ⟨history', -, rfl⟩ := eq_ofContents_of_chunksAfter hd
    rw [hinstructions, ← hcode', code_ofContents, code_ofContents] at hcode
    rw [lines_ofContents, lines_ofContents] at hlines
    refine beq_ofContents_iff.mpr ⟨hcode, hlines, ?_⟩
    simpa only [Report.ofChunk, constants_ofContents] using hconstants
  · intro text hsome
    obtain ⟨fault, hfound, rfl⟩ := Option.map_eq_some_iff.mp hsome
    have hfound' : d.decodeFault? = some fault := hfault ▸ hfound
    obtain ⟨-, -, hlt, htake⟩ := code_take_of_decodeFault?_eq_some hfound
    obtain ⟨-, -, -, htake'⟩ := code_take_of_decodeFault?_eq_some hfound'
    have hpool : c.pool.capacity = d.pool.capacity := by
      rw [capacity_pool_of_chunksAfter hc, capacity_pool_of_chunksAfter hd]
      exact congrArg Growth.afterWrites hconstants.length_eq
    refine ⟨?_, hlines, hconstants, hcapacity, hpool, fault, hfound, hfound', rfl, ?_, ?_⟩
    · rw [length_code, length_code, hsize]
    · rw [length_code]
      exact hlt
    · rw [htake, htake', hinstructions]

/-- A chunk that holds a zero, and one that was written to and cleared before it got the other
zero, have one report and are equal. Two chunks that go on differently behind an unknown opcode
have one report too, and the same code up to that byte. -/
theorem report_determines_chunk_of_zeros :
    (∃ c d, (chunksAfter [.change 0 (.write 0 1), .change 0 (.write 0 3), .change 0 (.write 1 3),
          .change 0 (.addConstant (.ofBits 0))])[0]? = some c ∧
        (chunksAfter [.change 0 (.write 9 9), .change 0 .clear, .change 0 (.write 0 1),
          .change 0 (.write 0 3), .change 0 (.write 1 3),
          .change 0 (.addConstant (.ofBits 0x8000000000000000))])[0]? = some d ∧
        (Report.ofChunk c "t" == Report.ofChunk d "t") = true ∧ (c == d) = true) ∧
      ∃ c d, (chunksAfter [.change 0 (.write 1 1), .change 0 (.write 99 1),
          .change 0 (.write 5 1)])[0]? = some c ∧
        (chunksAfter [.change 0 (.write 1 1), .change 0 (.write 99 1),
          .change 0 (.write 200 1)])[0]? = some d ∧
        (Report.ofChunk c "t" == Report.ofChunk d "t") = true ∧
        c.decodeFault? = d.decodeFault? ∧ c.code.take 2 = d.code.take 2 := by
  constructor
  · have hc : (chunksAfter [.change 0 (.write 0 1), .change 0 (.write 0 3), .change 0 (.write 1 3),
        .change 0 (.addConstant (.ofBits 0))])[0]? =
      some (ofContents [⟨0, 1⟩, ⟨0, 3⟩, ⟨1, 3⟩] [.ofBits 0]) := rfl
    have hd : (chunksAfter [.change 0 (.write 9 9), .change 0 .clear, .change 0 (.write 0 1),
        .change 0 (.write 0 3), .change 0 (.write 1 3),
        .change 0 (.addConstant (.ofBits 0x8000000000000000))])[0]? =
      some (ofContents [⟨0, 1⟩, ⟨0, 3⟩, ⟨1, 3⟩] [.ofBits 0x8000000000000000]) := rfl
    have hzeros : ((Value.ofBits 0).number == (Value.ofBits 0x8000000000000000).number) = true := by
      decide
    have h : (Report.ofChunk (ofContents [⟨0, 1⟩, ⟨0, 3⟩, ⟨1, 3⟩] [.ofBits 0]) "t" ==
        Report.ofChunk (ofContents [⟨0, 1⟩, ⟨0, 3⟩, ⟨1, 3⟩] [.ofBits 0x8000000000000000]) "t") = true :=
      Report.beq_iff.mpr ⟨rfl, rfl, rfl, .cons hzeros .nil, rfl, rfl, rfl⟩
    exact ⟨_, _, hc, hd, h, ((report_determines_chunk hc hd h).1 rfl).1⟩
  · have hc : (chunksAfter [.change 0 (.write 1 1), .change 0 (.write 99 1),
        .change 0 (.write 5 1)])[0]? = some (ofContents [⟨1, 1⟩, ⟨99, 1⟩, ⟨5, 1⟩] []) := rfl
    have hd : (chunksAfter [.change 0 (.write 1 1), .change 0 (.write 99 1),
        .change 0 (.write 200 1)])[0]? = some (ofContents [⟨1, 1⟩, ⟨99, 1⟩, ⟨200, 1⟩] []) := rfl
    have h : (Report.ofChunk (ofContents [⟨1, 1⟩, ⟨99, 1⟩, ⟨5, 1⟩] []) "t" ==
        Report.ofChunk (ofContents [⟨1, 1⟩, ⟨99, 1⟩, ⟨200, 1⟩] []) "t") = true :=
      Report.beq_iff.mpr ⟨rfl, rfl, rfl, .nil, rfl, rfl, rfl⟩
    obtain ⟨-, -, -, -, -, fault, hfault, hfault', -, -, htake⟩ :=
      (report_determines_chunk hc hd h).2 _ rfl
    obtain rfl := Option.some.inj hfault
    exact ⟨_, _, hc, hd, h, hfault.trans hfault'.symm, htake⟩

end Chunk

end StackBytecode
