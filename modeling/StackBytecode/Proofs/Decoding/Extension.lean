import Mathlib.Data.List.Infix
import StackBytecode.Proofs.Decoding.Tiling

/-!
# Decoding code that grows

Bytes that are written behind code leave what decoding has found there. An instruction lies
within the code that it was read from, and an unknown opcode is told by its own byte, so both are
found again. Only an opcode at the end that misses its operand changes: the first byte that is
written becomes the operand. Constants that are added meanwhile change nothing, since decoding does
not look at the pool.
-/

namespace StackBytecode

namespace Chunk

/-- Edits that clear nothing write their cells behind those of the chunk. -/
theorem cells_applyAll {edits : List Edit} (h : ∀ edit ∈ edits, edit ≠ .clear) (c : Chunk) :
    (c.applyAll edits).cells.toList = c.cells.toList ++ edits.filterMap Edit.cell? := by
  induction edits generalizing c with
  | nil => exact (List.append_nil _).symm
  | cons edit rest ih =>
    obtain ⟨hedit, hrest⟩ := List.forall_mem_cons.mp h
    have happly : c.applyAll (edit :: rest) = (c.apply edit).applyAll rest := rfl
    rw [happly, ih hrest]
    cases edit with
    | write byte line =>
      rw [apply, write, Buffer.toList_push, List.append_assoc]
      rfl
    | addConstant v => rfl
    | clear => exact absurd rfl hedit

/-! ## What stands at an offset stays there -/

section

variable {c d : Chunk} (hcells : c.cells.toList <+: d.cells.toList)
include hcells

/-- The bytes behind an offset are written on at their end. -/
theorem isPrefix_code_drop (offset : Nat) : c.code.drop offset <+: d.code.drop offset :=
  List.IsPrefix.drop (hcells.map Cell.byte) offset

/-- A cell stays at its offset. -/
theorem get?_of_isPrefix {offset : Nat} {cell : Cell} (h : c.cells.get? offset = some cell) :
    d.cells.get? offset = some cell := by
  rw [Buffer.get?_eq] at h ⊢
  obtain ⟨hlt, -⟩ := List.getElem?_eq_some_iff.mp h
  obtain ⟨more, hmore⟩ := hcells
  rw [← hmore, List.getElem?_append_left hlt, h]

/-- A line stays at its offset. -/
theorem line?_of_isPrefix {offset : Nat} {line : UInt32} (h : c.line? offset = some line) :
    d.line? offset = some line := by
  obtain ⟨cell, hcell, rfl⟩ := Option.map_eq_some_iff.mp h
  rw [line?, get?_of_isPrefix hcells hcell, Option.map_some]

/-- A byte stays at its offset. -/
theorem byte?_of_isPrefix {offset : Nat} {byte : UInt8} (h : c.byte? offset = some byte) :
    d.byte? offset = some byte := by
  obtain ⟨cell, hcell, rfl⟩ := Option.map_eq_some_iff.mp h
  rw [byte?, get?_of_isPrefix hcells hcell, Option.map_some]

/-- An instruction stays at its offset. -/
theorem decodeAt_of_isPrefix {offset : Nat} {found : Placed Instruction}
    (h : c.decodeAt offset = some (.ok found)) : d.decodeAt offset = some (.ok found) := by
  obtain ⟨hoffset, hline, hbytes⟩ := decodeAt_eq_ok_iff.mp h
  exact decodeAt_eq_ok_iff.mpr
    ⟨hoffset, line?_of_isPrefix hcells hline, hbytes.trans (isPrefix_code_drop hcells offset)⟩

/-- An unknown opcode stays at its offset. -/
theorem decodeAt_of_unknownOpcode {offset start : Nat} {line : UInt32} {byte : UInt8}
    (h : c.decodeAt offset = some (.error ⟨start, line, .unknownOpcode byte⟩)) :
    d.decodeAt offset = some (.error ⟨start, line, .unknownOpcode byte⟩) := by
  obtain ⟨hoffset, hline, -⟩ := decodeAt_eq_error_iff.mp h
  obtain ⟨hbyte, hhigh⟩ := (unknownOpcode_iff h byte).mp rfl
  rw [← byte?_eq] at hbyte
  exact decodeAt_eq_error_iff.mpr
    ⟨hoffset, line?_of_isPrefix hcells hline, .inl ⟨byte, rfl, byte?_of_isPrefix hcells hbyte, hhigh⟩⟩

/-- An opcode that misses its operand has the byte that is written next as its operand. -/
theorem decodeAt_of_truncatedOperand {offset start : Nat} {line : UInt32} {op : Opcode} {cell : Cell}
    {more : List Cell} (hmore : d.cells.toList = c.cells.toList ++ cell :: more)
    (h : c.decodeAt offset = some (.error ⟨start, line, .truncatedOperand op⟩)) :
    d.decodeAt offset = some (.ok ⟨start, line, .constant cell.byte⟩) := by
  obtain ⟨hoffset, hline, -⟩ := decodeAt_eq_error_iff.mp h
  obtain ⟨-, hlast, hbyte⟩ := (truncatedOperand_iff h op).mp rfl
  have hcode : d.code = c.code ++ cell.byte :: more.map Cell.byte := by
    rw [code, hmore, List.map_append, List.map_cons, code]
  have hopcode : c.code.drop offset = [0] := by
    obtain ⟨hlt, hzero⟩ := List.getElem?_eq_some_iff.mp hbyte
    rw [List.drop_eq_getElem_cons hlt, hzero, List.drop_of_length_le hlast.ge]
  have hoperand : d.code.drop offset = 0 :: cell.byte :: more.map Cell.byte := by
    rw [hcode, List.drop_append_of_le_length (by omega), hopcode]
    rfl
  refine decodeAt_eq_ok_iff.mpr ⟨hoffset, line?_of_isPrefix hcells hline, ?_⟩
  rw [hoperand]
  exact ⟨more.map Cell.byte, rfl⟩

/-- Instructions that were read are read again. -/
theorem Reads.of_isPrefix {offset stop : Nat} {found : List (Placed Instruction)}
    (h : c.Reads offset found stop) : d.Reads offset found stop := by
  induction h with
  | stays => exact .stays
  | goes hcode hrest ih => exact .goes (decodeAt_of_isPrefix hcells hcode) ih

end

/-! ## What is found in turn -/

/-- Decoding that ends in a fault has read instructions up to it. -/
theorem reads_of_getLast?_decode {c : Chunk} {fault : DecodeFault}
    (h : c.decode.getLast? = some (.error fault)) :
    ∃ stop, c.Reads 0 c.instructions stop ∧ c.decodeAt stop = some (.error fault) ∧
      c.decode = c.instructions.map .ok ++ [.error fault] := by
  obtain ⟨stop, hreads, ⟨-, hdecode, -⟩ | ⟨other, hfault, hdecode, -⟩⟩ := c.reads_instructions
  · rw [hdecode, List.getLast?_map, Option.map_eq_some_iff] at h
    obtain ⟨last, -, hlast⟩ := h
    cases hlast
  · rw [hdecode, List.getLast?_concat] at h
    obtain rfl : other = fault := Except.error.inj (Option.some.inj h)
    exact ⟨stop, hreads, hfault, hdecode⟩

/-- The instructions of a chunk are those that are read from its start and those found behind them. -/
theorem Reads.instructions_eq {c : Chunk} {stop : Nat} {found : List (Placed Instruction)}
    (h : c.Reads 0 found stop) :
    c.instructions = found ++ (c.decodeFrom stop).filterMap Except.toOption := by
  have hdecode : c.decode = found.map .ok ++ c.decodeFrom stop := h.decodeFrom_eq
  rw [instructions, hdecode, List.filterMap_append, List.filterMap_map]
  exact congrArg (· ++ _) List.filterMap_some

/-- Decoding is stable under writing behind the code and adding constants. The instructions that were
found are found again, at the same places, and are the first ones. Code that ends in an unknown
opcode decodes as before, whatever follows. If it ends in an opcode that misses its operand, the
first byte that is written becomes its operand, and the instruction keeps the offset and the line
of the opcode. -/
theorem decode_stable_under_appending (c : Chunk) (edits : List Edit)
    (h : ∀ edit ∈ edits, edit ≠ .clear) :
    c.instructions <+: (c.applyAll edits).instructions ∧
      (∀ offset line byte, c.decode.getLast? = some (.error ⟨offset, line, .unknownOpcode byte⟩) →
        (c.applyAll edits).decode = c.decode) ∧
      ∀ offset line op, c.decode.getLast? = some (.error ⟨offset, line, .truncatedOperand op⟩) →
        c.line? offset = some line ∧
          ∀ cell more, edits.filterMap Edit.cell? = cell :: more →
            c.instructions.map .ok ++ [.ok ⟨offset, line, .constant cell.byte⟩] <+:
              (c.applyAll edits).decode := by
  have hcells := cells_applyAll h c
  have hprefix : c.cells.toList <+: (c.applyAll edits).cells.toList := ⟨_, hcells.symm⟩
  refine ⟨?_, fun offset line byte hlast => ?_, fun offset line op hlast => ?_⟩
  · obtain ⟨stop, hreads, -⟩ := c.reads_instructions
    rw [(hreads.of_isPrefix hprefix).instructions_eq]
    exact List.prefix_append _ _
  · obtain ⟨stop, hreads, hfault, hdecode⟩ := reads_of_getLast?_decode hlast
    have hfrom := (hreads.of_isPrefix hprefix).decodeFrom_eq
    rw [(c.applyAll edits).decodeFrom_eq stop, decodeAt_of_unknownOpcode hprefix hfault] at hfrom
    exact hfrom.trans hdecode.symm
  · obtain ⟨stop, hreads, hfault, -⟩ := reads_of_getLast?_decode hlast
    obtain ⟨hoffset, hline, -⟩ := decodeAt_eq_error_iff.mp hfault
    obtain rfl : offset = stop := hoffset
    refine ⟨hline, fun cell more hmore => ?_⟩
    rw [hmore] at hcells
    have hfrom := (hreads.of_isPrefix hprefix).decodeFrom_eq
    rw [(c.applyAll edits).decodeFrom_eq offset,
      decodeAt_of_truncatedOperand hprefix hcells hfault] at hfrom
    exact ⟨_, (List.append_assoc ..).trans hfrom.symm⟩

/-- A constant that misses its operand gets the byte that is written behind it, not the number that is
added to the pool before, and a return is read behind it. -/
theorem decode_stable_under_appending_operand :
    ∃ c d : Chunk, d = c.applyAll [.addConstant (.ofNat 9), .write 5 8, .write 1 9] ∧
      c.decode = [.ok ⟨0, 3, .negate⟩, .error ⟨1, 4, .truncatedOperand .constant⟩] ∧
      d.decode = [.ok ⟨0, 3, .negate⟩, .ok ⟨1, 4, .constant 5⟩, .ok ⟨3, 9, .ret⟩] ∧
      [.ok ⟨0, 3, .negate⟩, .ok ⟨1, 4, .constant 5⟩] <+: d.decode := by
  let c := (Chunk.empty.writeOpcode .negate 3).writeOpcode .constant 4
  have hlast : c.decode.getLast? = some (.error ⟨1, 4, .truncatedOperand .constant⟩) := rfl
  obtain ⟨-, -, hnext⟩ :=
    decode_stable_under_appending c [.addConstant (.ofNat 9), .write 5 8, .write 1 9] (by simp)
  exact ⟨c, _, rfl, rfl, rfl, (hnext 1 4 .constant hlast).2 ⟨5, 8⟩ [⟨1, 9⟩] rfl⟩

end Chunk

end StackBytecode
