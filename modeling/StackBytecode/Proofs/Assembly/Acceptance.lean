import StackBytecode.Proofs.Assembly.Program

/-!
# What the assembler accepts and emits

A source is accepted exactly when each of its lines has a form of the grammar and no more
constants are written than an operand byte can count. What it becomes is then read off the
forms: one instruction for each command, in order and with the command's line, the operands
counting the constants from zero, and the numbers of the constants as the pool.
-/

namespace StackBytecode.Assembly

open Decoding (encode place)

/-- The operand byte of a placed instruction comes right after its opcode, with the same line. -/
theorem operand_cell_of_mem_place {program : List (UInt32 × Instruction)} {found : Placed Instruction}
    {operand : UInt8} (h : found ∈ place 0 program) (hoperand : found.item.operand? = some operand) :
    (encode program)[found.offset + 1]? = some ⟨operand, found.line⟩ := by
  obtain ⟨before, after, rfl, hoffset⟩ := Decoding.mem_place h
  obtain ⟨offset, line, item⟩ := found
  cases item with
  | constant index =>
    obtain rfl := Option.some.inj hoperand
    rw [hoffset, Nat.zero_add, encode, List.flatMap_append, List.getElem?_append_right (by simp [encode])]
    simp [encode, Instruction.cells, Instruction.bytes, Instruction.operand?]
  | ret => cases hoperand
  | arith f => cases hoperand
  | negate => cases hoperand

/-- The assembler accepts exactly the sources whose lines have forms, with at most 256 constants.
The chunk of an accepted source decodes without a fault as the commands that its lines hold,
one instruction each, with their lines and opcodes; its operands are 0, 1, 2 and so on, each with
the line of its opcode, and its pool holds the numbers that the source writes. -/
theorem assemble_accepts_exactly_grammar (source : String) :
    ((∃ c, assemble source = .ok c) ↔
      ∃ forms, SourceForm source forms ∧ (writtenConstants forms.reduceOption).length ≤ 256) ∧
    ∀ c forms, assemble source = .ok c → SourceForm source forms →
      ∃ found : List (Placed Instruction), c.decode = found.map .ok ∧
        found.map (fun p => (p.line, p.item.opcode)) =
          forms.reduceOption.map (fun command => (command.line, command.statement.opcode)) ∧
        (found.filterMap fun p => p.item.operand?).map UInt8.toNat =
          List.range (writtenConstants forms.reduceOption).length ∧
        c.constants = writtenConstants forms.reduceOption ∧
        ∀ p ∈ found, ∀ operand, p.item.operand? = some operand →
          c.line? (p.offset + 1) = some p.line := by
  constructor
  · constructor
    · intro h
      obtain ⟨c, hc⟩ := h
      obtain ⟨forms, hforms, hconstants, -⟩ := assemble_eq_ok_iff.mp hc
      exact ⟨forms, hforms, hconstants⟩
    · intro h
      obtain ⟨forms, hforms, hconstants⟩ := h
      exact ⟨_, assemble_eq_ok_iff.mpr ⟨forms, hforms, hconstants, rfl⟩⟩
  · intro c forms hc hforms
    obtain ⟨others, hothers, hconstants, rfl⟩ := assemble_eq_ok_iff.mp hc
    obtain rfl := hforms.unique hothers
    refine ⟨place 0 (program 0 forms.reduceOption), Chunk.decode_of_encode (cells_chunkOf _),
      ?_, ?_, pool_chunkOf _, ?_⟩
    · have hopcodes := map_opcode_program 0 forms.reduceOption
      rw [← Decoding.map_place 0 (program 0 forms.reduceOption), List.map_map] at hopcodes
      exact hopcodes
    · have hoperands := operands_program 0 (by rwa [Nat.zero_add])
      rw [← Decoding.map_place 0 (program 0 forms.reduceOption), List.filterMap_map] at hoperands
      rw [List.range_eq_range']
      exact hoperands
    · intro p hp operand hoperand
      rw [Chunk.line?, Buffer.get?_eq, cells_chunkOf, operand_cell_of_mem_place hp hoperand]
      rfl

/-- A constant and a negation are assembled from among lines that hold nothing. -/
theorem assemble_accepts_exactly_grammar_negation :
    ∃ c, assemble "@9 Op_Constant 2 ; two\n;\n@7\nnegate" = .ok c ∧
      ∃ found : List (Placed Instruction), c.decode = found.map .ok ∧
        found.map (fun p => (p.line, p.item.opcode)) = [(9, .constant), (4, .negate)] ∧
        c.constants = [Value.ofNat 2] := by
  have hforms : SourceForm "@9 Op_Constant 2 ; two\n;\n@7\nnegate"
      [some ⟨9, .constant (.ofNat 2), none⟩, none, none, some ⟨4, .negate, none⟩] :=
    .cons (lineForm_iff.mpr ⟨rfl, by simp⟩) <| .cons (lineForm_iff.mpr ⟨rfl, by simp⟩) <|
      .cons (lineForm_iff.mpr ⟨rfl, by simp⟩) <| .cons (lineForm_iff.mpr ⟨rfl, by simp⟩) .nil
  obtain ⟨haccepts, hemits⟩ :=
    assemble_accepts_exactly_grammar "@9 Op_Constant 2 ; two\n;\n@7\nnegate"
  obtain ⟨c, hc⟩ := haccepts.mpr ⟨_, hforms, by decide⟩
  obtain ⟨found, hdecode, hopcodes, -, hconstants, -⟩ := hemits c _ hc hforms
  exact ⟨c, hc, found, hdecode, hopcodes, hconstants⟩

end StackBytecode.Assembly
