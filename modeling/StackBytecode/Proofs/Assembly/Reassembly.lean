import StackBytecode.Proofs.Assembly.Acceptance
import StackBytecode.Proofs.Chunk.History
import StackBytecode.Proofs.Decoding.Tiling
import StackBytecode.Proofs.Number.ExactText
import StackBytecode.Proofs.Text.Printed

/-!
# Source text for a chunk

A chunk that numbers its constants in the order of their use can be written down as source:
one line for each instruction, with the source line that it records, its mnemonic and, for a
constant, any text that is read as its value. Assembling that source gives back the chunk
itself, capacities and all.

Each line of such a source is read back as the command it was written for, and the assembler
numbers the constants of the commands as the chunk does. Its history is then of no account: a
chunk is determined by its contents.

These are all the chunks that can be assembled, as far as their constants can be denoted. A value
that is no number has a name, but the name stands for two of the many bits of such values, so a
chunk with any other of them has no source, however well it numbers its constants.
-/

namespace StackBytecode

namespace Chunk

open Decoding (encode)

/-- The operands of the instructions of a chunk. -/
def operands (c : Chunk) : List UInt8 := c.instructions.filterMap fun p => p.item.operand?

/-- A chunk that numbers its constants in the order of their use. -/
structure IsSequential (c : Chunk) : Prop where
  /-- The chunk was written from nothing. -/
  written : ∃ history, c = Chunk.empty.applyAll history
  /-- Its code decodes to the end. -/
  clean : c.decodeFault? = none
  /-- Its constants have the operands zero, one, two and so on. -/
  numbered : ∀ (k : Nat) (operand : UInt8), c.operands[k]? = some operand → operand.toNat = k
  /-- Its pool holds the constants that the code uses and no others. -/
  poolSize_eq : c.poolSize = c.operands.length
  /-- An operand byte can count them. -/
  poolSize_le : c.poolSize ≤ 256
  /-- Operands record the line of their opcode. -/
  oneLine : ∀ p ∈ c.instructions, ∀ operand, p.item.operand? = some operand →
    c.line? (p.offset + 1) = some p.line

/-- Written chunks with the same contents are the same. -/
theorem eq_of_written {c d : Chunk} (hc : ∃ history, c = Chunk.empty.applyAll history)
    (hd : ∃ history, d = Chunk.empty.applyAll history) (hcells : c.cells.toList = d.cells.toList)
    (hpool : c.pool.toList = d.pool.toList) : c = d := by
  obtain ⟨history, rfl⟩ := hc
  obtain ⟨other, rfl⟩ := hd
  rw [applyAll_empty, applyAll_empty, ofContents, ofContents] at hcells hpool ⊢
  simp only [Buffer.toList_ofList] at hcells hpool
  rw [hcells, hpool]

/-! ## Cells of clean code -/

/-- The cells of an instruction stand at its offset, if its operand records its line. -/
theorem cells_of_decodeAt {c : Chunk} {offset : Nat} {found : Placed Instruction}
    (h : c.decodeAt offset = some (.ok found))
    (hoperand : ∀ operand, found.item.operand? = some operand →
      c.line? (found.offset + 1) = some found.line) :
    c.cells.toList.drop offset =
      found.item.cells found.line ++ c.cells.toList.drop (offset + found.item.size) := by
  obtain ⟨hoffset, hline, hbytes⟩ := decodeAt_eq_ok_iff.mp h
  rw [hoffset, line?, Buffer.get?_eq, ← List.head?_drop, ← List.tail_drop] at hoperand
  rw [line?, Buffer.get?_eq, ← List.head?_drop] at hline
  rw [code, ← List.map_drop] at hbytes
  rw [← List.drop_drop]
  generalize c.cells.toList.drop offset = cells at *
  obtain ⟨start, line, i⟩ := found
  dsimp only at hline hbytes hoperand ⊢
  rw [← i.length_bytes, Instruction.cells]
  rw [Instruction.bytes] at hbytes ⊢
  cases cells with
  | nil => cases hline
  | cons cell rest =>
    obtain ⟨byte, line'⟩ := cell
    obtain rfl : line' = line := Option.some.inj hline
    rw [List.map_cons, List.cons_prefix_cons] at hbytes
    obtain ⟨rfl, hbytes⟩ := hbytes
    cases hi : i.operand? with
    | none => rfl
    | some operand =>
      rw [hi] at hbytes
      cases rest with
      | nil => cases hoperand operand hi
      | cons cell rest =>
        obtain ⟨byte, line''⟩ := cell
        obtain rfl : line'' = line' := Option.some.inj (hoperand operand hi)
        obtain rfl : operand = byte := (List.cons_prefix_cons.mp hbytes).1
        rfl

/-- Clean code whose operands record the line of their opcode consists of the cells of its
instructions. -/
theorem Reads.cells_drop {c : Chunk} {offset stop : Nat} {found : List (Placed Instruction)}
    (h : c.Reads offset found stop)
    (hlines : ∀ p ∈ found, ∀ operand, p.item.operand? = some operand →
      c.line? (p.offset + 1) = some p.line) :
    c.cells.toList.drop offset =
      encode (found.map fun p => (p.line, p.item)) ++ c.cells.toList.drop stop := by
  induction h with
  | stays => rfl
  | @goes offset stop first rest hcode hrest ih =>
    rw [cells_of_decodeAt hcode (hlines first (List.mem_cons_self ..)),
      ih fun p hp => hlines p (List.mem_cons_of_mem _ hp), List.map_cons, Decoding.encode_cons,
      List.append_assoc]

/-- Clean code whose operands record the line of their opcode is the code of its instructions. -/
theorem IsSequential.cells_eq {c : Chunk} (h : c.IsSequential) :
    c.cells.toList = encode (c.instructions.map fun p => (p.line, p.item)) := by
  obtain ⟨stop, hstop, hreads⟩ := reads_of_clean h.clean
  have hcells := hreads.cells_drop h.oneLine
  have hrest : c.cells.toList.drop stop = [] := by
    rw [List.drop_eq_nil_iff, Buffer.length_toList]
    exact hstop
  rwa [List.drop_zero, hrest, List.append_nil] at hcells

/-- The operands of a sequential chunk count its constants. -/
theorem IsSequential.map_toNat_operands {c : Chunk} (h : c.IsSequential) :
    c.operands.map UInt8.toNat = List.range c.poolSize := by
  apply List.ext_getElem
  · rw [List.length_map, List.length_range, h.poolSize_eq]
  · intro k hk _
    rw [List.length_map] at hk
    rw [List.getElem_map, List.getElem_range]
    exact h.numbered k _ (List.getElem?_eq_getElem hk)

/-- Every operand of a sequential chunk stands for a constant. -/
theorem IsSequential.exists_constant {c : Chunk} (h : c.IsSequential) {p : Placed Instruction}
    (hp : p ∈ c.instructions) {operand : UInt8} (hoperand : p.item.operand? = some operand) :
    ∃ v, c.constant? operand.toNat = some v := by
  have hmem : operand ∈ c.operands := List.mem_filterMap.mpr ⟨p, hp, hoperand⟩
  have hrange := List.mem_map_of_mem (f := UInt8.toNat) hmem
  rw [h.map_toNat_operands, List.mem_range] at hrange
  rw [← Option.isSome_iff_exists, Option.isSome_iff_ne_none, constant?, ne_eq,
    Buffer.get?_eq_none_iff]
  exact Nat.not_le.mpr hrange

end Chunk

namespace Assembly

open Decoding (place)
open Text (IsPlain)

/-! ## Lines for instructions -/

/-- A text that is one word and is read as a value. -/
def Denotes (token : List Char) (v : Value) : Prop :=
  (∀ c ∈ token, IsPlain c) ∧ Value.ofText? token = some v

/-- The words of the line for an instruction: the override of its source line, its mnemonic and,
for a constant, the token for its operand. -/
def sourceWords (token : UInt8 → List Char) (p : Placed Instruction) : List (List Char) :=
  ('@' :: Nat.toDigits 10 p.line.toNat) :: p.item.opcode.mnemonic.toList ::
    (p.item.operand?.map token).toList

/-- The line for an instruction, with one space between its words. -/
def sourceLine (token : UInt8 → List Char) (p : Placed Instruction) : List Char :=
  [' '].intercalate (sourceWords token p)

/-- The statement of an instruction, with the constant of a chunk that its operand stands for. -/
def statementOf (c : Chunk) : Instruction → Statement
  | .constant index => .constant ((c.constant? index.toNat).getD default)
  | .ret => .ret
  | .arith f => .arith f
  | .negate => .negate

/-- The command of an instruction of a chunk. -/
def commandOf (c : Chunk) (p : Placed Instruction) : Command := ⟨p.line, statementOf c p.item, none⟩

/-- Words with one space between two are a line that spells them. -/
theorem spells_intercalate {words : List (List Char)}
    (h : ∀ word ∈ words, word ≠ [] ∧ ∀ c ∈ word, IsPlain c) :
    Spells ([' '].intercalate words) words := by
  induction words with
  | nil => exact .done
  | cons word rest ih =>
    obtain ⟨hne, hplain⟩ := h word (List.mem_cons_self ..)
    cases rest with
    | nil =>
      have hspells : Spells (word ++ []) [word] := .word hne hplain (by simp) .done
      rw [List.intercalate_singleton]
      rwa [List.append_nil] at hspells
    | cons other rest =>
      have hspace : Text.isBlank ' ' = true := by decide
      rw [List.intercalate_cons_cons, List.append_assoc, List.singleton_append]
      exact .word hne hplain (by simp [hspace])
        (.blank hspace (ih fun w hw => h w (List.mem_cons_of_mem _ hw)))

/-- Nothing but the words and the spaces between them is in such a line. -/
theorem forall_mem_intercalate {words : List (List Char)} {P : Char → Prop} (hspace : P ' ')
    (hwords : ∀ word ∈ words, ∀ c ∈ word, P c) : ∀ c ∈ [' '].intercalate words, P c := by
  induction words with
  | nil => simp
  | cons word rest ih =>
    cases rest with
    | nil => simpa using hwords
    | cons other rest =>
      have hrest := ih fun w hw => hwords w (List.mem_cons_of_mem _ hw)
      intro c hc
      rw [List.intercalate_cons_cons, List.append_assoc, List.mem_append, List.mem_append] at hc
      rcases hc with hc | hc | hc
      · exact hwords word (List.mem_cons_self ..) c hc
      · exact List.mem_singleton.mp hc ▸ hspace
      · exact hrest c hc

/-- A mnemonic names its opcode. -/
theorem names_mnemonic (op : Opcode) : Names op.mnemonic.toList op :=
  ⟨['O', 'P', '_'], op.name.toList, by simp [Opcode.mnemonic], .inr (by decide), rfl⟩

/-- A text that is read as a value is not empty. -/
theorem Denotes.ne_nil {token : List Char} {v : Value} (h : Denotes token v) : token ≠ [] := by
  rintro rfl
  have hempty : Value.ofText? [] = none := rfl
  exact absurd (hempty.symm.trans h.2) (by simp)

section Lines

variable {c : Chunk} {token : UInt8 → List Char} {p : Placed Instruction}
  (hoperand : ∀ operand, p.item.operand? = some operand →
    ∃ v, c.constant? operand.toNat = some v ∧ Denotes (token operand) v)

include hoperand

/-- The words of the line for an instruction are words. -/
theorem isPlain_of_mem_sourceWords :
    ∀ word ∈ sourceWords token p, word ≠ [] ∧ ∀ c ∈ word, IsPlain c := by
  intro word hword
  rcases List.mem_cons.mp hword with rfl | hword
  · refine ⟨List.cons_ne_nil _ _, List.forall_mem_cons.mpr ⟨by decide, ?_⟩⟩
    exact fun c hc => Number.isPlain_of_mem_toDigits hc
  rcases List.mem_cons.mp hword with rfl | hword
  · refine ⟨?_, Opcode.isPlain_of_mem_mnemonic _⟩
    simp [Opcode.mnemonic]
  · obtain ⟨operand, hop, rfl⟩ := Option.map_eq_some_iff.mp (Option.mem_toList.mp hword)
    obtain ⟨v, -, hdenotes⟩ := hoperand operand hop
    exact ⟨hdenotes.ne_nil, hdenotes.1⟩

/-- The mnemonic of an instruction and its token, if it has one, write its statement. -/
theorem writes_statementOf : Writes (sourceWords token p).tail (statementOf c p.item) := by
  obtain ⟨offset, line, i⟩ := p
  cases i with
  | constant index =>
    obtain ⟨v, hv, hdenotes⟩ := hoperand index rfl
    rw [statementOf, hv]
    exact .constant (names_mnemonic _) hdenotes.2
  | ret => exact .ret (names_mnemonic _)
  | arith f => exact .arith (names_mnemonic _)
  | negate => exact .negate (names_mnemonic _)

/-- The line for an instruction has the form of its command, whatever its number. -/
theorem lineForm_sourceLine (number : Nat) :
    LineForm number (sourceLine token p) (some (commandOf c p)) := by
  refine ⟨sourceWords token p, spells_intercalate (isPlain_of_mem_sourceWords hoperand), ?_⟩
  have hline := Number.readBelow?_toDigits p.line.toNat_lt
  have hform : WordsForm number (sourceWords token p)
      (some ⟨UInt32.ofNat p.line.toNat, statementOf c p.item, none⟩) :=
    .overridden hline (writes_statementOf hoperand)
  rwa [UInt32.ofNat_toNat] at hform

/-- The line for an instruction is one line. -/
theorem newline_notMem_sourceLine : ∀ c ∈ sourceLine token p, c ≠ '\n' ∧ c ≠ '\r' := by
  refine forall_mem_intercalate (by decide) fun word hword c hc => ?_
  have hplain := ((isPlain_of_mem_sourceWords hoperand word hword).2 c hc).1
  constructor
  · rintro rfl
    exact absurd hplain (by decide)
  · rintro rfl
    exact absurd hplain (by decide)

end Lines

/-- Lines with a form each, whatever their numbers, have these forms. -/
theorem linesForm_map {α : Type} {list : List α} {line : α → List Char} {form : α → Option Command}
    (h : ∀ a ∈ list, ∀ number, LineForm number (line a) (form a)) (number : Nat) :
    LinesForm number (list.map line) (list.map form) := by
  induction list generalizing number with
  | nil => exact .nil
  | cons a rest ih =>
    have hrest := ih (fun b hb => h b (List.mem_cons_of_mem _ hb)) (number + 1)
    exact .cons (h a (List.mem_cons_self ..) number) hrest

/-! ## The commands of a chunk -/

/-- Commands of instructions whose operands count on from a number have these instructions as their
program. -/
theorem program_map_commandOf (c : Chunk) {used count : Nat} {found : List (Placed Instruction)}
    (h : (found.filterMap fun p => p.item.operand?).map UInt8.toNat = List.range' used count) :
    program used (found.map (commandOf c)) = found.map fun p => (p.line, p.item) := by
  induction found generalizing used count with
  | nil => rfl
  | cons p rest ih =>
    obtain ⟨offset, line, i⟩ := p
    rw [List.map_cons, List.map_cons, program]
    cases i with
    | constant index =>
      cases count with
      | zero => cases h
      | succ count =>
        rw [List.range'_succ] at h
        obtain ⟨hindex, hrest⟩ := List.cons.inj h
        refine congrArg₂ List.cons ?_ (ih hrest)
        change (line, Operation.constant (UInt8.ofNat used)) = (line, .constant index)
        rw [← hindex, UInt8.ofNat_toNat]
    | ret => exact congrArg (_ :: ·) (ih h)
    | arith f => exact congrArg (_ :: ·) (ih h)
    | negate => exact congrArg (_ :: ·) (ih h)

/-- The commands of a chunk write what its operands stand for. -/
theorem writtenConstants_map_commandOf (c : Chunk) (found : List (Placed Instruction)) :
    writtenConstants (found.map (commandOf c)) =
      (found.filterMap fun p => p.item.operand?).map fun index =>
        (c.constant? index.toNat).getD default := by
  rw [writtenConstants, List.filterMap_map, List.map_filterMap]
  refine List.filterMap_congr fun p _ => ?_
  obtain ⟨offset, line, i⟩ := p
  cases i <;> rfl

/-- The commands of a sequential chunk write the constants in its pool. -/
theorem writtenConstants_of_isSequential {c : Chunk} (h : c.IsSequential) :
    writtenConstants (c.instructions.map (commandOf c)) = c.constants := by
  have hoperands : (c.operands.map fun index => (c.constant? index.toNat).getD default) =
      (c.operands.map UInt8.toNat).map fun k => (c.constant? k).getD default := by
    rw [List.map_map]
    rfl
  rw [writtenConstants_map_commandOf]
  change (c.operands.map fun index => (c.constant? index.toNat).getD default) = c.constants
  rw [hoperands, h.map_toNat_operands]
  apply List.ext_getElem
  · rw [List.length_map, List.length_range, Chunk.constants, Buffer.length_toList]
    rfl
  · intro k _ hk
    rw [List.getElem_map, List.getElem_range, Chunk.constant?, Buffer.get?_eq]
    exact congrArg (Option.getD · default) (List.getElem?_eq_getElem hk)

/-- A sequential chunk is the chunk of its commands. -/
theorem eq_chunkOf {c : Chunk} (h : c.IsSequential) :
    c = chunkOf (c.instructions.map (commandOf c)) := by
  have hprogram : program 0 (c.instructions.map (commandOf c)) =
      c.instructions.map fun p => (p.line, p.item) :=
    program_map_commandOf c (h.map_toNat_operands.trans List.range_eq_range')
  refine Chunk.eq_of_written h.written ⟨_, rfl⟩ ?_ ?_
  · rw [cells_chunkOf, hprogram, h.cells_eq]
  · rw [pool_chunkOf, writtenConstants_of_isSequential h]
    rfl

/-- The chunk of commands is sequential. -/
theorem isSequential_chunkOf {commands : List Command}
    (h : (writtenConstants commands).length ≤ maxConstants) : (chunkOf commands).IsSequential := by
  have hdecode := Chunk.decode_of_encode (cells_chunkOf commands)
  have hinstructions := Chunk.instructions_of_decode hdecode
  have hoperands : (chunkOf commands).operands.map UInt8.toNat =
      List.range (chunkOf commands).poolSize := by
    have hprogram := operands_program 0 (by rwa [Nat.zero_add])
    rw [← Decoding.map_place 0 (program 0 commands), List.filterMap_map] at hprogram
    rw [Chunk.operands, hinstructions, poolSize_chunkOf, List.range_eq_range']
    exact hprogram
  have hlength := congrArg List.length hoperands
  rw [List.length_map, List.length_range] at hlength
  refine ⟨⟨_, rfl⟩, ?_, ?_, hlength.symm, ?_, ?_⟩
  · rw [Chunk.decodeFault?, hdecode, List.findSome?_eq_none_iff, List.forall_mem_map]
    exact fun _ _ => rfl
  · intro k operand hk
    have hrange : (List.range (chunkOf commands).poolSize)[k]? = some operand.toNat := by
      rw [← hoperands, List.getElem?_map, hk]
      rfl
    obtain ⟨hlt, hget⟩ := List.getElem?_eq_some_iff.mp hrange
    rw [← hget, List.getElem_range]
  · rw [poolSize_chunkOf]
    exact h
  · intro p hp operand hoperand
    rw [hinstructions] at hp
    rw [Chunk.line?, Buffer.get?_eq, cells_chunkOf, operand_cell_of_mem_place hp hoperand]
    rfl

/-! ## Reassembly -/

/-- The source of a chunk, with a token for each operand. -/
def sourceOf (c : Chunk) (token : UInt8 → List Char) : String :=
  String.ofList (Text.unlines (c.instructions.map (sourceLine token)))

/-- In a sequential chunk each operand has a constant, and its token is read as that constant. -/
theorem denotes_operand {c : Chunk} (h : c.IsSequential) {token : UInt8 → List Char}
    (htoken : ∀ index v, c.constant? index.toNat = some v → Denotes (token index) v)
    {p : Placed Instruction} (hp : p ∈ c.instructions) :
    ∀ operand, p.item.operand? = some operand →
      ∃ v, c.constant? operand.toNat = some v ∧ Denotes (token operand) v := by
  intro operand hoperand
  obtain ⟨v, hv⟩ := h.exists_constant hp hoperand
  exact ⟨v, hv, htoken operand v hv⟩

/-- A source with the lines of a sequential chunk assembles to that chunk. -/
theorem assemble_of_lines {c : Chunk} (h : c.IsSequential) {token : UInt8 → List Char}
    (htoken : ∀ index v, c.constant? index.toNat = some v → Denotes (token index) v) {source : String}
    (hlines : Text.lines source.toList = c.instructions.map (sourceLine token)) :
    assemble source = .ok c := by
  have hforms : SourceForm source (c.instructions.map fun p => some (commandOf c p)) := by
    rw [SourceForm, hlines]
    exact linesForm_map (fun p hp => lineForm_sourceLine (denotes_operand h htoken hp)) 1
  have hcommands : (c.instructions.map fun p => some (commandOf c p)).reduceOption =
      c.instructions.map (commandOf c) := by
    rw [List.reduceOption, List.filterMap_map]
    exact congrFun List.filterMap_eq_map _
  refine assemble_eq_ok_iff.mpr ⟨_, hforms, ?_, ?_⟩
  · rw [hcommands, writtenConstants_of_isSequential h, Chunk.constants, Buffer.length_toList]
    exact h.poolSize_le
  · rw [hcommands]
    exact eq_chunkOf h

/-- The source of a sequential chunk has one line for each instruction. -/
theorem lines_sourceOf {c : Chunk} (h : c.IsSequential) {token : UInt8 → List Char}
    (htoken : ∀ index v, c.constant? index.toNat = some v → Denotes (token index) v) :
    Text.lines (sourceOf c token).toList = c.instructions.map (sourceLine token) := by
  rw [sourceOf, String.toList_ofList]
  refine Text.lines_unlines (List.forall_mem_map.mpr fun p hp => ?_)
  exact newline_notMem_sourceLine (denotes_operand h htoken hp)

/-- A value that can be denoted is denoted by its exact text. -/
theorem denotes_exactText {v : Value} (h : v.IsWritable) : Denotes v.exactText v :=
  ⟨fun _ hc => Number.Literal.isPlain_of_mem_text hc, h.ofText?_exactText⟩

/-- A statement that is written pushes a value that can be denoted. -/
theorem Writes.isWritable {words : List (List Char)} {s : Statement} (h : Writes words s) {v : Value}
    (hv : constant? s = some v) : v.IsWritable := by
  cases h with
  | constant hname hnumber =>
    obtain rfl := Option.some.inj hv
    exact Value.isWritable_of_ofText? hnumber
  | ret hname | arith hname | negate hname => cases hv

/-- Lines with forms write constants that can be denoted. -/
theorem isWritable_of_linesForm {number : Nat} {lines : List (List Char)} {forms : List (Option Command)}
    (h : LinesForm number lines forms) {v : Value} (hv : v ∈ writtenConstants forms.reduceOption) :
    v.IsWritable := by
  obtain ⟨command, hcommand, hconstant⟩ := List.mem_filterMap.mp hv
  obtain ⟨⟨k, hk⟩, hget⟩ := List.mem_iff_get.mp (List.reduceOption_mem_iff.mp hcommand)
  have hform := h.get (h.length_eq ▸ hk) hk
  rw [hget] at hform
  obtain ⟨words, -, hwords⟩ := hform
  cases hwords with
  | statement hs | overridden hn hs => exact hs.isWritable hconstant

/-- The constants of an assembled chunk can be denoted. -/
theorem isWritable_of_assemble {source : String} {c : Chunk} (h : assemble source = .ok c) :
    ∀ v ∈ c.constants, v.IsWritable := by
  obtain ⟨forms, hforms, -, rfl⟩ := assemble_eq_ok_iff.mp h
  rw [Chunk.constants, pool_chunkOf]
  exact fun v hv => isWritable_of_linesForm hforms hv

/-- A constant on the greatest line, and a return. -/
def oneConstant (v : Value) : Chunk :=
  (((Chunk.empty.addConstant v).writeOpcode .constant 4294967295).write 0 4294967295).writeOpcode .ret 7

/-- One constant is in sequence, whatever value it is. -/
theorem isSequential_oneConstant (v : Value) : (oneConstant v).IsSequential := by
  have hinstructions : (oneConstant v).instructions =
      [⟨0, 4294967295, .constant 0⟩, ⟨2, 7, .ret⟩] := rfl
  refine ⟨⟨[.addConstant v, .write 0 4294967295, .write 0 4294967295, .write 1 7], rfl⟩, rfl, ?_, rfl,
    (by decide : 1 ≤ 256), ?_⟩
  · intro k operand hk
    have hoperands : (oneConstant v).operands = [0] := rfl
    obtain ⟨hlt, rfl⟩ := List.getElem?_eq_some_iff.mp (hoperands ▸ hk)
    obtain rfl : k = 0 := Nat.lt_one_iff.mp hlt
    rfl
  · intro p hp operand hoperand
    rw [hinstructions] at hp
    rcases List.mem_pair.mp hp with rfl | rfl
    · rfl
    · cases hoperand

/-- A sequential chunk is assembled from its own source, whatever tokens its constants are written
with, and from any other source with the same lines: the result is the chunk itself, its constants
bit for bit. The chunks that sources assemble to are those sequential ones whose constants can be
denoted, which leaves out all but two of the values that are no number. -/
theorem reassembly_round_trip (c : Chunk) :
    (c.IsSequential → ∀ token : UInt8 → List Char,
      (∀ index v, c.constant? index.toNat = some v → Denotes (token index) v) →
        assemble (sourceOf c token) = .ok c ∧
        ∀ source, Text.lines source.toList = c.instructions.map (sourceLine token) →
          assemble source = .ok c) ∧
    ((∃ source, assemble source = .ok c) ↔ c.IsSequential ∧ ∀ v ∈ c.constants, v.IsWritable) := by
  refine ⟨fun h token htoken => ⟨assemble_of_lines h htoken (lines_sourceOf h htoken),
    fun source hlines => assemble_of_lines h htoken hlines⟩, ?_, ?_⟩
  · intro hsource
    obtain ⟨source, hsource⟩ := hsource
    refine ⟨?_, isWritable_of_assemble hsource⟩
    obtain ⟨forms, -, hconstants, rfl⟩ := assemble_eq_ok_iff.mp hsource
    exact isSequential_chunkOf hconstants
  · rintro ⟨h, hwritable⟩
    have htoken (index : UInt8) (v : Value) (hv : c.constant? index.toNat = some v) :
        Denotes ((c.constant? index.toNat).elim [] Value.exactText) v := by
      rw [hv]
      rw [Chunk.constant?, Buffer.get?_eq] at hv
      exact denotes_exactText (hwritable v (List.mem_of_getElem? hv))
    exact ⟨_, assemble_of_lines h htoken (lines_sourceOf h htoken)⟩

/-- Negative zero comes back with its sign, and the greatest line number as it is. -/
theorem reassembly_round_trip_negative_zero :
    ∃ c : Chunk, c.constants = [.ofBits 0x8000000000000000] ∧ c.lines = [4294967295, 4294967295, 7] ∧
      c.IsSequential ∧ assemble "@4294967295 OP_CONSTANT -0\n@7 OP_RETURN\n" = .ok c := by
  let c := oneConstant (.ofBits 0x8000000000000000)
  have hsequential : c.IsSequential := isSequential_oneConstant _
  have htoken (index : UInt8) (v : Value) (hv : c.constant? index.toNat = some v) :
      Denotes ['-', '0'] v := by
    have hmem : v ∈ c.constants := by
      rw [Chunk.constant?, Buffer.get?_eq] at hv
      exact List.mem_of_getElem? hv
    obtain rfl := List.mem_singleton.mp hmem
    exact ⟨List.forall_mem_cons.mpr ⟨by decide, List.forall_mem_singleton.mpr (by decide)⟩, rfl⟩
  obtain ⟨-, hassemble⟩ := (reassembly_round_trip c).1 hsequential (fun _ => ['-', '0']) htoken
  exact ⟨c, rfl, rfl, hsequential, hassemble _ rfl⟩

/-- Of the values that are no number, the one after that which `nan` stands for is in no chunk that is
assembled, though the chunk meets all other conditions. -/
theorem unwritable_constant_not_assembled :
    ∃ c : Chunk, c.constants = [.ofBits 0x7FF8000000000001] ∧ c.IsSequential ∧
      ¬ ∃ source, assemble source = .ok c := by
  refine ⟨oneConstant (.ofBits 0x7FF8000000000001), rfl, isSequential_oneConstant _, ?_⟩
  rintro ⟨source, hsource⟩
  have hwritable := isWritable_of_assemble hsource _ (List.mem_singleton_self _) ⟨false, rfl⟩
  exact absurd hwritable (by decide)

end Assembly

end StackBytecode
