import Mathlib.Data.List.ReduceOption
import StackBytecode.Assembly
import StackBytecode.Proofs.Assembly.Grammar
import StackBytecode.Proofs.Decoding.Layout

/-!
# The program of a source

Commands determine instructions: each constant takes the next pool index, everything else
stays as it is. A source assembles exactly when all of its lines have forms and they write
no more constants than an operand byte can count. Its chunk then holds the cells of these
instructions and these constants, and nothing else.

The pool is numbered from any count of constants on, since the lines after a constant are
assembled with that constant in the pool already.
-/

namespace StackBytecode.Assembly

open Decoding (encode encode_cons)

/-- The number that a statement pushes, if it is a constant. -/
def constant? : Statement → Option Value
  | .constant v => some v
  | _ => none

/-- The constants that commands write, in order. -/
def writtenConstants (commands : List Command) : List Value :=
  commands.filterMap fun c => constant? c.statement

/-- The instruction of a statement, where `used` constants are in the pool already. -/
def instructionOf (used : Nat) : Statement → Instruction
  | .constant _ => .constant (UInt8.ofNat used)
  | .ret => .ret
  | .arith f => .arith f
  | .negate => .negate

/-- The instructions of commands, where `used` constants are in the pool already. -/
def program (used : Nat) : List Command → List (UInt32 × Instruction)
  | [] => []
  | c :: rest =>
    (c.line, instructionOf used c.statement) :: program (used + statementConstants c.statement) rest

/-- The edits of commands, where `used` constants are in the pool already. -/
def commandsEdits (used : Nat) : List Command → List Edit
  | [] => []
  | c :: rest =>
    statementEdits used c.line c.statement ++
      commandsEdits (used + statementConstants c.statement) rest

/-- The chunk of commands. -/
def chunkOf (commands : List Command) : Chunk := Chunk.empty.applyAll (commandsEdits 0 commands)

/-- A command adds its constant, if it has one, to those of the commands after it. -/
theorem writtenConstants_cons (c : Command) (rest : List Command) :
    writtenConstants (c :: rest) = (constant? c.statement).toList ++ writtenConstants rest := by
  unfold writtenConstants
  cases h : constant? c.statement <;> simp [h]

/-- The constant of a statement is what it adds to the count of constants. -/
theorem length_constant? (s : Statement) : (constant? s).toList.length = statementConstants s := by
  cases s <;> rfl

/-- Commands write as many constants as the first of them and the rest together. -/
theorem length_writtenConstants_cons (c : Command) (rest : List Command) :
    (writtenConstants (c :: rest)).length =
      statementConstants c.statement + (writtenConstants rest).length := by
  rw [writtenConstants_cons, List.length_append, length_constant?]

/-- The instructions of commands have the commands' lines and opcodes. -/
theorem map_opcode_program (used : Nat) (commands : List Command) :
    (program used commands).map (fun entry => (entry.1, entry.2.opcode)) =
      commands.map fun c => (c.line, c.statement.opcode) := by
  induction commands generalizing used with
  | nil => rfl
  | cons c rest ih =>
    have hopcode : (instructionOf used c.statement).opcode = c.statement.opcode := by
      cases c.statement <;> rfl
    rw [program, List.map_cons, List.map_cons, ih, hopcode]

/-- The operands of a program count its constants. -/
theorem operands_program (used : Nat) {commands : List Command}
    (h : used + (writtenConstants commands).length ≤ maxConstants) :
    ((program used commands).filterMap fun entry => entry.2.operand?).map UInt8.toNat =
      List.range' used (writtenConstants commands).length := by
  induction commands generalizing used with
  | nil => rfl
  | cons c rest ih =>
    obtain ⟨line, s, extra⟩ := c
    rw [length_writtenConstants_cons] at h ⊢
    have hrest := ih (used + statementConstants s) (by dsimp only at h; omega)
    cases s with
    | constant v =>
      change used + (1 + (writtenConstants rest).length) ≤ 256 at h
      have hlt : used < 256 := by omega
      have hindex : (UInt8.ofNat used).toNat = used := UInt8.toNat_ofNat_of_lt' hlt
      change (UInt8.ofNat used).toNat :: _ = List.range' used (1 + (writtenConstants rest).length)
      rw [Nat.add_comm 1, List.range'_succ, hindex]
      exact congrArg (used :: ·) hrest
    | ret => simpa [program, instructionOf, Instruction.operand?, statementConstants] using hrest
    | arith f => simpa [program, instructionOf, Instruction.operand?, statementConstants] using hrest
    | negate => simpa [program, instructionOf, Instruction.operand?, statementConstants] using hrest

/-! ## Chunks of commands -/

/-- The edits of a statement are its constant, if it has one, and the bytes of its instruction. -/
theorem statementEdits_eq (used : Nat) (line : UInt32) (s : Statement) :
    statementEdits used line s =
      (constant? s).toList.map .addConstant ++ (instructionOf used s).edits line := by
  cases s <;> rfl

/-- Adding constants to a chunk appends them to its pool and leaves its cells. -/
theorem applyAll_addConstant (c : Chunk) (values : List Value) :
    (c.applyAll (values.map .addConstant)).cells = c.cells ∧
      (c.applyAll (values.map .addConstant)).pool.toList = c.pool.toList ++ values := by
  induction values generalizing c with
  | nil => simp [Chunk.applyAll]
  | cons v rest ih =>
    obtain ⟨hcells, hpool⟩ := ih (c.addConstant v)
    refine ⟨hcells, hpool.trans ?_⟩
    rw [Chunk.addConstant, Buffer.toList_push, List.append_assoc, List.singleton_append]

/-- Writing an instruction to a chunk appends its cells and leaves the pool. -/
theorem applyAll_instruction (c : Chunk) (i : Instruction) (line : UInt32) :
    (c.applyAll (i.edits line)).cells.toList = c.cells.toList ++ i.cells line ∧
      (c.applyAll (i.edits line)).pool = c.pool := by
  rw [Instruction.edits, Instruction.cells]
  induction i.bytes generalizing c with
  | nil => simp [Chunk.applyAll]
  | cons byte rest ih =>
    obtain ⟨hcells, hpool⟩ := ih (c.write byte line)
    refine ⟨hcells.trans ?_, hpool⟩
    rw [Chunk.write, Buffer.toList_push, List.append_assoc, List.singleton_append, List.map_cons]

/-- Edits in two groups are applied one group after the other. -/
theorem applyAll_append (c : Chunk) (first second : List Edit) :
    c.applyAll (first ++ second) = (c.applyAll first).applyAll second :=
  List.foldl_append

/-- The edits of commands append the cells of their instructions, and their constants. -/
theorem applyAll_commandsEdits (c : Chunk) (used : Nat) (commands : List Command) :
    (c.applyAll (commandsEdits used commands)).cells.toList =
        c.cells.toList ++ encode (program used commands) ∧
      (c.applyAll (commandsEdits used commands)).pool.toList =
        c.pool.toList ++ writtenConstants commands := by
  induction commands generalizing c used with
  | nil => simp [commandsEdits, program, writtenConstants, Chunk.applyAll]
  | cons command rest ih =>
    have hadd := applyAll_addConstant c (constant? command.statement).toList
    have hwrite := applyAll_instruction
      (c.applyAll ((constant? command.statement).toList.map .addConstant))
      (instructionOf used command.statement) command.line
    rw [commandsEdits, statementEdits_eq, applyAll_append, applyAll_append, program, encode_cons]
    obtain ⟨hcells, hpool⟩ := ih
      ((c.applyAll ((constant? command.statement).toList.map .addConstant)).applyAll
        ((instructionOf used command.statement).edits command.line))
      (used + statementConstants command.statement)
    rw [hcells, hpool, hwrite.1, hwrite.2, hadd.1, hadd.2, writtenConstants_cons]
    exact ⟨List.append_assoc .., List.append_assoc ..⟩

/-- The chunk of commands has the cells of their instructions. -/
theorem cells_chunkOf (commands : List Command) :
    (chunkOf commands).cells.toList = encode (program 0 commands) := by
  rw [chunkOf, (applyAll_commandsEdits _ _ _).1]
  rfl

/-- The instructions of the chunk of commands are their program. -/
theorem map_instructions_chunkOf (commands : List Command) :
    (chunkOf commands).instructions.map (fun p => (p.line, p.item)) = program 0 commands := by
  rw [Chunk.instructions_of_decode (Chunk.decode_of_encode (cells_chunkOf commands)), Decoding.map_place]

/-- The chunk of commands has their constants in its pool. -/
theorem pool_chunkOf (commands : List Command) :
    (chunkOf commands).pool.toList = writtenConstants commands := by
  rw [chunkOf, (applyAll_commandsEdits _ _ _).2]
  rfl

/-- The pool of commands is as large as the number of constants they write. -/
theorem poolSize_chunkOf (commands : List Command) :
    (chunkOf commands).poolSize = (writtenConstants commands).length := by
  rw [Chunk.poolSize, ← Buffer.length_toList, pool_chunkOf]

/-! ## Acceptance -/

/-- Lines with forms and few enough constants make the edits of their commands in front of those of the
lines behind them, and no fault. -/
theorem linesEffect_append {number used : Nat} {lines : List (List Char)} {forms : List (Option Command)}
    (h : LinesForm number lines forms)
    (hused : used + (writtenConstants forms.reduceOption).length ≤ maxConstants)
    (more : List (List Char)) :
    linesEffect number used (lines ++ more) =
      ⟨commandsEdits used forms.reduceOption ++
          (linesEffect (number + lines.length)
            (used + (writtenConstants forms.reduceOption).length) more).edits,
        (linesEffect (number + lines.length)
          (used + (writtenConstants forms.reduceOption).length) more).fault⟩ := by
  induction lines generalizing number used forms with
  | nil =>
    obtain rfl : forms = [] := by simpa [LinesForm] using h
    rfl
  | cons line rest ih =>
    rw [LinesForm, List.zipIdx_cons, List.forall₂_cons_left_iff] at h
    obtain ⟨form, forms, hline, hrest, rfl⟩ := h
    obtain ⟨hread, hextra⟩ := lineForm_iff.mp hline
    have hnumber : number + (line :: rest).length = number + 1 + rest.length := by
      rw [List.length_cons]
      omega
    rw [List.cons_append, linesEffect, hread, hnumber]
    cases form with
    | none =>
      rw [List.reduceOption_cons_of_none] at hused ⊢
      exact ih hrest hused
    | some command =>
      rw [List.reduceOption_cons_of_some] at hused ⊢
      rw [length_writtenConstants_cons] at hused ⊢
      have hfits : ¬ maxConstants < used + statementConstants command.statement := by omega
      have hcommand : commandEffect number used command =
          ⟨statementEdits used command.line command.statement, none⟩ := by
        rw [commandEffect, if_neg hfits, hextra command rfl]
        rfl
      simp only [hcommand]
      rw [ih hrest (by omega), commandsEdits, List.append_assoc, Nat.add_assoc used]

/-- Lines with forms and few enough constants make the edits of their commands and no fault. -/
theorem linesEffect_of_linesForm {number used : Nat} {lines : List (List Char)}
    {forms : List (Option Command)} (h : LinesForm number lines forms)
    (hused : used + (writtenConstants forms.reduceOption).length ≤ maxConstants) :
    linesEffect number used lines = ⟨commandsEdits used forms.reduceOption, none⟩ := by
  have happend := linesEffect_append h hused []
  rwa [List.append_nil, linesEffect, List.append_nil] at happend

/-- Lines behind a fault change nothing. -/
theorem linesEffect_append_of_fault {number used : Nat} {lines : List (List Char)} {fault : Fault}
    (h : (linesEffect number used lines).fault = some fault) (more : List (List Char)) :
    linesEffect number used (lines ++ more) = linesEffect number used lines := by
  induction lines generalizing number used with
  | nil => cases h
  | cons line rest ih =>
    rw [linesEffect] at h
    rw [List.cons_append, linesEffect, linesEffect]
    cases hread : readLine number line with
    | error cause => rfl
    | ok form =>
      rw [hread] at h
      cases form with
      | none => exact ih h
      | some command =>
        cases hcommand : (commandEffect number used command).fault with
        | some other => simp only [hcommand]
        | none =>
          simp only [hcommand] at h ⊢
          rw [ih h]

/-- Lines without a fault have forms, and few enough constants. -/
theorem linesForm_of_linesEffect {number used : Nat} {lines : List (List Char)}
    (hused : used ≤ maxConstants) (h : (linesEffect number used lines).fault = none) :
    ∃ forms, LinesForm number lines forms ∧
      used + (writtenConstants forms.reduceOption).length ≤ maxConstants := by
  induction lines generalizing number used with
  | nil => exact ⟨[], List.Forall₂.nil, hused⟩
  | cons line rest ih =>
    rw [linesEffect] at h
    split at h
    case h_1 => cases h
    case h_2 hread =>
      obtain ⟨forms, hrest, hconstants⟩ := ih hused h
      exact ⟨none :: forms, List.Forall₂.cons (lineForm_iff.mpr ⟨hread, by simp⟩) hrest, hconstants⟩
    case h_3 command hread =>
      by_cases hfits : maxConstants < used + statementConstants command.statement
      · rw [commandEffect, if_pos hfits] at h
        cases h
      rw [commandEffect, if_neg hfits] at h
      cases hextra : command.extra with
      | some word =>
        rw [hextra] at h
        cases h
      | none =>
        rw [hextra] at h
        obtain ⟨forms, hrest, hconstants⟩ := ih (Nat.le_of_not_lt hfits) h
        refine ⟨some command :: forms, List.Forall₂.cons ?_ hrest, ?_⟩
        · exact lineForm_iff.mpr ⟨hread, by simpa using hextra⟩
        · rw [List.reduceOption_cons_of_some, length_writtenConstants_cons]
          omega

/-- Assembling ends in a fault exactly when the effect of the source does. -/
theorem assemble_eq_error_iff {source : String} {fault : Fault} :
    assemble source = .error fault ↔ (sourceEffect source).fault = some fault := by
  rw [assemble]
  cases (sourceEffect source).fault <;> simp

/-- A source assembles exactly when its effect has no fault. -/
theorem exists_assemble_eq_ok_iff {source : String} :
    (∃ c, assemble source = .ok c) ↔ (sourceEffect source).fault = none := by
  rw [assemble]
  cases (sourceEffect source).fault <;> simp

/-- A source assembles exactly when its lines have forms with few enough constants, and then to
the chunk of their commands. -/
theorem assemble_eq_ok_iff {source : String} {c : Chunk} :
    assemble source = .ok c ↔
      ∃ forms, SourceForm source forms ∧
        (writtenConstants forms.reduceOption).length ≤ maxConstants ∧ c = chunkOf forms.reduceOption := by
  constructor
  · intro h
    rw [assemble] at h
    split at h
    case h_1 => cases h
    case h_2 hfault =>
      obtain ⟨forms, hforms, hconstants⟩ := linesForm_of_linesEffect (Nat.zero_le _) hfault
      rw [Nat.zero_add] at hconstants
      refine ⟨forms, hforms, hconstants, ?_⟩
      rw [sourceEffect, linesEffect_of_linesForm hforms (by omega)] at h
      exact (Except.ok.inj h).symm
  · intro h
    obtain ⟨forms, hforms, hconstants, rfl⟩ := h
    rw [assemble, sourceEffect, linesEffect_of_linesForm hforms (by omega)]
    rfl

end StackBytecode.Assembly
