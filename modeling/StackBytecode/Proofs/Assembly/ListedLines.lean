import StackBytecode.Proofs.Assembly.Refinement
import StackBytecode.Proofs.Chunk.RunLengthForm
import StackBytecode.Proofs.Listing.Reading

/-!
# Source lines read off a listing

The line column of an entry shows a bar when the byte before has the same line, and that byte may be
an operand. All bytes of an assembled statement record one line, so the byte before an instruction
has the line of the instruction before it. Reading the columns from the top down, with a bar for the
last number above it, thus gives the line of every instruction: going on behind some of them, what
was read last is the line of the byte before.

A number is shown exactly where the line changes. An operand never changes it, so there are as many
numbers as runs of lines.
-/

namespace StackBytecode

namespace Listing

/-! ## Reading line columns -/

/-- The line column of an entry, which is the second word on its line. -/
def columnOf (line : List Char) : List Char := ((Text.words line).drop 1).headD []

/-- The number in a line column; there is none in place of a bar. -/
def columnNumber? (column : List Char) : Option UInt32 :=
  (Number.readBelow? UInt32.size column).map UInt32.ofNat

/-- The line columns of the entries on the lines of a text. -/
def columns (text : String) : List (List Char) := (Text.lines text.toList).map columnOf

/-- The source lines that line columns stand for, from the top down: a bar stands for the last number
above it, which is `last` for the first column. -/
def readColumns (last : Option UInt32) : List (List Char) → List (Option UInt32)
  | [] => []
  | column :: rest =>
    let line := if column = ['|'] then last else columnNumber? column
    line :: readColumns line rest

/-- An entry shows its line, unless it shows a bar. -/
theorem Entry.columnNumber?_columnWord (e : Entry) :
    columnNumber? e.columnWord = if e.continued then none else some e.line := by
  rw [columnWord]
  split
  case isTrue => rfl
  case isFalse =>
    rw [columnNumber?, Nat.toList_repr, Number.readBelow?_toDigits e.line.toNat_lt, Option.map_some,
      UInt32.ofNat_toNat]

/-- Only a bar is read as one. -/
theorem Entry.columnWord_eq_bar_iff (e : Entry) : e.columnWord = ['|'] ↔ e.continued = true := by
  constructor
  · intro hbar
    have hnumber := e.columnNumber?_columnWord
    rw [hbar] at hnumber
    by_contra hcontinued
    rw [if_neg hcontinued] at hnumber
    cases hnumber
  · intro hcontinued
    rw [columnWord, if_pos hcontinued]

/-- The line columns in a listing are those of its entries. -/
theorem columns_linesOf (entries : List Entry) :
    columns (Chunk.linesOf Entry.full entries) = entries.map Entry.columnWord := by
  rw [columns, Chunk.lines_linesOf Entry.isLine_full, List.map_map]
  refine List.map_congr_left fun e _ => ?_
  rw [Function.comp_apply, columnOf, Entry.words_full]
  rfl

/-! ## Entries of instructions laid out -/

/-- The cells of an instruction are listed as one entry, and the entries behind it follow its line. -/
theorem walk_cells_append (pool : Buffer Value) (offset : Nat) (before : Option UInt32) (line : UInt32)
    (i : Instruction) (rest : List Cell) :
    walk pool offset before 0 (i.cells line ++ rest) =
      ⟨offset, line, before == some line, .of pool (.ok ⟨offset, line, i⟩)⟩ ::
        walk pool (offset + i.size) (some line) 0 rest := by
  rcases i with index | _ | f | _
  case arith => cases f <;> rfl
  all_goals rfl

/-- The columns of instructions laid out are read as their lines, if what was read last is the line
before them. -/
theorem readColumns_walk_encode (pool : Buffer Value) (offset : Nat) (before : Option UInt32)
    (program : List (UInt32 × Instruction)) :
    readColumns before ((walk pool offset before 0 (Decoding.encode program)).map Entry.columnWord) =
      program.map fun entry => some entry.1 := by
  induction program generalizing offset before with
  | nil => rfl
  | cons head rest ih =>
    obtain ⟨line, i⟩ := head
    rw [Decoding.encode_cons, walk_cells_append, List.map_cons, List.map_cons, readColumns]
    have hline (body : Body) :
        (if (⟨offset, line, before == some line, body⟩ : Entry).columnWord = ['|'] then before
          else columnNumber? (⟨offset, line, before == some line, body⟩ : Entry).columnWord) =
          some line := by
      rw [Entry.columnNumber?_columnWord]
      simp only [Entry.columnWord_eq_bar_iff]
      split
      case isTrue hsame => exact eq_of_beq hsame
      case isFalse => rfl
    simp only [hline, ih]

/-- Instructions laid out show a number wherever their line changes. -/
theorem countP_walk_encode (pool : Buffer Value) (offset : Nat) (before : Option UInt32)
    (program : List (UInt32 × Instruction)) :
    ((walk pool offset before 0 (Decoding.encode program)).map Entry.columnWord).countP
        (fun column => (columnNumber? column).isSome) =
      LineRun.changes before ((Decoding.encode program).map Cell.line) := by
  induction program generalizing offset before with
  | nil => rfl
  | cons head rest ih =>
    obtain ⟨line, i⟩ := head
    have hcells : LineRun.changes before ((i.cells line ++ Decoding.encode rest).map Cell.line) =
        (if before = some line then 0 else 1) +
          LineRun.changes (some line) ((Decoding.encode rest).map Cell.line) := by
      cases i <;> simp [Instruction.cells, Instruction.bytes, Instruction.operand?, LineRun.changes]
    rw [Decoding.encode_cons, walk_cells_append, List.map_cons, List.countP_cons, ih, hcells,
      Entry.columnNumber?_columnWord, Nat.add_comm]
    by_cases hsame : before = some line <;> simp [hsame]

end Listing

namespace Assembly

open Listing (columns columnNumber? readColumns)

/-- The chunk of commands is listed as their instructions laid out. -/
theorem listing_chunkOf (commands : List Command) :
    (chunkOf commands).listing =
      Listing.walk (chunkOf commands).pool 0 none 0 (Decoding.encode (program 0 commands)) := by
  rw [Chunk.listing, cells_chunkOf]

/-- The instructions of the chunk of commands have the lines of the commands. -/
theorem lines_instructions_chunkOf (commands : List Command) :
    (chunkOf commands).instructions.map Placed.line = commands.map Command.line := by
  have hprogram := congrArg (List.map Prod.fst) (map_opcode_program 0 commands)
  rw [← map_instructions_chunkOf, List.map_map, List.map_map, List.map_map] at hprogram
  exact hprogram

/-- The listing of an assembled source shows its lines. Every statement is one entry, and the line
columns, read from the top down with a bar for the last number above it, are the lines that the
statements record, which are those of the instructions in the code. The first entry shows a number,
and as many entries show one as there are runs of lines. -/
theorem listing_tells_source_lines {source : String} {c : Chunk} (h : assemble source = .ok c)
    (name : String) :
    ∃ text, c.fullListing name = "== " ++ name ++ " ==\n" ++ text ∧
      c.decode = c.instructions.map .ok ∧
      c.instructions.map Placed.line = (commands source).map Command.line ∧
      readColumns none (columns text) = c.instructions.map (fun p => some p.line) ∧
      (∀ column ∈ (columns text).head?, (columnNumber? column).isSome) ∧
      (columns text).countP (fun column => (columnNumber? column).isSome) = c.lineRuns.length := by
  obtain ⟨forms, hforms, -, rfl⟩ := assemble_eq_ok_iff.mp h
  rw [commands_of_sourceForm hforms]
  generalize forms.reduceOption = commands
  have hdecode := Chunk.decode_of_encode (cells_chunkOf commands)
  rw [← Chunk.instructions_of_decode hdecode] at hdecode
  refine ⟨_, Chunk.fullListing_eq _ name, hdecode, lines_instructions_chunkOf commands, ?_⟩
  rw [Listing.columns_linesOf, listing_chunkOf]
  refine ⟨?_, ?_, ?_⟩
  · rw [Listing.readColumns_walk_encode, ← map_instructions_chunkOf, List.map_map]
    rfl
  · cases program 0 commands with
    | nil => simp [Listing.walk]
    | cons head rest =>
      obtain ⟨line, i⟩ := head
      rw [Decoding.encode_cons, Listing.walk_cells_append, List.map_cons]
      intro column hcolumn
      obtain rfl := Option.some.inj hcolumn
      rw [Listing.Entry.columnNumber?_columnWord]
      rfl
  · rw [Listing.countP_walk_encode, Chunk.lineRuns, LineRun.length_ofLines, Chunk.lines,
      cells_chunkOf]

/-- Two statements record the line of an override, and a third one its own. -/
theorem listing_tells_source_lines_override :
    ∃ c text, assemble "@7 CONSTANT 1.5\n@7 NEGATE ; seven\nRETURN" = .ok c ∧
      c.fullListing "t" = "== " ++ "t" ++ " ==\n" ++ text ∧
      readColumns none (columns text) = [some 7, some 7, some 3] ∧
      (columns text).countP (fun column => (columnNumber? column).isSome) = 2 := by
  obtain ⟨c, hc⟩ : ∃ c, assemble "@7 CONSTANT 1.5\n@7 NEGATE ; seven\nRETURN" = .ok c := ⟨_, rfl⟩
  obtain ⟨text, htext, -, hlines, hread, -, hcount⟩ := listing_tells_source_lines hc "t"
  have hcommands : (commands "@7 CONSTANT 1.5\n@7 NEGATE ; seven\nRETURN").map Command.line = [7, 7, 3] := rfl
  have hsome := congrArg (List.map some) (hlines.trans hcommands)
  rw [List.map_map] at hsome
  have hruns : c.lineRuns.length = 2 := by
    obtain rfl := Except.ok.inj hc
    rfl
  exact ⟨c, text, hc, htext, hread.trans hsome, hcount.trans hruns⟩

/-- An operand with a line of its own hides the line of the instruction behind it. -/
example :
    let c := ((Chunk.empty.writeOpcode .constant 1).write 0 2).writeOpcode .ret 2
    c.instructions.map Placed.line = [1, 2] ∧
      readColumns none (columns (Chunk.linesOf Listing.Entry.full c.listing)) = [some 1, some 1] := by
  decide

end Assembly

end StackBytecode
