import StackBytecode.Proofs.Assembly.Refinement
import StackBytecode.Proofs.Assembly.Spelling
import StackBytecode.Proofs.Chunk.GrowthLog

/-!
# The log of assembling

The statements of a source fill a chunk: a constant first grows the pool, then its opcode and its
operand grow the code. The log has these growths where they happen, and a last record with the size
of what was assembled, which a source with a fault does not reach.

The policy doubles a capacity only in the lower half of what a word can hold. A statement is spelled
with no fewer characters than it makes appends, so no source that words can index gets past that.
-/

namespace StackBytecode.Assembly

/-! ## The size of a source -/

/-- The words of a line are among its characters, in order. -/
theorem Spells.sublist {line : List Char} {words : List (List Char)} (h : Spells line words) :
    words.flatten.Sublist line := by
  induction h with
  | done => exact List.Sublist.slnil
  | comment text => exact List.nil_sublist _
  | blank hc h ih => exact ih.cons _
  | word hne hword hclosed h ih => exact (List.Sublist.refl _).append ih

/-- The words of a source are among its characters, in order. -/
theorem SourceSpells.sublist {text : List Char} {rows : List (List (List Char))}
    (h : SourceSpells text rows) : rows.flatten.flatten.Sublist text := by
  induction h with
  | done => exact List.Sublist.slnil
  | last hne hline hwords =>
    rw [List.flatten_singleton]
    exact hwords.sublist
  | @line line ending text words rows hline hwords hending h ih =>
    rw [List.flatten_cons, List.flatten_append]
    exact (hwords.sublist.trans (List.sublist_append_left line ending)).append ih

/-- No name is shorter than three letters. -/
theorem Names.three_le_length {word : List Char} {op : Opcode} (h : Names word op) :
    3 ≤ word.length := by
  obtain ⟨mark, bare, rfl, -, hbare⟩ := h
  have hlength := congrArg List.length hbare
  rw [List.length_map, List.length_map] at hlength
  have hname : 3 ≤ op.name.toList.length := by
    rcases op with _ | _ | f | _
    case arith => cases f <;> decide
    all_goals decide
  rw [List.length_append]
  omega

/-- A statement makes at most three appends. -/
theorem length_statementEdits_le (used : Nat) (line : UInt32) (s : Statement) :
    (statementEdits used line s).length ≤ 3 := by
  cases s <;> simp [statementEdits, Instruction.edits, Instruction.bytes, Instruction.operand?]

/-- A statement makes no more appends than its words have characters. -/
theorem Writes.length_statementEdits_le {words : List (List Char)} {s : Statement} (h : Writes words s)
    (used : Nat) (line : UInt32) : (statementEdits used line s).length ≤ words.flatten.length := by
  obtain ⟨name, rest, rfl, hname⟩ := h.exists_name
  rw [List.flatten_cons, List.length_append]
  exact (Assembly.length_statementEdits_le used line s).trans
    (hname.three_le_length.trans (Nat.le_add_right _ _))

/-- The command on a line makes no more appends than the words of the line have characters. -/
theorem WordsForm.length_statementEdits_le {number : Nat} {words : List (List Char)} {c : Command}
    (h : WordsForm number words (some c)) (used : Nat) :
    (statementEdits used c.line c.statement).length ≤ words.flatten.length := by
  cases h with
  | statement hs => exact hs.length_statementEdits_le used _
  | overridden hn hs =>
    rw [List.flatten_cons, List.length_append]
    exact (hs.length_statementEdits_le used _).trans (Nat.le_add_left _ _)

/-- The commands of rows make no more appends than the rows have characters. -/
theorem RowsForm.length_commandsEdits_le {number : Nat} {rows : List (List (List Char))}
    {forms : List (Option Command)} (h : RowsForm number rows forms) (used : Nat) :
    (commandsEdits used forms.reduceOption).length ≤ rows.flatten.flatten.length := by
  induction rows generalizing number forms used with
  | nil =>
    obtain rfl : forms = [] := by simpa [RowsForm] using h
    exact Nat.le_refl 0
  | cons words rest ih =>
    rw [RowsForm, List.zipIdx_cons, List.forall₂_cons_left_iff] at h
    obtain ⟨form, forms, hwords, hrest, rfl⟩ := h
    rw [List.flatten_cons, List.flatten_append, List.length_append]
    cases form with
    | none =>
      rw [List.reduceOption_cons_of_none]
      exact (ih hrest used).trans (Nat.le_add_left _ _)
    | some c =>
      rw [List.reduceOption_cons_of_some, commandsEdits, List.length_append]
      exact Nat.add_le_add (hwords.length_statementEdits_le used) (ih hrest _)

/-- The commands of a source make no more appends than the source has characters. -/
theorem SourceForm.length_commandsEdits_le {source : String} {forms : List (Option Command)}
    (h : SourceForm source forms) :
    (commandsEdits 0 forms.reduceOption).length ≤ source.length := by
  have hrows : RowsForm 1 (sourceRows source) forms := linesForm_iff_rowsForm.mp h
  have hsublist := (sourceSpells_iff.mpr rfl : SourceSpells source.toList (sourceRows source)).sublist
  rw [← String.length_toList]
  exact (hrows.length_commandsEdits_le 0).trans hsublist.length_le

/-! ## The log -/

/-- Commands clear nothing. -/
theorem ne_clear_of_mem_commandsEdits {used : Nat} {commands : List Command} :
    ∀ edit ∈ commandsEdits used commands, edit ≠ .clear := by
  induction commands generalizing used with
  | nil => simp [commandsEdits]
  | cons c rest ih =>
    intro edit hedit
    rw [commandsEdits, statementEdits_eq] at hedit
    rcases List.mem_append.mp hedit with hedit | hedit
    · simp only [Instruction.edits, List.mem_append, List.mem_map] at hedit
      rcases hedit with ⟨v, -, rfl⟩ | ⟨byte, -, rfl⟩ <;> exact Edit.noConfusion
    · exact ih edit hedit

/-- The log of an accepted source is that of the appends of its commands, between a record of the
beginning and one of the size of its chunk. -/
theorem assemblyRecords_of_sourceForm {source : String} {forms : List (Option Command)}
    (h : SourceForm source forms) (hconstants : (writtenConstants forms.reduceOption).length ≤ maxConstants) :
    assemblyRecords source =
      .assembling :: Chunk.empty.recordsOfAll (commandsEdits 0 forms.reduceOption) ++
        [.assembled (chunkOf forms.reduceOption).size (chunkOf forms.reduceOption).poolSize] := by
  rw [assemblyRecords, assemble_eq_ok_iff.mpr ⟨forms, h, hconstants, rfl⟩, sourceEffect,
    linesEffect_of_linesForm h (by omega)]

/-- Growth is logged exactly and costs a constant for each append. An accepted source logs, after the
beginning, the growths that its statements bring by their appends, each with the append that brings
it, and at the end the numbers of bytes and constants of its chunk. The growths of the code are its
first storage and the doublings of it up to its capacity, and so are those of the pool; the
capacities before the growths add up to less than twice the size, and their number stays two below
the logarithm of the capacity. A source with a fault does not log that it was assembled. The bound
holds of every text in memory, whose bytes are no more than half of what a word can count. -/
theorem growth_logged_exactly {source : String} (hsource : source.length < 2 ^ 63) :
    (∀ c, assemble source = .ok c →
      ∃ log, assemblyRecords source = .assembling :: log ++ [.assembled c.size c.poolSize] ∧
        Chunk.Fills .empty (commandsEdits 0 (commands source)) log c ∧
        (∀ record ∈ log, record.chunkGrowth?.isSome ∨ record.poolGrowth?.isSome) ∧
        Growth.IsAmortized c.size c.cells.capacity (log.filterMap Log.Record.chunkGrowth?) ∧
        Growth.IsAmortized c.poolSize c.pool.capacity (log.filterMap Log.Record.poolGrowth?)) ∧
    ∀ fault, assemble source = .error fault →
      ∀ bytes constants, .assembled bytes constants ∉ assemblyRecords source := by
  constructor
  · intro c hc
    obtain ⟨forms, hforms, hconstants, rfl⟩ := assemble_eq_ok_iff.mp hc
    have hsize := Nat.lt_of_le_of_lt hforms.length_commandsEdits_le hsource
    have hempty : 0 + (commandsEdits 0 forms.reduceOption).length < 2 ^ 63 := by omega
    have hfills : Chunk.Fills .empty (commandsEdits 0 forms.reduceOption) _ (chunkOf forms.reduceOption) :=
      Chunk.fills_recordsOfAll ne_clear_of_mem_commandsEdits (Nat.le_refl 0) (Nat.le_refl 0) hempty hempty
    rw [commands_of_sourceForm hforms]
    exact ⟨_, assemblyRecords_of_sourceForm hforms hconstants, hfills, hfills.isGrowth,
      (hfills.grown_cells .empty hempty).isAmortized, (hfills.grown_pool .empty hempty).isAmortized⟩
  · intro fault hfault bytes constants
    rw [assemblyRecords, hfault, List.append_nil]
    exact List.not_mem_cons_of_ne_of_not_mem (by simp) (Chunk.assembled_notMem_recordsOfAll _ _ _ _)

/-- The ninth byte doubles the code; a word too many at the end leaves the growths and nothing else. -/
theorem growth_logged_exactly_nine_bytes :
    (∃ c log, assemble "CONSTANT 1\nCONSTANT 2\nADD\nCONSTANT 3\nADD\nRETURN" = .ok c ∧
      assemblyRecords "CONSTANT 1\nCONSTANT 2\nADD\nCONSTANT 3\nADD\nRETURN" =
        .assembling :: log ++ [.assembled 9 3] ∧
      log.filterMap Log.Record.chunkGrowth? = [(0, 8), (8, 16)] ∧
      log.filterMap Log.Record.poolGrowth? = [(0, 8)]) ∧
    .assembled 2 1 ∉ assemblyRecords "CONSTANT 1 1" := by
  constructor
  · obtain ⟨c, hc⟩ : ∃ c,
        assemble "CONSTANT 1\nCONSTANT 2\nADD\nCONSTANT 3\nADD\nRETURN" = .ok c := ⟨_, rfl⟩
    obtain ⟨log, hlog, -, -, hcells, hpool⟩ := (growth_logged_exactly (by decide)).1 c hc
    obtain rfl := Except.ok.inj hc
    obtain ⟨count, hcapacity, hcells⟩ := hcells.of_pos (by decide)
    obtain ⟨poolCount, hpoolCapacity, hpool⟩ := hpool.of_pos (by decide)
    have hcount : 2 ^ count = 2 ^ 1 := by
      change 16 = 8 * 2 ^ count at hcapacity
      omega
    have hpoolCount : 2 ^ poolCount = 2 ^ 0 := by
      change 8 = 8 * 2 ^ poolCount at hpoolCapacity
      omega
    rw [Nat.pow_right_injective (Nat.le_refl 2) hcount] at hcells
    rw [Nat.pow_right_injective (Nat.le_refl 2) hpoolCount] at hpool
    exact ⟨_, log, rfl, hlog, hcells, hpool⟩
  · exact (growth_logged_exactly (by decide)).2 ⟨1, .trailingInput .constant "1"⟩ rfl 2 1

end StackBytecode.Assembly
