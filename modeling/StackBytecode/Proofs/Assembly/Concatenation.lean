import StackBytecode.Proofs.Assembly.FirstFault
import StackBytecode.Proofs.Assembly.Spelling
import StackBytecode.Proofs.Decoding.Tiling

/-!
# Sources one behind the other

Two sources with a line feed between them assemble to the program of the first with the program
of the second behind it. The second one is moved: its constants come behind those of the first,
and its lines have greater numbers, which only bytes of statements without an override record.

A line feed ends the last line of the first source, so its rows stay as they are, but for one
without words when the source is empty or ends in a line feed itself.
-/

namespace StackBytecode

namespace Text

/-- A text is cut at a character in its middle as both sides of it are. -/
theorem splitWhen_append_cons {stop : Char → Bool} {c : Char} (hc : stop c = true)
    (before after : List Char) :
    splitWhen stop (before ++ c :: after) = splitWhen stop before ++ splitWhen stop after := by
  induction before with
  | nil => simp [hc]
  | cons d rest ih =>
    rw [List.cons_append, splitWhen_cons, splitWhen_cons, ih]
    split
    case isTrue => rfl
    case isFalse =>
      obtain ⟨piece, pieces, hpieces⟩ := List.exists_cons_of_ne_nil (splitWhen_ne_nil stop rest)
      rw [hpieces]
      rfl

/-- There is one piece more than there are characters that are cut at. -/
theorem length_splitWhen (stop : Char → Bool) (text : List Char) :
    (splitWhen stop text).length = text.countP stop + 1 := by
  induction text with
  | nil => rfl
  | cons c rest ih =>
    rw [splitWhen_cons]
    split
    case isTrue hc => rw [List.length_cons, ih, List.countP_cons_of_pos hc]
    case isFalse hc =>
      obtain ⟨piece, pieces, hpieces⟩ := List.exists_cons_of_ne_nil (splitWhen_ne_nil stop rest)
      rw [List.countP_cons_of_neg hc, ← ih, hpieces]
      rfl

/-- Pieces in front of others were all ended. -/
theorem endedLines_append (pieces : List (List Char)) {others : List (List Char)} (h : others ≠ []) :
    endedLines (pieces ++ others) = pieces.map dropReturn ++ endedLines others := by
  induction pieces with
  | nil => rfl
  | cons piece rest ih =>
    have hne : rest ++ others ≠ [] := List.append_ne_nil_of_right_ne_nil rest h
    rw [List.cons_append, endedLines.eq_def]
    split
    case h_1 heq => cases heq
    case h_2 heq => exact absurd (List.cons.inj heq).2 hne
    case h_3 heq =>
      obtain ⟨rfl, rfl⟩ := List.cons.inj heq
      rw [ih]
      rfl

/-- A line feed ends all lines of the text before it. -/
theorem lines_append_cons_newline (text after : List Char) :
    lines (text ++ '\n' :: after) = (splitWhen (· == '\n') text).map dropReturn ++ lines after := by
  rw [lines, splitWhen_append_cons (by rfl), endedLines_append _ (splitWhen_ne_nil _ _), lines]

/-- A text that is ended by a line feed has as many lines as line feeds. -/
theorem length_lines_append_newline (text : List Char) :
    (lines (text ++ ['\n'])).length = text.count '\n' + 1 := by
  have hnil : lines [] = [] := rfl
  rw [lines_append_cons_newline, hnil, List.append_nil, List.length_map, length_splitWhen, List.count]

end Text

namespace Assembly

open Decoding (encode encode_cons)

/-! ## Rows of two sources -/

/-- A line feed between two sources ends the lines of the first one. -/
theorem lines_append_newline_append (a b : String) :
    Text.lines (a ++ "\n" ++ b).toList = Text.lines (a ++ "\n").toList ++ Text.lines b.toList := by
  have hboth : (a ++ "\n" ++ b).toList = a.toList ++ '\n' :: b.toList := by simp
  have hfirst : (a ++ "\n").toList = a.toList ++ ['\n'] := by simp
  have hnil : Text.lines [] = [] := rfl
  rw [hboth, hfirst, Text.lines_append_cons_newline, Text.lines_append_cons_newline, hnil, List.append_nil]

/-- A source that is ended by a line feed has as many lines as line feeds. -/
theorem length_lines_append_newline (a : String) :
    (Text.lines (a ++ "\n").toList).length = a.toList.count '\n' + 1 := by
  rw [String.toList_append]
  exact Text.length_lines_append_newline a.toList

/-- A line feed behind a source adds at most rows without words. -/
theorem sourceRows_append_newline (a : String) :
    ∃ count, sourceRows (a ++ "\n") = sourceRows a ++ List.replicate count [] := by
  have htext : (a ++ "\n").toList = a.toList ++ ['\n'] := by simp
  have hnil : Text.lines [] = [] := rfl
  rw [sourceRows, sourceRows, htext, Text.lines_append_cons_newline, hnil, List.append_nil, Text.lines]
  induction Text.splitWhen (· == '\n') a.toList with
  | nil => exact ⟨0, rfl⟩
  | cons piece rest ih =>
    cases rest with
    | nil =>
      cases piece with
      | nil => exact ⟨1, rfl⟩
      | cons c piece =>
        refine ⟨0, ?_⟩
        rw [List.map_singleton, List.map_singleton, lineWords_dropReturn]
        rfl
    | cons next others =>
      obtain ⟨count, hcount⟩ := ih
      have hended : Text.endedLines (piece :: next :: others) =
          Text.dropReturn piece :: Text.endedLines (next :: others) := rfl
      refine ⟨count, ?_⟩
      rw [List.map_cons, List.map_cons, hcount, hended, List.map_cons, List.cons_append]

/-- Rows without words hold nothing. -/
theorem rowsForm_replicate (number count : Nat) :
    RowsForm number (List.replicate count []) (List.replicate count none) := by
  induction count generalizing number with
  | zero => exact .nil
  | succ count ih => exact .cons .nothing (ih (number + 1))

/-- Rows behind others go on with their numbers. -/
theorem RowsForm.append {number : Nat} {rows others : List (List (List Char))}
    {forms more : List (Option Command)} (h : RowsForm number rows forms)
    (hothers : RowsForm (number + rows.length) others more) :
    RowsForm number (rows ++ others) (forms ++ more) := by
  rw [RowsForm, List.zipIdx_append]
  exact List.rel_append h hothers

/-- A line feed behind a source changes no command. -/
theorem sourceForm_append_newline {a : String} {forms : List (Option Command)} (h : SourceForm a forms) :
    ∃ all, SourceForm (a ++ "\n") all ∧ all.reduceOption = forms.reduceOption := by
  obtain ⟨count, hrows⟩ := sourceRows_append_newline a
  refine ⟨forms ++ List.replicate count none, ?_, ?_⟩
  · rw [SourceForm, linesForm_iff_rowsForm]
    change RowsForm 1 (sourceRows (a ++ "\n")) _
    rw [hrows]
    exact (linesForm_iff_rowsForm.mp h).append (rowsForm_replicate _ count)
  · rw [List.reduceOption_append, List.reduceOption_replicate_none, List.append_nil]

/-! ## Statements with greater line numbers -/

/-- Whether the first of the words is an override. -/
def isOverridden : List (List Char) → Bool
  | ('@' :: _) :: _ => true
  | _ => false

/-- The statements of rows with the given forms, as commands, and whether each has an override. -/
def statements (rows : List (List (List Char))) (forms : List (Option Command)) : List (Bool × Command) :=
  (rows.zip forms).filterMap fun (words, form) => form.map fun c => (isOverridden words, c)

/-- For each row with a statement, in order, whether it has an override. -/
def overrides (rows : List (List (List Char))) : List Bool :=
  (rows.filter fun words => !(statementWords words).isEmpty).map isOverridden

/-- The command of a statement on a line with a greater number: unless there is an override, that is the
line which it records. -/
def movedCommand (shift : Nat) : Bool × Command → Command
  | (true, c) => c
  | (false, c) => { c with line := UInt32.ofNat (c.line.toNat + shift) }

/-- The forms of rows with greater numbers. -/
def movedForms (shift : Nat) (rows : List (List (List Char))) (forms : List (Option Command)) :
    List (Option Command) :=
  List.zipWith (fun words form => form.map fun c => movedCommand shift (isOverridden words, c)) rows forms

/-- The number of a line is recorded as it is, if there are bits enough for it. -/
theorem recordedLine_of_lt {number : Nat} (h : number < 2 ^ 32) :
    recordedLine number = UInt32.ofNat number ∧ (recordedLine number).toNat = number := by
  have hmin : min number (UInt32.size - 1) = number := Nat.min_eq_left (Nat.le_sub_one_of_lt h)
  rw [recordedLine, hmin, UInt32.toNat_ofNat_of_lt' h]
  exact ⟨rfl, rfl⟩

/-- A statement does not begin with an override. -/
theorem Writes.isOverridden_eq_false {words : List (List Char)} {s : Statement} (h : Writes words s) :
    isOverridden words = false := by
  obtain ⟨name, rest, rfl, hname⟩ := h.exists_name
  rw [isOverridden.eq_def]
  split
  case h_1 digits more heq => exact absurd (List.cons.inj heq).1 (ne_override_of_names hname)
  case h_2 => rfl

/-- A statement without an override is all of its row. -/
theorem Writes.statementWords_eq {words : List (List Char)} {s : Statement} (h : Writes words s) :
    statementWords words = words := by
  obtain ⟨name, rest, rfl, hname⟩ := h.exists_name
  rw [statementWords.eq_def]
  split
  case h_1 digits more heq => exact absurd (List.cons.inj heq).1 (ne_override_of_names hname)
  case h_2 => rfl

/-- A row with a greater number has the form with the command moved. -/
theorem WordsForm.moved {number : Nat} {words : List (List Char)} {form : Option Command}
    (h : WordsForm number words form) (shift : Nat) (hnumber : number + shift < 2 ^ 32) :
    WordsForm (number + shift) words (form.map fun c => movedCommand shift (isOverridden words, c)) := by
  cases h with
  | nothing => exact .nothing
  | override hn => exact .override hn
  | @statement words s hs =>
    have hform : WordsForm (number + shift) words (some ⟨recordedLine (number + shift), s, none⟩) :=
      .statement hs
    rw [Option.map_some, hs.isOverridden_eq_false, movedCommand,
      (recordedLine_of_lt (Nat.lt_of_le_of_lt (Nat.le_add_right _ _) hnumber)).2]
    rwa [(recordedLine_of_lt hnumber).1] at hform
  | overridden hn hs => exact .overridden hn hs

/-- Rows with greater numbers have the moved forms. -/
theorem RowsForm.moved {number : Nat} {rows : List (List (List Char))} {forms : List (Option Command)}
    (h : RowsForm number rows forms) (shift : Nat) (hnumber : number + rows.length + shift ≤ 2 ^ 32) :
    RowsForm (number + shift) rows (movedForms shift rows forms) := by
  induction rows generalizing number forms with
  | nil => exact .nil
  | cons words rest ih =>
    obtain ⟨form, forms, hform, hforms, rfl⟩ := List.forall₂_cons_left_iff.mp h
    rw [List.length_cons] at hnumber
    have hrest := ih hforms (by omega)
    rw [Nat.add_right_comm] at hrest
    exact .cons (hform.moved shift (by omega)) hrest

section Statements

variable {number : Nat} {rows : List (List (List Char))} {forms : List (Option Command)}

/-- The statements of rows are their commands. -/
theorem map_snd_statements (h : RowsForm number rows forms) :
    (statements rows forms).map Prod.snd = forms.reduceOption := by
  induction rows generalizing number forms with
  | nil =>
    obtain rfl := List.forall₂_nil_left_iff.mp h
    rfl
  | cons words rest ih =>
    obtain ⟨form, forms, hform, hforms, rfl⟩ := List.forall₂_cons_left_iff.mp h
    cases form with
    | none => exact ih hforms
    | some c => exact congrArg (c :: ·) (ih hforms)

/-- The statements of rows with greater numbers are the moved ones. -/
theorem reduceOption_movedForms (shift : Nat) (h : RowsForm number rows forms) :
    (movedForms shift rows forms).reduceOption = (statements rows forms).map (movedCommand shift) := by
  induction rows generalizing number forms with
  | nil => rfl
  | cons words rest ih =>
    obtain ⟨form, forms, hform, hforms, rfl⟩ := List.forall₂_cons_left_iff.mp h
    cases form with
    | none => exact ih hforms
    | some c => exact congrArg (_ :: ·) (ih hforms)

/-- The rows with a statement are those whose form holds a command. -/
theorem map_fst_statements (h : RowsForm number rows forms) :
    (statements rows forms).map Prod.fst = overrides rows := by
  induction rows generalizing number forms with
  | nil => rfl
  | cons words rest ih =>
    obtain ⟨form, forms, hform, hforms, rfl⟩ := List.forall₂_cons_left_iff.mp h
    have hrest := ih hforms
    cases hform with
    | nothing => exact hrest
    | override hn => exact hrest
    | statement hs =>
      obtain ⟨name, more, hname, -⟩ := hs.exists_name
      have hwords : (!(statementWords words).isEmpty) = true := by
        rw [hs.statementWords_eq, hname]
        rfl
      rw [overrides, List.filter_cons, if_pos hwords]
      exact congrArg (_ :: ·) hrest
    | @overridden digits n words s hn hs =>
      obtain ⟨name, more, rfl, -⟩ := hs.exists_name
      exact congrArg (_ :: ·) hrest

/-- A statement without an override records the number of a row. -/
theorem line_lt_of_mem_statements (h : RowsForm number rows forms) (hnumber : number + rows.length ≤ 2 ^ 32)
    {c : Command} (hc : (false, c) ∈ statements rows forms) : c.line.toNat < number + rows.length := by
  induction rows generalizing number forms with
  | nil => simp [statements] at hc
  | cons words rest ih =>
    obtain ⟨form, forms, hform, hforms, rfl⟩ := List.forall₂_cons_left_iff.mp h
    rw [List.length_cons] at hnumber ⊢
    have hrest (hc : (false, c) ∈ statements rest forms) : c.line.toNat < number + (rest.length + 1) := by
      have := ih hforms (by omega) hc
      omega
    cases hform with
    | nothing => exact hrest hc
    | override hn => exact hrest hc
    | statement hs =>
      rcases List.mem_cons.mp hc with heq | hc
      · rw [(Prod.mk.inj heq).2, (recordedLine_of_lt (by dsimp only; omega)).2]
        dsimp only
        omega
      · exact hrest hc
    | overridden hn hs =>
      rcases List.mem_cons.mp hc with heq | hc
      · cases (Prod.mk.inj heq).1
      · exact hrest hc

end Statements

/-! ## Programs behind others -/

/-- The bytes of an instruction as numbers, the operand being increased. -/
def movedBytes (shift : Nat) (i : Instruction) : List Nat :=
  i.opcode.toByte.toNat :: i.operand?.toList.map (·.toNat + shift)

/-- The lines that the bytes of an instruction record, as numbers, increased unless there is an override. -/
def movedLines (shift : Nat) (overridden : Bool) (line : UInt32) (i : Instruction) : List Nat :=
  List.replicate i.size (if overridden then line.toNat else line.toNat + shift)

/-- Moving a command changes its line only. -/
theorem statement_movedCommand (shift : Nat) (entry : Bool × Command) :
    (movedCommand shift entry).statement = entry.2.statement := by
  obtain ⟨_ | _, c⟩ := entry <;> rfl

/-- Moved commands write the same constants. -/
theorem writtenConstants_map_movedCommand (shift : Nat) (entries : List (Bool × Command)) :
    writtenConstants (entries.map (movedCommand shift)) = writtenConstants (entries.map Prod.snd) := by
  rw [writtenConstants, writtenConstants, List.filterMap_map, List.filterMap_map]
  exact List.filterMap_congr fun entry _ => congrArg constant? (statement_movedCommand shift entry)

/-- Commands write the constants of the first and of the second ones. -/
theorem writtenConstants_append (first second : List Command) :
    writtenConstants (first ++ second) = writtenConstants first ++ writtenConstants second :=
  List.filterMap_append ..

/-- The program of commands goes on with the constants counted before. -/
theorem program_append (used : Nat) (first second : List Command) :
    program used (first ++ second) =
      program used first ++ program (used + (writtenConstants first).length) second := by
  induction first generalizing used with
  | nil => rfl
  | cons c rest ih =>
    rw [List.cons_append, program, ih, program, length_writtenConstants_cons, Nat.add_assoc,
      List.cons_append]

/-- The bytes of a program behind other constants have greater operands. -/
theorem bytes_program (used before shift : Nat) {entries : List (Bool × Command)}
    (h : used + before + (writtenConstants (entries.map Prod.snd)).length ≤ maxConstants) :
    (encode (program (used + before) (entries.map (movedCommand shift)))).map (fun cell => cell.byte.toNat) =
      (program used (entries.map Prod.snd)).flatMap fun entry => movedBytes before entry.2 := by
  induction entries generalizing used with
  | nil => rfl
  | cons entry rest ih =>
    rw [List.map_cons, length_writtenConstants_cons] at h
    have hrest := ih (used + statementConstants entry.2.statement) (by omega)
    have hfirst (line : UInt32) :
        ((instructionOf (used + before) entry.2.statement).cells line).map (fun cell => cell.byte.toNat) =
          movedBytes before (instructionOf used entry.2.statement) := by
      cases hs : entry.2.statement with
      | constant v =>
        rw [hs, statementConstants, maxConstants] at h
        have hmoved : (UInt8.ofNat (used + before)).toNat = used + before :=
          UInt8.toNat_ofNat_of_lt' (Nat.lt_of_lt_of_le (by omega) h)
        have hused : (UInt8.ofNat used).toNat = used :=
          UInt8.toNat_ofNat_of_lt' (Nat.lt_of_lt_of_le (by omega) h)
        change [Opcode.constant.toByte.toNat, (UInt8.ofNat (used + before)).toNat] =
          [Opcode.constant.toByte.toNat, (UInt8.ofNat used).toNat + before]
        rw [hmoved, hused]
      | ret => rfl
      | arith f => rfl
      | negate => rfl
    rw [List.map_cons, List.map_cons, program, program, encode_cons, List.map_append, List.flatMap_cons,
      statement_movedCommand, hfirst, ← hrest, Nat.add_right_comm]

/-- The lines of a moved program are greater where there is no override. -/
theorem lines_program (used other : Nat) {shift : Nat} {entries : List (Bool × Command)}
    (h : ∀ c, (false, c) ∈ entries → c.line.toNat + shift < 2 ^ 32) :
    (encode (program used (entries.map (movedCommand shift)))).map (fun cell => cell.line.toNat) =
      (List.zipWith (fun overridden entry => movedLines shift overridden entry.1 entry.2)
        (entries.map Prod.fst) (program other (entries.map Prod.snd))).flatten := by
  induction entries generalizing used other with
  | nil => rfl
  | cons entry rest ih =>
    obtain ⟨overridden, c⟩ := entry
    have hrest := ih (used + statementConstants c.statement)
      (other + statementConstants c.statement) fun d hd => h d (List.mem_cons_of_mem _ hd)
    have hfirst (line : UInt32) :
        ((instructionOf used c.statement).cells line).map (fun cell => cell.line.toNat) =
          List.replicate (instructionOf other c.statement).size line.toNat := by
      cases c.statement <;> rfl
    have hline : (movedCommand shift (overridden, c)).line.toNat =
        if overridden then c.line.toNat else c.line.toNat + shift := by
      cases overridden with
      | true => rfl
      | false => exact UInt32.toNat_ofNat_of_lt' (h c (List.mem_cons_self ..))
    rw [List.map_cons, List.map_cons, List.map_cons, program, program, encode_cons, List.map_append,
      List.zipWith_cons_cons, List.flatten_cons, statement_movedCommand, hfirst, hrest, hline, movedLines]

/-! ## A constant too many -/

/-- The line of a source with a number holds the constant of the source with a number, both numbers being
counted from one. -/
def IsConstantLine (source : String) (constant number : Nat) : Prop :=
  ∃ before c v after, SourceForm source (before ++ some c :: after) ∧ c.statement = .constant v ∧
    constant = (writtenConstants before.reduceOption).length + 1 ∧ number = before.length + 1

/-- Each constant of forms has a place in them. -/
theorem exists_constant_of_lt {forms : List (Option Command)} (k : Nat)
    (h : k < (writtenConstants forms.reduceOption).length) :
    ∃ before c v after, forms = before ++ some c :: after ∧ c.statement = .constant v ∧
      (writtenConstants before.reduceOption).length = k := by
  induction forms generalizing k with
  | nil => cases h
  | cons form rest ih =>
    cases form with
    | none =>
      obtain ⟨before, c, v, after, rfl, hc, hk⟩ := ih k h
      exact ⟨none :: before, c, v, after, rfl, hc, hk⟩
    | some c =>
      rw [List.reduceOption_cons_of_some, length_writtenConstants_cons] at h
      by_cases hfirst : k < statementConstants c.statement
      · cases hs : c.statement with
        | constant v =>
          rw [hs, statementConstants] at hfirst
          exact ⟨[], c, v, rest, rfl, hs, (Nat.lt_one_iff.mp hfirst).symm⟩
        | ret => rw [hs] at hfirst; cases hfirst
        | arith f => rw [hs] at hfirst; cases hfirst
        | negate => rw [hs] at hfirst; cases hfirst
      · obtain ⟨before, d, v, after, rfl, hd, hk⟩ := ih (k - statementConstants c.statement) (by omega)
        refine ⟨some c :: before, d, v, after, rfl, hd, ?_⟩
        rw [List.reduceOption_cons_of_some, length_writtenConstants_cons, hk]
        omega

/-- A constant behind as many as an operand byte can count is a fault of its line, also when the lines have
greater numbers. -/
theorem fault_of_full {number : Nat} (shift used : Nat) {lines : List (List Char)}
    {before after : List (Option Command)} {c : Command} {v : Value}
    (h : LinesForm number lines (before ++ some c :: after)) (hc : c.statement = .constant v)
    (hnumber : number + lines.length + shift ≤ 2 ^ 32)
    (hfull : used + (writtenConstants before.reduceOption).length = maxConstants) :
    (linesEffect (number + shift) used lines).fault =
      some ⟨number + shift + before.length, .tooManyConstants⟩ := by
  induction before generalizing number used lines with
  | nil =>
    cases lines with
    | nil => cases h
    | cons line rest =>
      obtain ⟨hline, -⟩ := List.forall₂_cons.mp h
      rw [List.length_cons] at hnumber
      obtain ⟨hread, -⟩ := lineForm_iff.mp (lineForm_iff_wordsForm.mpr
        ((lineForm_iff_wordsForm.mp hline).moved shift (by dsimp only; omega)))
      have hmany : maxConstants < used + statementConstants c.statement := by
        rw [hc, ← hfull]
        exact Nat.lt_succ_self _
      rw [linesEffect, hread]
      simp only [Option.map_some, commandEffect, statement_movedCommand, if_pos hmany]
      rfl
  | cons form more ih =>
    cases lines with
    | nil => cases h
    | cons line rest =>
      obtain ⟨hline, hrest⟩ := List.forall₂_cons.mp h
      rw [List.length_cons] at hnumber
      have hmoved := lineForm_iff_wordsForm.mpr
        ((lineForm_iff_wordsForm.mp hline).moved shift (by dsimp only; omega))
      have hfirst : LinesForm (number + shift) [line]
          [form.map fun c => movedCommand shift (isOverridden (lineWords line), c)] := .cons hmoved .nil
      have hconstants : writtenConstants
          [form.map fun c => movedCommand shift (isOverridden (lineWords line), c)].reduceOption =
            writtenConstants [form].reduceOption := by
        cases form with
        | none => rfl
        | some d => exact writtenConstants_map_movedCommand shift [(isOverridden (lineWords line), d)]
      have hcount : writtenConstants (form :: more).reduceOption =
          writtenConstants [form].reduceOption ++ writtenConstants more.reduceOption := by
        rw [← List.singleton_append, List.reduceOption_append, writtenConstants_append]
      rw [hcount, List.length_append] at hfull
      have happend := linesEffect_append hfirst (show used + _ ≤ _ by rw [hconstants]; omega) rest
      have hfault := ih (used + (writtenConstants [form].reduceOption).length) hrest (by omega) (by omega)
      rw [Nat.add_right_comm] at hfault
      rw [List.singleton_append, List.length_singleton, hconstants] at happend
      rw [happend, hfault, List.length_cons, Nat.add_right_comm, Nat.add_assoc (number + shift)]

/-! ## Concatenation -/

/-- The code of moved commands behind others, as the instructions of the commands alone tell it. -/
theorem bytes_chunkOf {before : Nat} (shift : Nat) {entries : List (Bool × Command)}
    (h : before + (writtenConstants (entries.map Prod.snd)).length ≤ maxConstants) :
    (encode (program before (entries.map (movedCommand shift)))).map (fun cell => cell.byte.toNat) =
      (chunkOf (entries.map Prod.snd)).instructions.flatMap fun p => movedBytes before p.item := by
  have hbytes := bytes_program 0 before shift
    (show _ + (writtenConstants (entries.map Prod.snd)).length ≤ _ by omega)
  rw [Nat.zero_add, ← map_instructions_chunkOf, List.flatMap_map] at hbytes
  exact hbytes

/-- The lines of moved commands, as the instructions of the commands alone tell them. -/
theorem lines_chunkOf (before : Nat) {shift : Nat} {entries : List (Bool × Command)}
    (h : ∀ c, (false, c) ∈ entries → c.line.toNat + shift < 2 ^ 32) :
    (encode (program before (entries.map (movedCommand shift)))).map (fun cell => cell.line.toNat) =
      (List.zipWith (fun overridden p => movedLines shift overridden p.line p.item) (entries.map Prod.fst)
        (chunkOf (entries.map Prod.snd)).instructions).flatten := by
  have hlines := lines_program before 0 h
  rw [← map_instructions_chunkOf, List.zipWith_map_right] at hlines
  exact hlines

/-- Commands on lines with numbers that are greater by nothing stay as they are. -/
theorem map_movedCommand_zero (entries : List (Bool × Command)) :
    entries.map (movedCommand 0) = entries.map Prod.snd := by
  refine List.map_congr_left fun entry _ => ?_
  obtain ⟨_ | _, c⟩ := entry
  · rw [movedCommand, Nat.add_zero, UInt32.ofNat_toNat]
  · rfl

/-- The contents of the chunk of commands with moved ones behind them. -/
theorem contents_chunkOf_append (first : List Command) (shift : Nat) (entries : List (Bool × Command))
    (hfits : (writtenConstants first).length + (writtenConstants (entries.map Prod.snd)).length ≤ maxConstants)
    (hline : ∀ c, (false, c) ∈ entries → c.line.toNat + shift < 2 ^ 32) :
    let both := chunkOf (first ++ entries.map (movedCommand shift))
    both.code.map UInt8.toNat = (chunkOf first).code.map UInt8.toNat ++
        (chunkOf (entries.map Prod.snd)).instructions.flatMap
          (fun p => movedBytes (writtenConstants first).length p.item) ∧
      both.lines.map UInt32.toNat = (chunkOf first).lines.map UInt32.toNat ++
        (List.zipWith (fun overridden p => movedLines shift overridden p.line p.item)
          (entries.map Prod.fst) (chunkOf (entries.map Prod.snd)).instructions).flatten ∧
      both.constants = (chunkOf first).constants ++ (chunkOf (entries.map Prod.snd)).constants := by
  have hcells : (chunkOf (first ++ entries.map (movedCommand shift))).cells.toList =
      (chunkOf first).cells.toList ++
        encode (program (writtenConstants first).length (entries.map (movedCommand shift))) := by
    rw [cells_chunkOf, cells_chunkOf, program_append, Nat.zero_add]
    exact List.flatMap_append
  refine ⟨?_, ?_, ?_⟩
  · rw [← bytes_chunkOf shift hfits, Chunk.code, Chunk.code, hcells, List.map_append,
      List.map_append, List.map_map (l := encode _)]
    rfl
  · rw [← lines_chunkOf (writtenConstants first).length hline, Chunk.lines, Chunk.lines, hcells,
      List.map_append, List.map_append, List.map_map (l := encode _)]
    rfl
  · rw [Chunk.constants, Chunk.constants, Chunk.constants, pool_chunkOf, pool_chunkOf, pool_chunkOf,
      writtenConstants_append, writtenConstants_map_movedCommand]

/-- Two sources with a line feed between them assemble to the program of the first with the program of the
second behind it, if an operand byte can count the constants of both. Each operand of the second is greater
by the number of constants of the first, and each line that a byte records is greater by the number of lines
of the first, unless its statement has an override. If an operand byte cannot count the constants, the first
one that is too many is a fault of its line. -/
theorem assemble_append_newline {a b : String} {ca cb : Chunk} (ha : assemble a = .ok ca)
    (hb : assemble b = .ok cb)
    (hlines : a.toList.count '\n' + 1 + (Text.lines b.toList).length < 2 ^ 32) :
    (cb.code.map UInt8.toNat = cb.instructions.flatMap (fun p => movedBytes 0 p.item) ∧
      cb.lines.map UInt32.toNat =
        (List.zipWith (fun overridden p => movedLines 0 overridden p.line p.item)
          (overrides (sourceRows b)) cb.instructions).flatten) ∧
    (ca.poolSize + cb.poolSize ≤ 256 → ∃ c, assemble (a ++ "\n" ++ b) = .ok c ∧
      c.code.map UInt8.toNat = ca.code.map UInt8.toNat ++
        cb.instructions.flatMap (fun p => movedBytes ca.poolSize p.item) ∧
      c.lines.map UInt32.toNat = ca.lines.map UInt32.toNat ++
        (List.zipWith (fun overridden p => movedLines (a.toList.count '\n' + 1) overridden p.line p.item)
          (overrides (sourceRows b)) cb.instructions).flatten ∧
      c.constants = ca.constants ++ cb.constants) ∧
    (256 < ca.poolSize + cb.poolSize → ∃ number, IsConstantLine b (257 - ca.poolSize) number ∧
      assemble (a ++ "\n" ++ b) = .error ⟨a.toList.count '\n' + 1 + number, .tooManyConstants⟩) := by
  obtain ⟨formsA, hformsA, hconstantsA, rfl⟩ := assemble_eq_ok_iff.mp ha
  obtain ⟨formsB, hformsB, hconstantsB, rfl⟩ := assemble_eq_ok_iff.mp hb
  obtain ⟨all, hall, hsame⟩ := sourceForm_append_newline hformsA
  rw [poolSize_chunkOf, poolSize_chunkOf]
  rw [maxConstants] at hconstantsA hconstantsB
  have hrows : RowsForm 1 (sourceRows b) formsB := linesForm_iff_rowsForm.mp hformsB
  have hlength : (sourceRows b).length = (Text.lines b.toList).length := List.length_map _
  have hcommands := map_snd_statements hrows
  have hflags := map_fst_statements hrows
  refine ⟨?_, ?_, ?_⟩
  · have hown := contents_chunkOf_append [] 0 (statements (sourceRows b) formsB)
      (by rwa [hcommands, writtenConstants, List.filterMap_nil, List.length_nil, Nat.zero_add])
      (fun c _ => c.line.toNat_lt)
    rw [map_movedCommand_zero, List.nil_append, hcommands, hflags] at hown
    exact ⟨hown.1, hown.2.1⟩
  · intro hfits
    have hmoved := hrows.moved (a.toList.count '\n' + 1) (by omega)
    refine ⟨_, assemble_eq_ok_iff.mpr ⟨all ++ movedForms (a.toList.count '\n' + 1) (sourceRows b) formsB,
      ?_, ?_, rfl⟩, ?_⟩
    · rw [← length_lines_append_newline] at hmoved ⊢
      rw [SourceForm, lines_append_newline_append, LinesForm, List.zipIdx_append]
      exact List.rel_append hall (linesForm_iff_rowsForm.mpr hmoved)
    · rw [List.reduceOption_append, hsame, reduceOption_movedForms _ hrows, writtenConstants_append,
        writtenConstants_map_movedCommand, hcommands, List.length_append]
      exact hfits
    · have hline (c : Command) (hc : (false, c) ∈ statements (sourceRows b) formsB) :
          c.line.toNat + (a.toList.count '\n' + 1) < 2 ^ 32 := by
        have hlt := line_lt_of_mem_statements hrows (by omega) hc
        omega
      rw [List.reduceOption_append, hsame, reduceOption_movedForms _ hrows, ← hflags]
      have hcontents := contents_chunkOf_append formsA.reduceOption (a.toList.count '\n' + 1)
        (statements (sourceRows b) formsB) (by rwa [hcommands]) hline
      rwa [hcommands] at hcontents
  · intro hfull
    obtain ⟨before, c, v, after, hforms, hc, hcount⟩ :=
      exists_constant_of_lt (256 - (writtenConstants formsA.reduceOption).length)
        (show _ < (writtenConstants formsB.reduceOption).length by omega)
    refine ⟨before.length + 1, ⟨before, c, v, after, hforms ▸ hformsB, hc, by omega, rfl⟩, ?_⟩
    rw [hforms] at hformsB
    have hfault := fault_of_full (a.toList.count '\n' + 1)
      (writtenConstants formsA.reduceOption).length hformsB hc (by omega)
      (by rw [hcount, maxConstants]; omega)
    rw [assemble_eq_error_iff, sourceEffect, lines_append_newline_append, linesEffect_append hall
      (by rw [hsame, Nat.zero_add]; exact hconstantsA), length_lines_append_newline, hsame, Nat.zero_add, hfault]
    congr 2
    omega

/-- The second constant gets the operand one, the addition on the second line records the fifth one, and the
overrides stay as they are. -/
theorem assemble_append_newline_overrides :
    ∃ c, assemble ("CONSTANT 1\n\n@5 NEGATE\r" ++ "\n" ++ "@7 constant 2\nADD") = .ok c ∧
      c.code.map UInt8.toNat = [0, 0, 6, 0, 1, 2] ∧ c.lines.map UInt32.toNat = [1, 1, 5, 7, 7, 5] ∧
      c.constants = [.ofNat 1, .ofNat 2] := by
  let ca := ((((Chunk.empty.addConstant (.ofNat 1)).writeOpcode .constant 1).write 0 1).writeOpcode .negate 5)
  let cb := ((((Chunk.empty.addConstant (.ofNat 2)).writeOpcode .constant 7).write 0 7).writeOpcode
    (.arith .add) 2)
  have ha : assemble "CONSTANT 1\n\n@5 NEGATE\r" = .ok ca := rfl
  have hb : assemble "@7 constant 2\nADD" = .ok cb := rfl
  obtain ⟨-, hfits, -⟩ := assemble_append_newline ha hb (by decide)
  exact hfits (by decide)

end Assembly

end StackBytecode
