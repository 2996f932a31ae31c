import Mathlib
import StackBytecode.Proofs.Assembly.Program

/-!
# Spellings of a source

A source is spelled as rows of words, one row for each line. Blanks, comments and line ends are
not in the rows, and of an opcode's name a row shows one of many spellings.

The assembler looks at a source through its rows only: a line has a form exactly when its words
do. And a form does not change when a name of an opcode is spelled in another way, wherever it
stands, because such a word can be neither an override nor a number.
-/

namespace StackBytecode.Assembly

/-- A text spelled as rows of words: lines without a line feed in them, each with a line feed or a
carriage return and a line feed behind it, but for the last one, which may have none. -/
inductive SourceSpells : List Char → List (List (List Char)) → Prop
  | done : SourceSpells [] []
  | last {line : List Char} {words : List (List Char)} (hne : line ≠ [])
      (hline : ∀ c ∈ line, c ≠ '\n') (hwords : Spells line words) : SourceSpells line [words]
  | line {line ending text : List Char} {words : List (List Char)} {rows : List (List (List Char))}
      (hline : ∀ c ∈ line, c ≠ '\n') (hwords : Spells line words)
      (hending : ending = ['\n'] ∨ ending = ['\r', '\n']) (h : SourceSpells text rows) :
      SourceSpells (line ++ ending ++ text) (words :: rows)

/-- The words of each line of a source. -/
def sourceRows (source : String) : List (List (List Char)) := (Text.lines source.toList).map lineWords

/-- Rows numbered from `number` on have the given forms, one each. -/
def RowsForm (number : Nat) (rows : List (List (List Char))) (forms : List (Option Command)) : Prop :=
  List.Forall₂ (fun row form => WordsForm row.2 row.1 form) (rows.zipIdx number) forms

/-- Words that are the same, or name the same opcode. -/
def SameWord (word other : List Char) : Prop := word = other ∨ ∃ op, Names word op ∧ Names other op

/-! ## Rows of a source -/

/-- A source has no other rows than those it spells. -/
theorem lineWords_of_sourceSpells {text : List Char} {rows : List (List (List Char))}
    (h : SourceSpells text rows) : (Text.lines text).map lineWords = rows := by
  induction h with
  | done => rfl
  | @last line words hne hline hwords =>
    rw [Text.lines_of_forall_ne_newline hline, if_neg (by simpa using hne), List.map_singleton,
      lineWords_of_spells hwords]
  | @line line ending text words rows hline hwords hending h ih =>
    rcases hending with rfl | rfl
    · rw [List.append_assoc, List.singleton_append, Text.lines_append_newline hline, List.map_cons,
        lineWords_dropReturn, lineWords_of_spells hwords, ih]
    · have hreturn : ∀ c ∈ line ++ ['\r'], c ≠ '\n' := by
        intro c hc
        rcases List.mem_append.mp hc with hc | hc
        · exact hline c hc
        · rw [List.mem_singleton.mp hc]
          decide
      have htext : line ++ ['\r', '\n'] ++ text = line ++ ['\r'] ++ '\n' :: text := by simp
      rw [htext, Text.lines_append_newline hreturn, List.map_cons, lineWords_dropReturn,
        lineWords_of_spells (hwords.append_blank (by decide)), ih]

/-- Every text spells rows. -/
theorem exists_sourceSpells (text : List Char) : ∃ rows, SourceSpells text rows := by
  -- a line goes up to the first line feed, so the rest of the text is shorter
  induction hlength : text.length using Nat.strongRecOn generalizing text with
  | ind length ih =>
    have hline : ∀ c ∈ text.takeWhile (· != '\n'), c ≠ '\n' := by
      intro c hc
      simpa using List.all_eq_true.mp List.all_takeWhile c hc
    have htext := List.takeWhile_append_dropWhile (p := (· != '\n')) (l := text)
    generalize text.takeWhile (· != '\n') = line at hline htext
    cases hrest : text.dropWhile (· != '\n') with
    | nil =>
      rw [hrest, List.append_nil] at htext
      subst htext
      by_cases hne : line = []
      · exact ⟨[], hne ▸ .done⟩
      · exact ⟨_, .last hne hline (spells_lineWords line)⟩
    | cons c rest =>
      have hc : c = '\n' := by
        have hhead := List.head?_dropWhile_not (· != '\n') text
        rw [hrest] at hhead
        simpa using hhead
      rw [hrest, hc] at htext
      obtain ⟨rows, hrows⟩ := ih rest.length (by
        rw [← hlength, ← htext, List.length_append, List.length_cons]
        omega) rest rfl
      have hspells : SourceSpells (line ++ ['\n'] ++ rest) (lineWords line :: rows) :=
        .line hline (spells_lineWords line) (.inl rfl) hrows
      rw [List.append_assoc, List.singleton_append, htext] at hspells
      exact ⟨_, hspells⟩

/-- The rows that a source spells are the words of its lines. -/
theorem sourceSpells_iff {source : String} {rows : List (List (List Char))} :
    SourceSpells source.toList rows ↔ rows = sourceRows source := by
  constructor
  · intro h
    exact (lineWords_of_sourceSpells h).symm
  · rintro rfl
    obtain ⟨rows, hrows⟩ := exists_sourceSpells source.toList
    rw [sourceRows, lineWords_of_sourceSpells hrows]
    exact hrows

/-- A line has the forms of its words. -/
theorem lineForm_iff_wordsForm {number : Nat} {line : List Char} {form : Option Command} :
    LineForm number line form ↔ WordsForm number (lineWords line) form := by
  rw [lineForm_iff, wordsForm_iff, readLine]

/-- Lines have the forms of their rows. -/
theorem linesForm_iff_rowsForm {number : Nat} {lines : List (List Char)} {forms : List (Option Command)} :
    LinesForm number lines forms ↔ RowsForm number (lines.map lineWords) forms := by
  rw [LinesForm, RowsForm, List.zipIdx_map, List.forall₂_map_left_iff]
  simp only [lineForm_iff_wordsForm, Prod.map_fst, Prod.map_snd, id]

/-! ## Spellings of names -/

/-- A letter is no digit. -/
theorem isDigit_of_isAlpha {c : Char} (h : c.isAlpha = true) : c.isDigit = false := by
  simp only [Char.isAlpha, Char.isUpper, Char.isLower, Char.isDigit, ge_iff_le, Bool.or_eq_true,
    Bool.and_eq_true, decide_eq_true_eq, UInt32.le_iff_toNat_le, Bool.and_eq_false_iff,
    decide_eq_false_iff_not, Char.reduceVal, UInt32.reduceToNat] at h ⊢
  omega

/-- A name begins with a letter. -/
theorem Names.exists_letter {word : List Char} {op : Opcode} (h : Names word op) :
    ∃ c rest, word = c :: rest ∧ c.isAlpha = true := by
  have hletter (c : Char) (hc : c.toLower.isLower = true) : c.isAlpha = true := by
    by_cases hupper : c.isUpper = true
    · simp [Char.isAlpha, hupper]
    · rw [Char.toLower, dif_neg (by simpa [Char.isUpper] using hupper)] at hc
      simp [Char.isAlpha, hc]
  have hname : ∃ c rest, op.name.toList.map Char.toLower = c :: rest ∧ c.isLower = true := by
    rcases op with _ | _ | f | _
    case arith => cases f <;> exact ⟨_, _, rfl, by decide⟩
    all_goals exact ⟨_, _, rfl, by decide⟩
  obtain ⟨mark, bare, rfl, rfl | hmark, hbare⟩ := h
  · obtain ⟨c, rest, hlower, hc⟩ := hname
    rw [hlower, List.map_eq_cons_iff] at hbare
    obtain ⟨d, more, rfl, rfl, -⟩ := hbare
    exact ⟨d, more, rfl, hletter d hc⟩
  · obtain ⟨d, more, rfl, hd, -⟩ := List.map_eq_cons_iff.mp hmark
    exact ⟨d, more ++ bare, rfl, hletter d (by rw [hd]; decide)⟩

/-- A word that names an opcode is no number: it begins with a letter, and it is none of the names that
numbers have. -/
theorem ofText?_of_names {word : List Char} {op : Opcode} (h : Names word op) :
    Value.ofText? word = none := by
  have hname : Number.Literal.ofName? false word = none := by
    obtain ⟨mark, bare, rfl, hmark, hbare⟩ := h
    rw [Number.Literal.ofName?, List.map_append, hbare]
    rcases hmark with rfl | hmark
    · rcases op with _ | _ | f | _
      case arith => cases f <;> rfl
      all_goals rfl
    · rw [hmark]
      rfl
  obtain ⟨c, rest, rfl, hc⟩ := h.exists_letter
  have hne {d : Char} (hd : d.isAlpha = false) : c ≠ d := by
    rintro rfl
    rw [hc] at hd
    cases hd
  have hsign : Number.Literal.splitSign (c :: rest) = (false, c :: rest) := by
    simp [Number.Literal.splitSign, hne (d := '-') (by decide), hne (d := '+') (by decide)]
  have hdigits : Number.Literal.ofDigits? false (c :: rest) = none := by
    simp [Number.Literal.ofDigits?, isDigit_of_isAlpha hc, hne (d := '.') (by decide)]
  rw [Value.ofText?, Number.Literal.ofText?, hsign]
  simp only [hdigits, hname, Option.or_none, Option.map_none]

/-- Being spellings of each other does not depend on the order. -/
theorem SameWord.symm {word other : List Char} (h : SameWord word other) : SameWord other word := by
  rcases h with rfl | ⟨op, hword, hother⟩
  · exact .inl rfl
  · exact .inr ⟨op, hother, hword⟩

/-- A word that names an opcode also does so in any other spelling. -/
theorem SameWord.names {word other : List Char} {op : Opcode} (h : SameWord word other)
    (hword : Names word op) : Names other op := by
  rcases h with rfl | ⟨op', hword', hother⟩
  · exact hword
  · exact hword.unique hword' ▸ hother

/-- What names no opcode has one spelling. -/
theorem SameWord.eq_of_not_names {word other : List Char} (h : SameWord word other)
    (hword : ∀ op, ¬ Names word op) : other = word := by
  rcases h with rfl | ⟨op, hop, -⟩
  · rfl
  · exact absurd hop (hword op)

/-- An override has one spelling. -/
theorem SameWord.eq_override {digits other : List Char} (h : SameWord ('@' :: digits) other) :
    other = '@' :: digits :=
  h.eq_of_not_names fun _ hop => ne_override_of_names hop rfl

/-- A number has one spelling. -/
theorem SameWord.eq_number {number other : List Char} {v : Value} (h : SameWord number other)
    (hnumber : Value.ofText? number = some v) : other = number :=
  h.eq_of_not_names fun _ hop => absurd ((ofText?_of_names hop).symm.trans hnumber) (by simp)

/-- A statement is written in any spelling of its words. -/
theorem Writes.of_sameWords {words others : List (List Char)} {s : Statement} (h : Writes words s)
    (hsame : List.Forall₂ SameWord words others) : Writes others s := by
  cases h with
  | constant hname hnumber =>
    obtain _ | ⟨hsameName, _ | ⟨hsameNumber, _ | _⟩⟩ := hsame
    rw [hsameNumber.eq_number hnumber]
    exact .constant (hsameName.names hname) hnumber
  | ret hname =>
    obtain _ | ⟨hsameName, _ | _⟩ := hsame
    exact .ret (hsameName.names hname)
  | arith hname =>
    obtain _ | ⟨hsameName, _ | _⟩ := hsame
    exact .arith (hsameName.names hname)
  | negate hname =>
    obtain _ | ⟨hsameName, _ | _⟩ := hsame
    exact .negate (hsameName.names hname)

/-- Words have the same forms in any spelling. -/
theorem WordsForm.of_sameWords {number : Nat} {words others : List (List Char)} {form : Option Command}
    (h : WordsForm number words form) (hsame : List.Forall₂ SameWord words others) :
    WordsForm number others form := by
  cases h with
  | nothing =>
    obtain _ | _ := hsame
    exact .nothing
  | override hn =>
    obtain _ | ⟨hword, _ | _⟩ := hsame
    rw [hword.eq_override]
    exact .override hn
  | statement hs => exact .statement (hs.of_sameWords hsame)
  | overridden hn hs =>
    obtain _ | ⟨hword, hrest⟩ := hsame
    rw [hword.eq_override]
    exact .overridden hn (hs.of_sameWords hrest)

/-- Rows have the same forms in any spelling. -/
theorem RowsForm.of_sameRows {number : Nat} {rows others : List (List (List Char))}
    {forms : List (Option Command)} (h : RowsForm number rows forms)
    (hsame : List.Forall₂ (List.Forall₂ SameWord) rows others) : RowsForm number others forms := by
  induction hsame generalizing number forms with
  | nil => exact h
  | cons hwords hrows ih =>
    rw [RowsForm, List.zipIdx_cons, List.forall₂_cons_left_iff] at h
    obtain ⟨form, forms, hform, hforms, rfl⟩ := h
    exact .cons (hform.of_sameWords hwords) (ih hforms)

/-- A source assembles to whatever another one with the same rows assembles to. -/
theorem assemble_of_sameRows {source other : String}
    (hsame : List.Forall₂ (List.Forall₂ SameWord) (sourceRows source) (sourceRows other)) {c : Chunk}
    (hc : assemble source = .ok c) : assemble other = .ok c := by
  obtain ⟨forms, hforms, hconstants, rfl⟩ := assemble_eq_ok_iff.mp hc
  refine assemble_eq_ok_iff.mpr ⟨forms, ?_, hconstants, rfl⟩
  exact linesForm_iff_rowsForm.mpr ((linesForm_iff_rowsForm.mp hforms).of_sameRows hsame)

/-- Layout and spelling do not matter. A source spells one list of rows, with any blanks between words,
any comments behind them and either line end. Sources whose rows are the same, but for the spelling of
names of opcodes, assemble to the same chunk, or neither of them assembles. -/
theorem assemble_independent_of_spelling (source : String) :
    (∃! rows, SourceSpells source.toList rows) ∧
    ∀ (other : String) (rows others : List (List (List Char))), SourceSpells source.toList rows →
      SourceSpells other.toList others → List.Forall₂ (List.Forall₂ SameWord) rows others →
        ∀ c, assemble source = .ok c ↔ assemble other = .ok c := by
  constructor
  · exact ⟨sourceRows source, sourceSpells_iff.mpr rfl, fun _ hrows => sourceSpells_iff.mp hrows⟩
  · intro other rows others h hother hsame c
    obtain rfl := sourceSpells_iff.mp h
    obtain rfl := sourceSpells_iff.mp hother
    have hback : List.Forall₂ (List.Forall₂ SameWord) (sourceRows other) (sourceRows source) :=
      (hsame.imp fun _ _ hwords => (hwords.imp fun _ _ hword => hword.symm).flip).flip
    exact ⟨assemble_of_sameRows hsame, assemble_of_sameRows hback⟩

/-- A tab, an em space, a no-break space, comments and both line ends, with names spelled in two ways. -/
theorem assemble_independent_of_spelling_blanks :
    ∃ c, assemble "\t@7  op_Constant\u2003-0;zero\r\nnegate\r\n;" = .ok c ∧
      assemble "@7 CONSTANT\u00a0-0\n  OP_NEGATE ; sign\n\r\n" = .ok c := by
  have hconstant : SameWord "op_Constant".toList "CONSTANT".toList :=
    .inr ⟨.constant, ofName?_bareName_iff.mp rfl, ofName?_bareName_iff.mp rfl⟩
  have hnegate : SameWord "negate".toList "OP_NEGATE".toList :=
    .inr ⟨.negate, ofName?_bareName_iff.mp rfl, ofName?_bareName_iff.mp rfl⟩
  have hassemble : ∃ c, assemble "\t@7  op_Constant\u2003-0;zero\r\nnegate\r\n;" = .ok c :=
    exists_assemble_eq_ok_iff.mpr rfl
  obtain ⟨c, hc⟩ := hassemble
  obtain ⟨-, hsame⟩ := assemble_independent_of_spelling "\t@7  op_Constant\u2003-0;zero\r\nnegate\r\n;"
  have hrows := hsame "@7 CONSTANT\u00a0-0\n  OP_NEGATE ; sign\n\r\n" _ _ (sourceSpells_iff.mpr rfl)
    (sourceSpells_iff.mpr rfl) (.cons (.cons (.inl rfl) (.cons hconstant (.cons (.inl rfl) .nil)))
      (.cons (.cons hnegate .nil) (.cons .nil .nil)))
  exact ⟨c, hc, (hrows c).mp hc⟩

end StackBytecode.Assembly
