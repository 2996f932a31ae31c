import Mathlib.Algebra.Group.Nat.Defs
import Mathlib.Data.List.Forall2
import StackBytecode.Assembly.Command
import StackBytecode.Proofs.Text.Words

/-!
# The grammar of source text

Which texts are lines of the language, and what command each of them holds, said without
the reader: how a line spells words, which words name an opcode, and in which forms words
make a line. Reading a line succeeds with nothing left over exactly on these forms, so a
line has at most one of them.

What counts as a number, and as the number of a source line, is left to their readers.
-/

namespace StackBytecode.Assembly

/-- A line spelled as words: blanks around them, at least one between two, a comment at the end. -/
inductive Spells : List Char → List (List Char) → Prop
  | done : Spells [] []
  | comment (text : List Char) : Spells (';' :: text) []
  | blank {c : Char} {line : List Char} {words : List (List Char)} (hc : Text.isBlank c = true)
      (h : Spells line words) : Spells (c :: line) words
  | word {word line : List Char} {words : List (List Char)} (hne : word ≠ [])
      (hword : ∀ c ∈ word, Text.isBlank c = false ∧ c ≠ ';')
      (hclosed : ∀ c ∈ line.head?, Text.isBlank c = true ∨ c = ';')
      (h : Spells line words) : Spells (word ++ line) (word :: words)

/-- A word that names an opcode: its bare name in any ASCII case, after at most one prefix `OP_`
in any case. -/
def Names (word : List Char) (op : Opcode) : Prop :=
  ∃ mark bare, word = mark ++ bare ∧ (mark = [] ∨ mark.map Char.toLower = ['o', 'p', '_']) ∧
    bare.map Char.toLower = op.name.toList.map Char.toLower

/-- The words of a statement: a name, and for a constant one number. -/
inductive Writes : List (List Char) → Statement → Prop
  | constant {name number : List Char} {v : Value} (hname : Names name .constant)
      (hnumber : Value.ofText? number = some v) : Writes [name, number] (.constant v)
  | ret {name : List Char} (hname : Names name .ret) : Writes [name] .ret
  | arith {name : List Char} {f : Arith} (hname : Names name (.arith f)) : Writes [name] (.arith f)
  | negate {name : List Char} (hname : Names name .negate) : Writes [name] .negate

/-- The forms of a line with a number, as words: nothing, an override alone, a statement, or a
statement after an override. -/
inductive WordsForm (number : Nat) : List (List Char) → Option Command → Prop
  | nothing : WordsForm number [] none
  | override {digits : List Char} {n : Nat} (hn : Number.readBelow? (2 ^ 32) digits = some n) :
      WordsForm number ['@' :: digits] none
  | statement {words : List (List Char)} {s : Statement} (hs : Writes words s) :
      WordsForm number words (some ⟨recordedLine number, s, none⟩)
  | overridden {digits : List Char} {n : Nat} {words : List (List Char)} {s : Statement}
      (hn : Number.readBelow? (2 ^ 32) digits = some n) (hs : Writes words s) :
      WordsForm number (('@' :: digits) :: words) (some ⟨UInt32.ofNat n, s, none⟩)

/-- A line with a number has a form, which holds a command or none. -/
def LineForm (number : Nat) (line : List Char) (form : Option Command) : Prop :=
  ∃ words, Spells line words ∧ WordsForm number words form

/-- Lines numbered from `number` on have the given forms, one each. -/
def LinesForm (number : Nat) (lines : List (List Char)) (forms : List (Option Command)) : Prop :=
  List.Forall₂ (fun line form => LineForm line.2 line.1 form) (lines.zipIdx number) forms

/-- The lines of a source, numbered from one on, have the given forms. -/
def SourceForm (source : String) (forms : List (Option Command)) : Prop :=
  LinesForm 1 (Text.lines source.toList) forms

/-! ## Words of a line -/

/-- A line has no other words than those it spells. -/
theorem lineWords_of_spells {line : List Char} {words : List (List Char)} (h : Spells line words) :
    lineWords line = words := by
  induction h with
  | done => rfl
  | comment text => rfl
  | @blank c line words hc h ih =>
    have hsemi : c ≠ ';' := by
      intro hsemi
      rw [hsemi] at hc
      exact absurd hc (by decide)
    rw [lineWords, List.takeWhile_cons_of_pos (by simpa using hsemi), Text.words_cons_of_blank hc]
    exact ih
  | @word word line words hne hword hclosed h ih =>
    rw [lineWords, List.takeWhile_append_of_pos fun c hc => by simpa using (hword c hc).2,
      Text.words_append_of_closed hne fun c hc => (hword c hc).1]
    · rw [← ih, lineWords]
    · intro c hc
      cases line with
      | nil => simp at hc
      | cons d rest =>
        by_cases hd : d = ';'
        · simp [hd] at hc
        · have hcd : d = c := by simpa [hd] using hc
          exact (hclosed c (by simp [hcd])).resolve_right (hcd ▸ hd)

/-- Every line spells the words it is split into. -/
theorem spells_lineWords (line : List Char) : Spells line (lineWords line) := by
  suffices h : ∃ words, Spells line words by
    obtain ⟨words, hwords⟩ := h
    rw [lineWords_of_spells hwords]
    exact hwords
  induction line with
  | nil => exact ⟨[], .done⟩
  | cons c rest ih =>
    obtain ⟨words, hwords⟩ := ih
    by_cases hsemi : c = ';'
    · exact ⟨[], hsemi ▸ .comment rest⟩
    by_cases hblank : Text.isBlank c = true
    · exact ⟨words, .blank hblank hwords⟩
    have hc : ∀ d ∈ [c], Text.isBlank d = false ∧ d ≠ ';' := by
      simpa [hsemi] using hblank
    -- a letter begins a word of its own unless the rest begins with one to be joined
    cases hwords with
    | done => exact ⟨[[c]], .word (List.cons_ne_nil c []) hc (by simp) .done⟩
    | comment text => exact ⟨[[c]], .word (List.cons_ne_nil c []) hc (by simp) (.comment text)⟩
    | blank hd h =>
      exact ⟨[c] :: words, .word (List.cons_ne_nil c []) hc (by simp [hd]) (.blank hd h)⟩
    | @word word line words hne hword hclosed h =>
      refine ⟨(c :: word) :: words, .word (List.cons_ne_nil c word) ?_ hclosed h⟩
      intro d hd
      rcases List.mem_cons.mp hd with rfl | hd
      · exact hc d (List.mem_singleton_self d)
      · exact hword d hd

/-- A blank at the end of a line belongs to no word. -/
theorem Spells.append_blank {line : List Char} {words : List (List Char)} {c : Char}
    (h : Spells line words) (hc : Text.isBlank c = true) : Spells (line ++ [c]) words := by
  induction h with
  | done => exact .blank hc .done
  | comment text => exact .comment (text ++ [c])
  | blank hd h ih => exact .blank hd ih
  | @word word line words hne hword hclosed h ih =>
    rw [List.append_assoc]
    refine .word hne hword ?_ ih
    cases line with
    | nil =>
      rintro d hd
      obtain rfl : c = d := by simpa using hd
      exact .inl hc
    | cons d rest => exact hclosed

/-- The carriage return at the end of a line belongs to no word. -/
theorem lineWords_dropReturn (line : List Char) : lineWords (Text.dropReturn line) = lineWords line := by
  rcases Text.dropReturn_eq_or line with hline | hline
  · rw [hline]
  · have happend := (spells_lineWords (Text.dropReturn line)).append_blank (c := '\r') (by decide)
    rw [← hline] at happend
    exact (lineWords_of_spells happend).symm

/-! ## Names -/

/-- An opcode is found under the spellings of its bare name and no others. -/
theorem ofName?_eq_some_iff {text : List Char} {op : Opcode} :
    Opcode.ofName? text = some op ↔ text.map Char.toLower = op.name.toList.map Char.toLower := by
  constructor
  · intro h
    rw [Opcode.ofName?] at h
    have hfound := List.find?_some h
    exact (eq_of_beq hfound).symm
  · intro h
    rw [Opcode.ofName?, h]
    rcases op with _ | _ | f | _
    case arith => cases f <;> decide
    all_goals decide

/-- No bare name begins like the prefix. -/
theorem take_ne_mark_of_name {bare : List Char} {op : Opcode}
    (h : bare.map Char.toLower = op.name.toList.map Char.toLower) :
    (bare.take 3).map Char.toLower ≠ ['o', 'p', '_'] := by
  rw [List.map_take, h]
  rcases op with _ | _ | f | _
  case arith => cases f <;> decide
  all_goals decide

/-- Dropping a prefix and finding the rest of the word is what naming an opcode means. -/
theorem ofName?_bareName_iff {word : List Char} {op : Opcode} :
    Opcode.ofName? (bareName word) = some op ↔ Names word op := by
  rw [ofName?_eq_some_iff, bareName]
  constructor
  · intro h
    split at h
    case isTrue hmark =>
      exact ⟨word.take 3, word.drop 3, (List.take_append_drop 3 word).symm, .inr hmark, h⟩
    case isFalse => exact ⟨[], word, rfl, .inl rfl, h⟩
  · intro h
    obtain ⟨mark, bare, rfl, rfl | hmark, hbare⟩ := h
    · rw [List.nil_append, if_neg (take_ne_mark_of_name hbare)]
      exact hbare
    · have hlength : mark.length = 3 := by simpa using congrArg List.length hmark
      rw [List.take_left' hlength, List.drop_left' hlength, if_pos hmark]
      exact hbare

/-- A word names at most one opcode. -/
theorem Names.unique {word : List Char} {op other : Opcode} (h : Names word op)
    (hother : Names word other) : op = other :=
  Option.some.inj ((ofName?_bareName_iff.mpr h).symm.trans (ofName?_bareName_iff.mpr hother))

/-- A word that names an opcode is no override. -/
theorem ne_override_of_names {word digits : List Char} {op : Opcode} (h : Names word op) :
    word ≠ '@' :: digits := by
  intro hoverride
  obtain ⟨mark, bare, hword, hmark, hbare⟩ := h
  rw [hoverride] at hword
  have hat : Char.toLower '@' = '@' := by decide
  rcases hmark with rfl | hmark
  · rw [List.nil_append] at hword
    rw [← hword, List.map_cons, hat] at hbare
    have hhead : (op.name.toList.map Char.toLower).head? ≠ some '@' := by
      rcases op with _ | _ | f | _
      case arith => cases f <;> decide
      all_goals decide
    exact hhead (by rw [← hbare, List.head?_cons])
  · cases mark with
    | nil => simp at hmark
    | cons c mark =>
      obtain ⟨rfl, -⟩ := List.cons.inj hword
      rw [List.map_cons, hat] at hmark
      exact absurd (List.cons.inj hmark).1 (by decide)

/-! ## Reading lines -/

/-- A bind of results is a value exactly when both of its steps are. -/
theorem bind_eq_ok_iff {ε α β : Type} {x : Except ε α} {f : α → Except ε β} {b : β} :
    (x >>= f) = .ok b ↔ ∃ a, x = .ok a ∧ f a = .ok b := by
  cases x <;> simp [bind, Except.bind]

/-- A bind of results is an error exactly when its first step is, or the second one behind it. -/
theorem bind_eq_error_iff {ε α β : Type} {x : Except ε α} {f : α → Except ε β} {e : ε} :
    (x >>= f) = .error e ↔ x = .error e ∨ ∃ a, x = .ok a ∧ f a = .error e := by
  cases x <;> simp [bind, Except.bind]

/-- Only the number of a constant can be wrong in what is read behind a name. -/
theorem readStatement_eq_error_iff {op : Opcode} {words : List (List Char)} {cause : Cause} :
    readStatement op words = .error cause ↔
      op = .constant ∧ Value.ofText? (words.headD []) = none ∧
        cause = .invalidNumber (String.ofList (words.headD [])) := by
  cases op with
  | constant =>
    rw [readStatement]
    cases Value.ofText? (words.headD []) <;> simp [eq_comm]
  | ret => simp [readStatement]
  | arith f => simp [readStatement]
  | negate => simp [readStatement]

/-- The first word of a statement names its opcode. -/
theorem Writes.exists_name {words : List (List Char)} {s : Statement} (h : Writes words s) :
    ∃ name rest, words = name :: rest ∧ Names name s.opcode := by
  cases h with
  | constant hname hnumber => exact ⟨_, _, rfl, hname⟩
  | ret hname => exact ⟨_, _, rfl, hname⟩
  | arith hname => exact ⟨_, _, rfl, hname⟩
  | negate hname => exact ⟨_, _, rfl, hname⟩

/-- Behind a name, the words of its statement are read and those after it are left over. -/
theorem readStatement_eq_ok_iff {name : List Char} {op : Opcode} (hname : Names name op)
    {more extra : List (List Char)} {s : Statement} :
    readStatement op more = .ok (s, extra) ↔
      ∃ words, name :: more = words ++ extra ∧ Writes words s := by
  constructor
  · intro hread
    cases op with
    | constant =>
      simp only [readStatement] at hread
      split at hread
      case h_2 => cases hread
      case h_1 v hv =>
        obtain ⟨rfl, rfl⟩ : .constant v = s ∧ more.tail = extra := by simpa using hread
        cases more with
        | nil =>
          have hempty : Value.ofText? [] = none := rfl
          exact absurd (hempty.symm.trans hv) (by simp)
        | cons number more => exact ⟨[name, number], rfl, .constant hname hv⟩
    | ret =>
      obtain ⟨rfl, rfl⟩ : .ret = s ∧ more = extra := by simpa [readStatement] using hread
      exact ⟨[name], rfl, .ret hname⟩
    | arith f =>
      obtain ⟨rfl, rfl⟩ : .arith f = s ∧ more = extra := by simpa [readStatement] using hread
      exact ⟨[name], rfl, .arith hname⟩
    | negate =>
      obtain ⟨rfl, rfl⟩ : .negate = s ∧ more = extra := by simpa [readStatement] using hread
      exact ⟨[name], rfl, .negate hname⟩
  · intro h
    obtain ⟨words, hwords, hs⟩ := h
    obtain ⟨name', rest, rfl, hname'⟩ := hs.exists_name
    obtain ⟨rfl, rfl⟩ := List.cons.inj hwords
    obtain rfl := hname.unique hname'
    cases hs with
    | constant _ hnumber => simp [readStatement, Operation.opcode, hnumber]
    | ret => rfl
    | arith => rfl
    | negate => rfl

/-- The words of a statement are a name and what its opcode reads to the end. -/
theorem writes_iff {words : List (List Char)} {s : Statement} :
    Writes words s ↔
      ∃ name rest op, words = name :: rest ∧ Names name op ∧ readStatement op rest = .ok (s, []) := by
  constructor
  · intro h
    obtain ⟨name, rest, rfl, hname⟩ := h.exists_name
    exact ⟨name, rest, _, rfl, hname,
      (readStatement_eq_ok_iff hname).mpr ⟨_, (List.append_nil _).symm, h⟩⟩
  · intro h
    obtain ⟨name, rest, op, rfl, hname, hread⟩ := h
    obtain ⟨words, hwords, hs⟩ := (readStatement_eq_ok_iff hname).mp hread
    rwa [hwords, List.append_nil]

/-- Reading words succeeds with a command or without one, after reading an override. -/
theorem readWords_eq_ok_iff {number : Nat} {words : List (List Char)} {form : Option Command} :
    readWords number words = .ok form ↔
      ∃ line rest, readOverride number words = .ok (line, rest) ∧
        ((rest = [] ∧ form = none) ∨
          ∃ name more op s extra, rest = name :: more ∧ Names name op ∧
            readStatement op more = .ok (s, extra) ∧
            form = some ⟨line, s, extra.head?.map String.ofList⟩) := by
  rw [readWords, bind_eq_ok_iff, Prod.exists]
  refine exists_congr fun line => exists_congr fun rest => and_congr_right fun _ => ?_
  cases rest with
  | nil => simp [pure, Except.pure, eq_comm]
  | cons name more =>
    constructor
    · intro h
      simp only at h
      split at h
      case h_1 => cases h
      case h_2 op hop =>
        obtain ⟨⟨s, extra⟩, hread, hform⟩ := bind_eq_ok_iff.mp h
        exact .inr ⟨name, more, op, s, extra, rfl, ofName?_bareName_iff.mp hop, hread,
          (Except.ok.inj hform).symm⟩
    · intro h
      rcases h with ⟨hnil, -⟩ | ⟨name', more', op, s, extra, hcons, hname, hread, rfl⟩
      · cases hnil
      · obtain ⟨rfl, rfl⟩ := List.cons.inj hcons
        simp only [ofName?_bareName_iff.mpr hname]
        exact bind_eq_ok_iff.mpr ⟨(s, extra), hread, rfl⟩

/-- Reading an override gives its number, or the number of the line when there is no override. -/
theorem readOverride_eq_ok_iff {number : Nat} {words rest : List (List Char)} {line : UInt32} :
    readOverride number words = .ok (line, rest) ↔
      (∃ digits n, words = ('@' :: digits) :: rest ∧ Number.readBelow? (2 ^ 32) digits = some n ∧
        line = UInt32.ofNat n) ∨
      ((∀ digits more, words ≠ ('@' :: digits) :: more) ∧ words = rest ∧
        line = recordedLine number) := by
  rw [readOverride.eq_def]
  split
  case h_1 digits more =>
    split
    case h_1 n hn =>
      constructor
      · intro h
        obtain ⟨rfl, rfl⟩ : UInt32.ofNat n = line ∧ more = rest := by simpa using h
        exact .inl ⟨digits, n, rfl, hn, rfl⟩
      · intro h
        rcases h with ⟨digits', n', hwords, hn', rfl⟩ | ⟨hplain, -⟩
        · obtain ⟨⟨-, rfl⟩, rfl⟩ : ('@' = '@' ∧ digits = digits') ∧ more = rest := by
            simpa using hwords
          obtain rfl : n = n' := Option.some.inj (hn.symm.trans hn')
          rfl
        · exact absurd rfl (hplain digits more)
    case h_2 hn =>
      constructor
      · intro h
        cases h
      · intro h
        rcases h with ⟨digits', n', hwords, hn', -⟩ | ⟨hplain, -⟩
        · obtain ⟨⟨-, rfl⟩, -⟩ : ('@' = '@' ∧ digits = digits') ∧ more = rest := by
            simpa using hwords
          exact absurd (hn.symm.trans hn') (by simp)
        · exact absurd rfl (hplain digits more)
  case h_2 hplain =>
    constructor
    · intro h
      obtain ⟨rfl, rfl⟩ : recordedLine number = line ∧ words = rest := by simpa using h
      exact .inr ⟨hplain, rfl, rfl⟩
    · intro h
      rcases h with ⟨digits, n, rfl, -⟩ | ⟨-, rfl, rfl⟩
      · exact absurd rfl (hplain digits rest)
      · rfl

/-- The forms of a line are what its words are read as with nothing left over. -/
theorem wordsForm_iff {number : Nat} {words : List (List Char)} {form : Option Command} :
    WordsForm number words form ↔
      readWords number words = .ok form ∧ ∀ c ∈ form, c.extra = none := by
  rw [readWords_eq_ok_iff]
  constructor
  · intro h
    cases h with
    | nothing =>
      exact ⟨⟨_, [], readOverride_eq_ok_iff.mpr (.inr ⟨by simp, rfl, rfl⟩), .inl ⟨rfl, rfl⟩⟩, by simp⟩
    | override hn =>
      exact ⟨⟨_, [], readOverride_eq_ok_iff.mpr (.inl ⟨_, _, rfl, hn, rfl⟩), .inl ⟨rfl, rfl⟩⟩, by simp⟩
    | statement hs =>
      obtain ⟨name, more, op, rfl, hname, hread⟩ := writes_iff.mp hs
      have hplain : ∀ digits rest, name :: more ≠ ('@' :: digits) :: rest := by
        intro digits rest h
        exact ne_override_of_names hname (List.cons.inj h).1
      exact ⟨⟨_, _, readOverride_eq_ok_iff.mpr (.inr ⟨hplain, rfl, rfl⟩),
        .inr ⟨name, more, op, _, [], rfl, hname, hread, rfl⟩⟩, by simp⟩
    | overridden hn hs =>
      obtain ⟨name, more, op, rfl, hname, hread⟩ := writes_iff.mp hs
      exact ⟨⟨_, _, readOverride_eq_ok_iff.mpr (.inl ⟨_, _, rfl, hn, rfl⟩),
        .inr ⟨name, more, op, _, [], rfl, hname, hread, rfl⟩⟩, by simp⟩
  · intro h
    obtain ⟨⟨line, rest, hline, hrest⟩, hextra⟩ := h
    rcases readOverride_eq_ok_iff.mp hline with ⟨digits, n, rfl, hn, rfl⟩ | ⟨-, rfl, rfl⟩
    · rcases hrest with ⟨rfl, rfl⟩ | ⟨name, more, op, s, extra, rfl, hname, hread, rfl⟩
      · exact .override hn
      · obtain rfl : extra = [] := by simpa using hextra
        exact .overridden hn (writes_iff.mpr ⟨name, more, op, rfl, hname, hread⟩)
    · rcases hrest with ⟨rfl, rfl⟩ | ⟨name, more, op, s, extra, rfl, hname, hread, rfl⟩
      · exact .nothing
      · obtain rfl : extra = [] := by simpa using hextra
        exact .statement (writes_iff.mpr ⟨name, more, op, rfl, hname, hread⟩)

/-- A line has a form exactly when reading it gives that form with nothing left over. -/
theorem lineForm_iff {number : Nat} {line : List Char} {form : Option Command} :
    LineForm number line form ↔ readLine number line = .ok form ∧ ∀ c ∈ form, c.extra = none := by
  rw [readLine, ← wordsForm_iff]
  constructor
  · intro h
    obtain ⟨words, hwords, hform⟩ := h
    exact lineWords_of_spells hwords ▸ hform
  · intro hform
    exact ⟨lineWords line, spells_lineWords line, hform⟩

/-- A line has at most one form. -/
theorem LineForm.unique {number : Nat} {line : List Char} {form other : Option Command}
    (h : LineForm number line form) (hother : LineForm number line other) : form = other :=
  Except.ok.inj ((lineForm_iff.mp h).1.symm.trans (lineForm_iff.mp hother).1)

/-- A source has at most one list of forms. -/
theorem SourceForm.unique {source : String} {forms others : List (Option Command)}
    (h : SourceForm source forms) (hothers : SourceForm source others) : forms = others :=
  List.right_unique_forall₂' (fun _ _ _ hform hother => hform.unique hother) h hothers

end StackBytecode.Assembly
