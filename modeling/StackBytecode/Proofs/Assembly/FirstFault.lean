import StackBytecode.Proofs.Assembly.Program

/-!
# The first fault of a source

Assembling stops at the first line that is at fault. The lines before it have forms, so they
assemble on their own; the lines behind it are not looked at, so they can be any lines.

A line may be at fault in several ways at once. What is wrong with it is said here without the
reader, by the words that the line spells and by the number of constants before it, one way
independently of the others. The ways have an order, and the cause that is reported is the
first of those that there are.

Lines are taken from a source and joined again to another one. That changes no line but for
carriage returns, which are blanks, and for a last line with nothing in it, which has no effect.
-/

namespace StackBytecode.Assembly

/-! ## What is wrong with a line -/

/-- The place of a cause in the order in which a line is looked through. -/
def Cause.rank : Cause → Nat
  | .invalidLineOverride _ => 0
  | .unknownInstruction _ => 1
  | .invalidNumber _ => 2
  | .tooManyConstants => 3
  | .trailingInput _ _ => 4

/-- The words of a line behind its override, whatever that holds, or all of them if it has none. -/
def statementWords : List (List Char) → List (List Char)
  | ('@' :: _) :: rest => rest
  | words => words

/-- What is wrong with a line with the given words, behind lines that write `used` constants. -/
inductive Violates (used : Nat) (words : List (List Char)) : Cause → Prop
  /-- The first word begins with an at sign, and what follows is no line number. -/
  | override {digits : List Char} {rest : List (List Char)} (hwords : words = ('@' :: digits) :: rest)
      (hdigits : Number.readBelow? (2 ^ 32) digits = none) :
      Violates used words (.invalidLineOverride (String.ofList ('@' :: digits)))
  /-- The first word of the statement names no opcode. -/
  | name {name : List Char} {rest : List (List Char)} (hwords : statementWords words = name :: rest)
      (hname : ∀ op, ¬ Names name op) : Violates used words (.unknownInstruction (String.ofList name))
  /-- The word behind the name of a constant is no number; it is empty when there is none. -/
  | number {name : List Char} {rest : List (List Char)} (hwords : statementWords words = name :: rest)
      (hname : Names name .constant) (hnumber : Value.ofText? (rest.headD []) = none) :
      Violates used words (.invalidNumber (String.ofList (rest.headD [])))
  /-- The line holds one more constant, whatever stands behind it. -/
  | constants {name number : List Char} {rest : List (List Char)} {v : Value}
      (hwords : statementWords words = name :: number :: rest) (hname : Names name .constant)
      (hnumber : Value.ofText? number = some v) (hused : used = 256) :
      Violates used words .tooManyConstants
  /-- A word stands behind a statement. -/
  | trailing {written rest : List (List Char)} {extra : List Char} {s : Statement}
      (hwords : statementWords words = written ++ extra :: rest) (hs : Writes written s) :
      Violates used words (.trailingInput s.opcode (String.ofList extra))

/-- The cause is wrong with the line, and anything else that is wrong with it comes later. -/
structure FirstViolation (used : Nat) (words : List (List Char)) (cause : Cause) : Prop where
  violates : Violates used words cause
  first : ∀ other, Violates used words other → other = cause ∨ cause.rank < other.rank

/-- The first words of statements that begin the same words are the same, and so is what they say. -/
theorem Writes.append_inj {words others rest more : List (List Char)} {s t : Statement}
    (hs : Writes words s) (ht : Writes others t) (h : words ++ rest = others ++ more) :
    s = t ∧ rest = more := by
  obtain ⟨name, front, rfl, hname⟩ := hs.exists_name
  obtain ⟨name', front', rfl, hname'⟩ := ht.exists_name
  obtain ⟨rfl, -⟩ := List.cons.inj h
  have hfirst : readStatement s.opcode (front ++ rest) = .ok (s, rest) :=
    (readStatement_eq_ok_iff hname).mpr ⟨_, rfl, hs⟩
  have hsecond : readStatement s.opcode (front ++ rest) = .ok (t, more) :=
    (readStatement_eq_ok_iff hname).mpr ⟨_, h, ht⟩
  simpa using hfirst.symm.trans hsecond

/-- What is wrong with a line in one way is only one thing. -/
theorem Violates.eq_of_rank_eq {used : Nat} {words : List (List Char)} {cause other : Cause}
    (h : Violates used words cause) (hother : Violates used words other)
    (hrank : cause.rank = other.rank) : cause = other := by
  cases h with
  | override hwords =>
    cases hother with
    | override hwords' =>
      obtain ⟨hword, -⟩ := List.cons.inj (hwords.symm.trans hwords')
      rw [hword]
    | _ => simp [Cause.rank] at hrank
  | name hwords =>
    cases hother with
    | name hwords' =>
      obtain ⟨rfl, -⟩ := List.cons.inj (hwords.symm.trans hwords')
      rfl
    | _ => simp [Cause.rank] at hrank
  | number hwords =>
    cases hother with
    | number hwords' =>
      obtain ⟨-, rfl⟩ := List.cons.inj (hwords.symm.trans hwords')
      rfl
    | _ => simp [Cause.rank] at hrank
  | constants =>
    cases hother with
    | constants => rfl
    | _ => simp [Cause.rank] at hrank
  | trailing hwords hs =>
    cases hother with
    | trailing hwords' hs' =>
      obtain ⟨rfl, hrest⟩ := hs.append_inj hs' (hwords.symm.trans hwords')
      obtain ⟨rfl, -⟩ := List.cons.inj hrest
      rfl
    | _ => simp [Cause.rank] at hrank

/-- What is wrong in the first way is the first thing that is wrong. -/
theorem Violates.firstViolation {used : Nat} {words : List (List Char)} {cause : Cause}
    (h : Violates used words cause) (hle : ∀ other, Violates used words other → cause.rank ≤ other.rank) :
    FirstViolation used words cause := by
  refine ⟨h, fun other hother => ?_⟩
  rcases Nat.lt_or_eq_of_le (hle other hother) with hlt | heq
  · exact .inr hlt
  · exact .inl (hother.eq_of_rank_eq h heq.symm)

/-! ## The cause that is reported -/

/-- The words behind an override that is read are those of the statement. -/
theorem statementWords_of_readOverride {number : Nat} {words rest : List (List Char)} {line : UInt32}
    (h : readOverride number words = .ok (line, rest)) : statementWords words = rest := by
  rcases readOverride_eq_ok_iff.mp h with ⟨digits, n, rfl, -⟩ | ⟨hplain, rfl, -⟩
  · rfl
  · rw [statementWords.eq_def]
    split
    case h_1 digits rest => exact absurd rfl (hplain digits rest)
    case h_2 => rfl

/-- An override that is not read is wrong, and comes before anything else. -/
theorem firstViolation_of_readOverride {number used : Nat} {words : List (List Char)} {cause : Cause}
    (h : readOverride number words = .error cause) : FirstViolation used words cause := by
  rw [readOverride.eq_def] at h
  split at h
  case h_2 => cases h
  case h_1 digits rest =>
    split at h
    case h_1 => cases h
    case h_2 hdigits =>
      obtain rfl := Except.error.inj h
      exact (Violates.override rfl hdigits).firstViolation fun _ _ => Nat.zero_le _

section Statement

variable {number used : Nat} {words more : List (List Char)} {line : UInt32} {name : List Char}
  (hover : readOverride number words = .ok (line, name :: more))

include hover

/-- An override that is read is not wrong. -/
theorem not_violates_override (found : String) : ¬ Violates used words (.invalidLineOverride found) := by
  intro h
  cases h with
  | @override digits rest hwords hdigits =>
    rcases readOverride_eq_ok_iff.mp hover with ⟨digits', n, hwords', hn, -⟩ | ⟨hplain, -⟩
    · obtain ⟨⟨-, rfl⟩, -⟩ : ('@' = '@' ∧ digits = digits') ∧ rest = name :: more := by
        simpa using hwords.symm.trans hwords'
      exact absurd (hdigits.symm.trans hn) (by simp)
    · exact hplain digits rest hwords

/-- An unknown name comes before what stands behind it. -/
theorem firstViolation_name (hname : ∀ op, ¬ Names name op) :
    FirstViolation used words (.unknownInstruction (String.ofList name)) := by
  refine (Violates.name (statementWords_of_readOverride hover) hname).firstViolation ?_
  intro other hother
  cases other with
  | invalidLineOverride => exact absurd hother (not_violates_override hover _)
  | _ => simp [Cause.rank]

variable {op : Opcode} (hname : Names name op)

include hname

/-- A name that names an opcode is not wrong. -/
theorem not_violates_name (found : String) : ¬ Violates used words (.unknownInstruction found) := by
  intro h
  cases h with
  | name hwords hunknown =>
    obtain ⟨rfl, -⟩ := List.cons.inj ((statementWords_of_readOverride hover).symm.trans hwords)
    exact hunknown op hname

omit hname in
/-- A word that is no number comes before what stands behind it. -/
theorem firstViolation_number (hname : Names name .constant)
    (hnumber : Value.ofText? (more.headD []) = none) :
    FirstViolation used words (.invalidNumber (String.ofList (more.headD []))) := by
  refine (Violates.number (statementWords_of_readOverride hover) hname hnumber).firstViolation ?_
  intro other hother
  cases other with
  | invalidLineOverride => exact absurd hother (not_violates_override hover _)
  | unknownInstruction => exact absurd hother (not_violates_name hover hname _)
  | _ => simp [Cause.rank]

variable {s : Statement} {extra : List (List Char)} (hread : readStatement op more = .ok (s, extra))

include hread

/-- The number of a statement that is read is not wrong. -/
theorem not_violates_number (found : String) : ¬ Violates used words (.invalidNumber found) := by
  intro h
  cases h with
  | number hwords hname' hnumber =>
    obtain ⟨rfl, rfl⟩ := List.cons.inj ((statementWords_of_readOverride hover).symm.trans hwords)
    obtain rfl := hname.unique hname'
    rw [readStatement, hnumber] at hread
    cases hread

/-- A constant too many comes before what stands behind it. -/
theorem firstViolation_constants (hused : used ≤ maxConstants)
    (hfull : maxConstants < used + statementConstants s) : FirstViolation used words .tooManyConstants := by
  obtain ⟨written, hmore, hs⟩ := (readStatement_eq_ok_iff hname).mp hread
  have hwords := (statementWords_of_readOverride hover).trans hmore
  have hviolates : Violates used words .tooManyConstants := by
    cases hs with
    | constant hname' hnumber =>
      exact .constants hwords hname' hnumber (Nat.le_antisymm hused (Nat.le_of_lt_succ hfull))
    | ret => exact absurd hfull (Nat.not_lt.mpr hused)
    | arith => exact absurd hfull (Nat.not_lt.mpr hused)
    | negate => exact absurd hfull (Nat.not_lt.mpr hused)
  refine hviolates.firstViolation ?_
  intro other hother
  cases other with
  | invalidLineOverride => exact absurd hother (not_violates_override hover _)
  | unknownInstruction => exact absurd hother (not_violates_name hover hname _)
  | invalidNumber => exact absurd hother (not_violates_number hover hname hread _)
  | _ => simp [Cause.rank]

/-- A constant for which there is an index is not one too many. -/
theorem not_violates_constants (hfits : used + statementConstants s ≤ maxConstants) :
    ¬ Violates used words .tooManyConstants := by
  intro h
  cases h with
  | @constants _ word rest v hwords hname' hnumber hused =>
    obtain ⟨written, hmore, hs⟩ := (readStatement_eq_ok_iff hname).mp hread
    have hconstant := Writes.constant hname' hnumber
    obtain ⟨rfl, -⟩ := hs.append_inj hconstant
      (hmore.symm.trans ((statementWords_of_readOverride hover).symm.trans hwords))
    rw [hused] at hfits
    exact absurd hfits (Nat.not_le.mpr (Nat.lt_succ_self maxConstants))

/-- A word behind a statement in which nothing is wrong comes last. -/
theorem firstViolation_trailing (hfits : used + statementConstants s ≤ maxConstants) {word : List Char}
    (hextra : extra.head? = some word) :
    FirstViolation used words (.trailingInput s.opcode (String.ofList word)) := by
  obtain ⟨rest, rfl⟩ := List.head?_eq_some_iff.mp hextra
  obtain ⟨written, hmore, hs⟩ := (readStatement_eq_ok_iff hname).mp hread
  refine (Violates.trailing ((statementWords_of_readOverride hover).trans hmore) hs).firstViolation ?_
  intro other hother
  cases other with
  | invalidLineOverride => exact absurd hother (not_violates_override hover _)
  | unknownInstruction => exact absurd hother (not_violates_name hover hname _)
  | invalidNumber => exact absurd hother (not_violates_number hover hname hread _)
  | tooManyConstants => exact absurd hother (not_violates_constants hover hname hread hfits)
  | trailingInput => exact Nat.le_refl _

end Statement

/-- Words that are not read have a wrong override, an unknown name, or no number behind the name of a
constant, and the first of these is reported. -/
theorem firstViolation_of_readWords {number used : Nat} {words : List (List Char)} {cause : Cause}
    (h : readWords number words = .error cause) : FirstViolation used words cause := by
  rw [readWords] at h
  rcases bind_eq_error_iff.mp h with hover | ⟨⟨line, rest⟩, hover, hrest⟩
  · exact firstViolation_of_readOverride hover
  cases rest with
  | nil => cases hrest
  | cons name more =>
    simp only at hrest
    split at hrest
    case h_1 hop =>
      obtain rfl := Except.error.inj hrest
      refine firstViolation_name hover fun op hname => ?_
      exact absurd (hop.symm.trans (ofName?_bareName_iff.mpr hname)) (by simp)
    case h_2 op hop =>
      rcases bind_eq_error_iff.mp hrest with hread | ⟨⟨s, extra⟩, -, hdone⟩
      · obtain ⟨rfl, hnumber, rfl⟩ := readStatement_eq_error_iff.mp hread
        exact firstViolation_number hover (ofName?_bareName_iff.mp hop) hnumber
      · cases hdone

/-- The fault of a line is the first thing that is wrong with it. -/
theorem firstViolation_of_linesEffect {number used : Nat} (hused : used ≤ maxConstants)
    {line : List Char} {fault : Fault} (h : (linesEffect number used [line]).fault = some fault) :
    fault.line = number ∧ FirstViolation used (lineWords line) fault.cause := by
  rw [linesEffect, readLine] at h
  cases hread : readWords number (lineWords line) with
  | error cause =>
    rw [hread] at h
    obtain rfl := Option.some.inj h
    exact ⟨rfl, firstViolation_of_readWords hread⟩
  | ok form =>
    rw [hread] at h
    cases form with
    | none => cases h
    | some command =>
      obtain ⟨recorded, rest, hover, hrest⟩ := readWords_eq_ok_iff.mp hread
      rcases hrest with ⟨-, hnone⟩ | ⟨name, more, op, s, extra, rfl, hname, hs, hcommand⟩
      · cases hnone
      obtain rfl := Option.some.inj hcommand
      by_cases hfull : maxConstants < used + statementConstants s
      · simp only [commandEffect, if_pos hfull] at h
        obtain rfl := Option.some.inj h
        exact ⟨rfl, firstViolation_constants hover hname hs hused hfull⟩
      · simp only [commandEffect, if_neg hfull] at h
        cases hextra : extra.head? with
        | none =>
          rw [hextra] at h
          cases h
        | some word =>
          rw [hextra] at h
          obtain rfl := Option.some.inj h
          exact ⟨rfl, firstViolation_trailing hover hname hs (Nat.le_of_not_lt hfull) hextra⟩

/-! ## The line of the fault -/

/-- Lines with a fault are lines with forms and few enough constants, then the line of the fault, then
any others. -/
theorem exists_first_fault {number used : Nat} (hused : used ≤ maxConstants) {lines : List (List Char)}
    {fault : Fault} (h : (linesEffect number used lines).fault = some fault) :
    ∃ before line after forms, lines = before ++ line :: after ∧ LinesForm number before forms ∧
      used + (writtenConstants forms.reduceOption).length ≤ maxConstants ∧
      (linesEffect (number + before.length) (used + (writtenConstants forms.reduceOption).length)
        [line]).fault = some fault := by
  induction lines generalizing number used with
  | nil => cases h
  | cons line rest ih =>
    cases hline : (linesEffect number used [line]).fault with
    | some other =>
      -- the other lines are not looked at
      have hstop := linesEffect_append_of_fault hline rest
      rw [List.singleton_append] at hstop
      rw [hstop, hline] at h
      obtain rfl := Option.some.inj h
      exact ⟨[], line, rest, [], rfl, .nil, hused, hline⟩
    | none =>
      obtain ⟨first, hfirst, hconstants⟩ := linesForm_of_linesEffect hused hline
      have hgoes := linesEffect_append hfirst hconstants rest
      rw [List.singleton_append, List.length_singleton] at hgoes
      rw [hgoes] at h
      obtain ⟨before, last, after, forms, rfl, hforms, hfits, hfault⟩ := ih hconstants h
      have hwritten : used + (writtenConstants (first ++ forms).reduceOption).length =
          used + (writtenConstants first.reduceOption).length +
            (writtenConstants forms.reduceOption).length := by
        rw [List.reduceOption_append, writtenConstants, List.filterMap_append, List.length_append,
          Nat.add_assoc]
        rfl
      refine ⟨line :: before, last, after, first ++ forms, rfl, ?_, by rwa [hwritten], ?_⟩
      · exact List.rel_append hfirst hforms
      · rwa [hwritten, List.length_cons, Nat.add_comm before.length, ← Nat.add_assoc]

/-- Lines in front of others have no fault if there is none in all of them. -/
theorem fault_eq_none_of_append {number used : Nat} {lines more : List (List Char)}
    (h : (linesEffect number used (lines ++ more)).fault = none) :
    (linesEffect number used lines).fault = none := by
  rw [Option.eq_none_iff_forall_ne_some]
  intro fault hfault
  rw [linesEffect_append_of_fault hfault, hfault] at h
  cases h

/-- Lines that are read the same, and lines behind them with the same effect, have the same effect. -/
theorem linesEffect_cons_congr {number used : Nat} {line other : List Char} {rest more : List (List Char)}
    (hline : readLine number line = readLine number other)
    (hrest : ∀ number used, linesEffect number used rest = linesEffect number used more) :
    linesEffect number used (line :: rest) = linesEffect number used (other :: more) := by
  rw [linesEffect, linesEffect, hline]
  simp only [hrest]

/-- Joined lines have the effect of the lines. -/
theorem linesEffect_joinLines {number used : Nat} {lines : List (List Char)}
    (hlines : ∀ line ∈ lines, ∀ c ∈ line, c ≠ '\n') (more : List (List Char)) :
    linesEffect number used (Text.lines (Text.joinLines (lines ++ more)).toList) =
      linesEffect number used (lines ++ Text.lines (Text.joinLines more).toList) := by
  induction lines generalizing number used with
  | nil => rfl
  | cons line rest ih =>
    obtain ⟨hline, hrest⟩ := List.forall_mem_cons.mp hlines
    cases hjoined : rest ++ more with
    | nil =>
      obtain ⟨rfl, rfl⟩ := List.append_eq_nil_iff.mp hjoined
      have htext : (Text.joinLines [line]).toList = line := by
        rw [Text.joinLines, List.intercalate_singleton, String.toList_ofList]
      rw [List.append_nil, htext, Text.lines_of_forall_ne_newline hline]
      cases line <;> rfl
    | cons next others =>
      rw [List.cons_append, hjoined, Text.lines_joinLines_cons hline, List.cons_append]
      refine linesEffect_cons_congr ?_ fun number used => ?_
      · rw [readLine, readLine, lineWords_dropReturn]
      · rw [← hjoined]
        exact ih hrest

/-- Lines of a source that are joined with others have the effect of the lines and of the others. -/
theorem sourceEffect_joinLines_take (source : String) (k : Nat) (others : List (List Char)) :
    sourceEffect (Text.joinLines ((Text.lines source.toList).take k ++ others)) =
      linesEffect 1 0 ((Text.lines source.toList).take k ++ Text.lines (Text.joinLines others).toList) :=
  linesEffect_joinLines (fun _ hline => Text.ne_newline_of_mem_lines (List.mem_of_mem_take hline)) others

/-- The first fault is reported, and nothing behind it matters. If a source does not assemble, then as
many of its lines as come before the line of the fault do, and those up to that line do not; with
any other lines behind it the fault is the same. The cause is the first thing that is wrong with that
line, behind lines that have forms. -/
theorem assemble_reports_first_fault {source : String} {fault : Fault} (h : assemble source = .error fault) :
    (1 ≤ fault.line ∧ fault.line ≤ (Text.lines source.toList).length) ∧
    (∀ k < fault.line, ∃ c, assemble (Text.joinLines ((Text.lines source.toList).take k)) = .ok c) ∧
    (∀ others, assemble (Text.joinLines ((Text.lines source.toList).take fault.line ++ others)) =
      .error fault) ∧
    (∀ other : String, (Text.lines source.toList).take fault.line <+: Text.lines other.toList →
      assemble other = .error fault) ∧
    ∃ forms line words, LinesForm 1 ((Text.lines source.toList).take (fault.line - 1)) forms ∧
      (Text.lines source.toList)[fault.line - 1]? = some line ∧ Spells line words ∧
      FirstViolation (writtenConstants forms.reduceOption).length words fault.cause := by
  rw [assemble_eq_error_iff, sourceEffect] at h
  obtain ⟨before, line, after, forms, hlines, hforms, hconstants, hfault⟩ :=
    exists_first_fault (Nat.zero_le _) h
  obtain ⟨hnumber, hviolation⟩ := firstViolation_of_linesEffect hconstants hfault
  rw [Nat.zero_add] at hviolation
  rw [Nat.add_comm] at hnumber
  have htake : (Text.lines source.toList).take fault.line = before ++ [line] := by
    rw [hlines, hnumber, List.take_length_add_append, List.take_succ_cons, List.take_zero]
  have hbefore : (Text.lines source.toList).take (fault.line - 1) = before := by
    rw [hlines, hnumber, Nat.add_sub_cancel, List.take_left]
  have hstops : (linesEffect 1 0 (before ++ [line])).fault = some fault := by
    rw [linesEffect_append hforms hconstants]
    exact hfault
  have hreports (more : List (List Char)) :
      (linesEffect 1 0 (before ++ [line] ++ more)).fault = some fault := by
    rw [linesEffect_append_of_fault hstops, hstops]
  refine ⟨⟨?_, ?_⟩, ?_, ?_, ?_, forms, line, lineWords line, ?_, ?_, spells_lineWords line, hviolation⟩
  · omega
  · rw [hlines, List.length_append, List.length_cons]
    omega
  · intro k hk
    have hfirst : (Text.lines source.toList).take k = before.take k := by
      rw [hlines, List.take_append_of_le_length (by omega)]
    have hnone : (linesEffect 1 0 before).fault = none := by
      rw [linesEffect_of_linesForm hforms hconstants]
    rw [← List.take_append_drop k before] at hnone
    have hnil : Text.lines (Text.joinLines []).toList = [] := rfl
    have hjoined := sourceEffect_joinLines_take source k []
    rw [hnil, List.append_nil] at hjoined
    rw [exists_assemble_eq_ok_iff, hjoined, hfirst]
    exact fault_eq_none_of_append hnone
  · intro others
    rw [assemble_eq_error_iff, sourceEffect_joinLines_take, htake]
    exact hreports _
  · intro other hother
    obtain ⟨more, hmore⟩ := hother
    rw [assemble_eq_error_iff, sourceEffect, ← hmore, htake]
    exact hreports more
  · rwa [hbefore]
  · rw [hlines, hnumber, Nat.add_sub_cancel, List.getElem?_append_right (Nat.le_refl _), Nat.sub_self]
    rfl

/-- The override is at fault on the second line, where the name is unknown too, and the constant without
a number on the third line is not looked at. -/
theorem assemble_reports_first_fault_override :
    assemble "ADD ; +\r\n@-1 print 3\nCONSTANT" = .error ⟨2, .invalidLineOverride "@-1"⟩ ∧
      (∃ c, assemble "ADD ; +" = .ok c) ∧
      assemble "ADD ; +\n@-1 print 3\nNEGATE" = .error ⟨2, .invalidLineOverride "@-1"⟩ ∧
      ∃ used words, Violates used words (.unknownInstruction "print") ∧
        FirstViolation used words (.invalidLineOverride "@-1") := by
  have hfault : assemble "ADD ; +\r\n@-1 print 3\nCONSTANT" =
      .error ⟨2, .invalidLineOverride "@-1"⟩ := by rfl
  obtain ⟨-, hbefore, hothers, -, forms, line, words, -, hline, hwords, hviolation⟩ :=
    assemble_reports_first_fault hfault
  obtain rfl := Option.some.inj hline
  have hspelled : statementWords words = ["print".toList, "3".toList] := by
    rw [← lineWords_of_spells hwords]
    rfl
  have hunknown : ∀ op, ¬ Names "print".toList op := by
    intro op hname
    have hnone : Opcode.ofName? (bareName "print".toList) = none := by decide
    exact absurd (hnone.symm.trans (ofName?_bareName_iff.mpr hname)) (by simp)
  exact ⟨hfault, hbefore 1 (by decide), hothers ["NEGATE".toList], _, words, .name hspelled hunknown,
    hviolation⟩

end StackBytecode.Assembly
