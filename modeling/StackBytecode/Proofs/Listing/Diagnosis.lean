import StackBytecode.Proofs.Listing.Lines
import StackBytecode.Validation

/-!
# Listings show what validation finds

A listing marks what is wrong with code where it stands: a byte that is no opcode, an opcode
that misses its operand, and a constant that is not in the pool. Validation gives up at the
first of these, while a listing goes on. Up to there both come to the same offsets, so the
first entry with a mark is the one that validation reports.

The marks are told by their texts. No text of an instruction without a fault looks like one:
mnemonics are too short for it, and a constant ends in a quote.
-/

namespace StackBytecode

/-- The text with which a listing marks a fault of the code. -/
def ValidationCause.mark : ValidationCause → String
  | .decode (.unknownOpcode byte) => "Unknown opcode " ++ byte.toNat.repr
  | .decode (.truncatedOperand op) => op.mnemonic ++ " <truncated>"
  | .constantOutOfRange index _ => "OP_CONSTANT      " ++ Text.spacePadded 4 index ++ " <missing>"

namespace Listing

/-- A text that marks a fault: a byte that is no opcode, a constant that misses its operand, or a
constant that is not in the pool. -/
def IsDiagnostic (text : String) : Prop :=
  (∃ byte : UInt8, text = "Unknown opcode " ++ byte.toNat.repr) ∨
    text = "OP_CONSTANT <truncated>" ∨ ∃ shown, text = "OP_CONSTANT" ++ shown ++ "<missing>"

/-- The fault of the code that a body shows, for a pool of the given size. -/
def Body.fault? (poolSize : Nat) : Body → Option ValidationCause
  | .constant index none => some (.constantOutOfRange index.toNat poolSize)
  | .unknown byte => some (.decode (.unknownOpcode byte))
  | .truncated op => some (.decode (.truncatedOperand op))
  | _ => none

/-- The fault of the code that an entry shows. -/
def Entry.fault? (poolSize : Nat) (e : Entry) : Option ValidationFault :=
  (e.body.fault? poolSize).map fun cause => ⟨e.offset, e.line, cause⟩

/-- A constant is shown behind its mnemonic and its index. -/
theorem Body.text_constant (index : UInt8) (value : Option Value) :
    (Body.constant index value).text = "OP_CONSTANT      " ++ Text.spacePadded 4 index.toNat ++ " " ++
      match value with
      | some v => "'" ++ v.text ++ "'"
      | none => "<missing>" := by
  have hmnemonic : Text.padRight 16 Opcode.constant.mnemonic ++ " " = "OP_CONSTANT      " := by decide
  rw [← hmnemonic]
  cases value <;> rfl

/-- The text of a body with a fault is its mark. -/
theorem Body.text_of_fault? {poolSize : Nat} {body : Body} {cause : ValidationCause}
    (h : body.fault? poolSize = some cause) : body.text = cause.mark := by
  cases body with
  | constant index value =>
    cases value with
    | none =>
      obtain rfl : .constantOutOfRange index.toNat poolSize = cause := by simpa [fault?] using h
      have hmissing : " " ++ "<missing>" = " <missing>" := by decide
      rw [text_constant, String.append_assoc, hmissing]
      rfl
    | some v => cases h
  | plain op => cases h
  | unknown byte =>
    obtain rfl := Option.some.inj h
    rfl
  | truncated op =>
    obtain rfl := Option.some.inj h
    rfl
  | pastEnd => cases h

/-- A text that marks a fault has at least fifteen characters. -/
theorem IsDiagnostic.length_le {text : String} (h : IsDiagnostic text) : 15 ≤ text.length := by
  rcases h with ⟨byte, rfl⟩ | rfl | ⟨shown, rfl⟩
  · rw [String.length_append]
    exact Nat.le_add_right _ _
  · decide
  · have hname : "OP_CONSTANT".length = 11 := by decide
    have hmissing : "<missing>".length = 9 := by decide
    rw [String.length_append, String.length_append, hname, hmissing]
    omega

/-- A text between quotes behind a mnemonic marks no fault. -/
theorem not_isDiagnostic_quoted (shown : String) : ¬ IsDiagnostic ("OP_CONSTANT" ++ shown ++ "'") := by
  have hlast : ("OP_CONSTANT" ++ shown ++ "'").toList.getLast? = some '\'' := by
    rw [String.toList_append]
    exact List.getLast?_concat
  have hfirst : ("OP_CONSTANT" ++ shown ++ "'").toList.head? = some 'O' := by
    rw [String.append_assoc, String.toList_append]
    rfl
  intro h
  rcases h with ⟨byte, htext⟩ | htext | ⟨other, htext⟩
  · rw [htext, String.toList_append, List.head?_append_of_ne_nil _ (by decide)] at hfirst
    exact absurd hfirst (by decide)
  · rw [htext] at hlast
    exact absurd hlast (by decide)
  · rw [htext, String.toList_append, List.getLast?_append_of_ne_nil _ (by decide)] at hlast
    exact absurd hlast (by decide)

/-- The text of a mnemonic marks no fault. -/
theorem not_isDiagnostic_mnemonic (op : Opcode) : ¬ IsDiagnostic op.mnemonic := by
  have hlength : op.mnemonic.length ≤ 11 := by
    rcases op with _ | _ | f | _
    case arith => cases f <;> decide
    all_goals decide
  intro h
  have hmark := h.length_le
  omega

end Listing

namespace Chunk

open Listing

/-- What is shown at an offset in the code marks a fault by its text exactly when it has one. -/
theorem Shows.isDiagnostic_iff {c : Chunk} {offset : Nat} {body : Body} (h : c.Shows offset body) :
    IsDiagnostic body.text ↔ body.fault? c.poolSize ≠ none := by
  cases h with
  | @constant index hbyte hoperand =>
    rw [Body.text_constant]
    cases c.constant? index.toNat with
    | none =>
      refine iff_of_true (.inr (.inr ⟨"      " ++ Text.spacePadded 4 index.toNat ++ " ", ?_⟩))
        (Option.some_ne_none _)
      rw [← String.append_assoc, ← String.append_assoc]
      rfl
    | some v =>
      refine iff_of_false ?_ (fun hfault => hfault rfl)
      have hname : "OP_CONSTANT      " = "OP_CONSTANT" ++ "      " := by decide
      rw [hname]
      simpa only [String.append_assoc] using
        not_isDiagnostic_quoted ("      " ++ Text.spacePadded 4 index.toNat ++ " " ++ "'" ++ v.text)
  | plain hop hbyte => exact iff_of_false (not_isDiagnostic_mnemonic _) (fun hfault => hfault rfl)
  | unknown hbyte hhigh => exact iff_of_true (.inl ⟨_, rfl⟩) (Option.some_ne_none _)
  | truncated hbyte hlast => exact iff_of_true (.inr (.inl rfl)) (Option.some_ne_none _)

/-- Validation and the listing say the same of what stands at an offset. -/
theorem fault?_entryAt {c : Chunk} {offset : Nat} {found : Decoding.Found}
    (h : c.decodeAt offset = some found) :
    (c.entryAt offset).fault? c.poolSize = ValidationFault.of? c.poolSize found := by
  cases found with
  | error fault =>
    obtain ⟨hoffset, hline, -⟩ := decodeAt_eq_error_iff.mp h
    rw [Entry.fault?, offset_entryAt, line_entryAt hline, body_entryAt h]
    obtain ⟨start, line, cause⟩ := fault
    obtain rfl : start = offset := hoffset
    cases cause <;> rfl
  | ok found =>
    obtain ⟨hoffset, hline, -⟩ := decodeAt_eq_ok_iff.mp h
    rw [Entry.fault?, offset_entryAt, line_entryAt hline, body_entryAt h]
    obtain ⟨start, line, i⟩ := found
    obtain rfl : start = offset := hoffset
    cases i with
    | constant index =>
      have hpool : c.pool.get? index.toNat = none ↔ c.poolSize ≤ index.toNat := Buffer.get?_eq_none_iff
      simp only [ValidationFault.of?, Body.of]
      cases hv : c.pool.get? index.toNat with
      | none =>
        rw [if_neg (Nat.not_lt.mpr (hpool.mp hv))]
        rfl
      | some v =>
        rw [if_pos (Nat.lt_of_not_le fun hle => by simp [hpool.mpr hle] at hv)]
        rfl
    | ret => rfl
    | arith f => rfl
    | negate => rfl

/-- The first fault of what is found in turn is the first one that the entries from there on show. -/
theorem Iterates.findSome?_eq {c : Chunk} {offset : Nat} {list : List Decoding.Found}
    (h : c.Iterates offset list) :
    list.findSome? (ValidationFault.of? c.poolSize) =
      (c.listingFrom offset).findSome? (Entry.fault? c.poolSize) := by
  induction h with
  | off hcode =>
    rw [listingFrom_eq, if_neg (Nat.not_lt.mpr (decodeAt_eq_none_iff.mp hcode))]
    rfl
  | faults hcode =>
    rw [listingFrom_eq, if_pos (lt_size_of_decodeAt hcode), List.findSome?_cons, List.findSome?_cons,
      fault?_entryAt hcode]
    rfl
  | @goes offset found rest hcode hrest ih =>
    rw [c.listingFrom_eq offset, if_pos (lt_size_of_decodeAt hcode), List.findSome?_cons,
      List.findSome?_cons, fault?_entryAt hcode, next_entryAt_of_ok hcode, ih]

/-- Validation reports the first fault that the listing shows. -/
theorem validationFault?_eq_findSome? (c : Chunk) :
    c.validationFault? = c.listing.findSome? (Entry.fault? c.poolSize) :=
  c.iterates_decode.findSome?_eq

/-- An entry of the listing marks a fault by its text exactly when it has one. -/
theorem isDiagnostic_iff_of_mem_listing {c : Chunk} {e : Entry} (h : e ∈ c.listing) :
    IsDiagnostic e.body.text ↔ e.fault? c.poolSize ≠ none := by
  obtain ⟨hentry, hcode⟩ := c.lists_listing.eq_entryAt_of_mem e h
  have hshows := shows_entryAt hcode
  rw [← hentry] at hshows
  rw [hshows.isDiagnostic_iff, Entry.fault?, ne_eq, ne_eq, Option.map_eq_none_iff]

/-- Validation and the two listings agree on what is wrong with a chunk. Behind its header the full
listing has the same entries as the compact one, each on a line of its own. The chunk is valid
exactly when the text of no entry marks a fault. If it is not valid, the first entry with such a
text stands at the offset of the fault that validation reports, and its text is the mark of that
fault: the byte that is no opcode, the missing operand, or the index that is not in the pool. -/
theorem validation_agrees_with_listing (c : Chunk) (name : String) :
    (Text.lines c.compactListing.toList = c.listing.map fun e =>
      (Text.zeroPadded 4 e.offset ++ ": " ++ e.body.text).toList) ∧
    (∃ lines, c.fullListing name = "== " ++ name ++ " ==\n" ++ lines ∧
      Text.lines lines.toList = c.listing.map fun e =>
        (Text.zeroPadded 4 e.offset ++ " " ++ e.lineColumn ++ " " ++ e.body.text).toList) ∧
    (c.validationFault? = none ↔ ∀ e ∈ c.listing, ¬ IsDiagnostic e.body.text) ∧
    ∀ fault, c.validationFault? = some fault →
      ∃ before e after, c.listing = before ++ e :: after ∧
        (∀ other ∈ before, ¬ IsDiagnostic other.body.text) ∧ IsDiagnostic e.body.text ∧
        e.offset = fault.offset ∧ e.body.text = fault.item.mark := by
  refine ⟨?_, ⟨_, c.fullListing_eq name, lines_linesOf Entry.isLine_full _⟩, ?_, ?_⟩
  · rw [compactListing_eq]
    exact lines_linesOf Entry.isLine_compact _
  · rw [validationFault?_eq_findSome?, List.findSome?_eq_none_iff]
    refine forall₂_congr fun e he => ?_
    rw [isDiagnostic_iff_of_mem_listing he, not_not]
  · intro fault hfault
    rw [validationFault?_eq_findSome?] at hfault
    obtain ⟨before, e, after, hlisting, he, hbefore⟩ := List.findSome?_eq_some_iff.mp hfault
    have hmem : e ∈ c.listing := by
      rw [hlisting]
      exact List.mem_append_right _ (List.mem_cons_self ..)
    obtain ⟨cause, hcause, rfl⟩ := Option.map_eq_some_iff.mp he
    refine ⟨before, e, after, hlisting, ?_, ?_, rfl, Body.text_of_fault? hcause⟩
    · intro other hother
      have hother' : other ∈ c.listing := by
        rw [hlisting]
        exact List.mem_append_left _ hother
      rw [isDiagnostic_iff_of_mem_listing hother', not_not]
      exact hbefore other hother
    · rw [isDiagnostic_iff_of_mem_listing hmem, he]
      exact Option.some_ne_none _

/-- Behind a return, and before a byte that is no opcode, the constant that is not in the pool is
the first entry with a mark. -/
theorem validation_agrees_with_listing_missing :
    ∃ c : Chunk, c.code = [1, 0, 7, 200] ∧ c.validationFault? = some ⟨1, 2, .constantOutOfRange 7 0⟩ ∧
      ∃ before e after, c.listing = before ++ e :: after ∧
        (∀ other ∈ before, ¬ IsDiagnostic other.body.text) ∧ e.offset = 1 ∧
        e.body.text = "OP_CONSTANT         7 <missing>" := by
  let c := (((Chunk.empty.writeOpcode .ret 1).writeOpcode .constant 2).write 7 2).write 200 3
  have hfault : c.validationFault? = some ⟨1, 2, .constantOutOfRange 7 0⟩ := by decide
  obtain ⟨-, -, -, hfirst⟩ := validation_agrees_with_listing c ""
  obtain ⟨before, e, after, hlisting, hbefore, -, hoffset, htext⟩ := hfirst _ hfault
  have hmark : ValidationCause.mark (.constantOutOfRange 7 0) = "OP_CONSTANT         7 <missing>" := by decide
  exact ⟨c, rfl, hfault, before, e, after, hlisting, hbefore, hoffset, htext.trans hmark⟩

end Chunk

end StackBytecode
