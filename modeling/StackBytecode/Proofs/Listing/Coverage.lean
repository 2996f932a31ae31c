import Mathlib.Data.List.Chain
import Mathlib.Logic.ExistsUnique
import StackBytecode.Listing
import StackBytecode.Proofs.Decoding.Tiling
import StackBytecode.Proofs.Text.Words

/-!
# Listings cover the code

A listing goes on where decoding stops. What an entry shows at an offset in the code is one
of four things, and each of them tells by the bytes there how far the next entry is: two
offsets behind a constant with its operand, and one offset behind anything else. So entries
follow each other without a gap from the start of the code to its end, and up to the first
fault they stand where decoding finds instructions.

The full listing is also what calls of `listAt` write, one after the other, as long as the
offset lies in the code. The compact one is written by decoding at each offset and stopping
at an operand that is missing. The two ways of going through the code are stated here as
relations; both end, and both come to the entries of the listing.
-/

namespace StackBytecode

namespace Listing

/-- An entry accounts for as many bytes as the instruction that it shows. -/
theorem Body.size_of_ok (pool : Buffer Value) (found : Placed Instruction) :
    (Body.of pool (.ok found)).size = found.item.size := by
  obtain ⟨offset, line, i⟩ := found
  cases i <;> rfl

/-- A fault takes up one byte. -/
theorem Body.size_of_error (pool : Buffer Value) (fault : DecodeFault) :
    (Body.of pool (.error fault)).size = 1 := by
  obtain ⟨offset, line, cause⟩ := fault
  cases cause <;> rfl

end Listing

namespace Chunk

open Listing

/-! ## Entries offset by offset -/

/-- The entry at an offset shows what stands there. -/
theorem body_entryAt {c : Chunk} {offset : Nat} {found : Decoding.Found}
    (h : c.decodeAt offset = some found) : (c.entryAt offset).body = .of c.pool found := by
  obtain ⟨cell, hcell, rfl⟩ := Option.map_eq_some_iff.mp h
  rw [entryAt, hcell]
  rfl

/-- The entry at an offset has that offset. -/
@[simp] theorem offset_entryAt (c : Chunk) (offset : Nat) : (c.entryAt offset).offset = offset := by
  rw [entryAt]
  cases c.cells.get? offset <;> rfl

/-- The entry at an offset in the code has the line of the byte there. -/
theorem line_entryAt {c : Chunk} {offset : Nat} {line : UInt32} (h : c.line? offset = some line) :
    (c.entryAt offset).line = line := by
  obtain ⟨cell, hcell, rfl⟩ := Option.map_eq_some_iff.mp h
  rw [entryAt, hcell]
  rfl

/-- Something stands only at offsets in the code. -/
theorem lt_size_of_decodeAt {c : Chunk} {offset : Nat} {found : Decoding.Found}
    (h : c.decodeAt offset = some found) : offset < c.size := by
  rw [← Nat.not_le, ← decodeAt_eq_none_iff, h]
  exact Option.some_ne_none _

/-- Something stands at every offset in the code. -/
theorem exists_decodeAt {c : Chunk} {offset : Nat} (h : offset < c.size) :
    ∃ found, c.decodeAt offset = some found := by
  rw [← Option.isSome_iff_exists, Option.isSome_iff_ne_none, ne_eq, decodeAt_eq_none_iff]
  exact Nat.not_le.mpr h

/-- The entry behind an instruction is where decoding goes on. -/
theorem next_entryAt_of_ok {c : Chunk} {offset : Nat} {found : Placed Instruction}
    (h : c.decodeAt offset = some (.ok found)) :
    (c.entryAt offset).next = offset + found.item.size := by
  rw [Entry.next, offset_entryAt, body_entryAt h, Body.size_of_ok]

/-- The entry behind a fault begins with the next byte. -/
theorem next_entryAt_of_error {c : Chunk} {offset : Nat} {fault : DecodeFault}
    (h : c.decodeAt offset = some (.error fault)) : (c.entryAt offset).next = offset + 1 := by
  rw [Entry.next, offset_entryAt, body_entryAt h, Body.size_of_error]

/-- An opcode that misses its operand is the last byte. -/
theorem size_le_of_truncated {c : Chunk} {offset start : Nat} {line : UInt32} {op : Opcode}
    (h : c.decodeAt offset = some (.error ⟨start, line, .truncatedOperand op⟩)) :
    c.size ≤ offset + 1 := by
  obtain ⟨-, hlast, -⟩ := (truncatedOperand_iff h op).mp rfl
  rw [← length_code, hlast]

/-- What the bytes at an offset are shown as. -/
inductive Shows (c : Chunk) (offset : Nat) : Body → Prop
  | constant {index : UInt8} (hbyte : c.byte? offset = some 0)
      (hoperand : c.byte? (offset + 1) = some index) :
      Shows c offset (.constant index (c.constant? index.toNat))
  | plain {op : Opcode} (hop : op ≠ .constant) (hbyte : c.byte? offset = some op.toByte) :
      Shows c offset (.plain op)
  | unknown {byte : UInt8} (hbyte : c.byte? offset = some byte) (hhigh : 7 ≤ byte.toNat) :
      Shows c offset (.unknown byte)
  | truncated (hbyte : c.byte? offset = some 0) (hlast : offset + 1 = c.size) :
      Shows c offset (.truncated .constant)

/-- Every entry at an offset in the code shows the bytes there. -/
theorem shows_entryAt {c : Chunk} {offset : Nat} (h : offset < c.size) :
    c.Shows offset (c.entryAt offset).body := by
  obtain ⟨found, hfound⟩ := exists_decodeAt h
  rw [body_entryAt hfound]
  cases found with
  | error fault =>
    obtain ⟨-, -, hcause⟩ := decodeAt_eq_error_iff.mp hfound
    obtain ⟨start, line, cause⟩ := fault
    rcases hcause with ⟨byte, rfl, hbyte, hhigh⟩ | ⟨rfl, hbyte, hlast⟩
    · exact .unknown hbyte hhigh
    · exact .truncated hbyte hlast
  | ok found =>
    obtain ⟨-, -, tail, htail⟩ := decodeAt_eq_ok_iff.mp hfound
    obtain ⟨start, line, i⟩ := found
    have hbyte : c.byte? offset = some i.opcode.toByte := by
      rw [byte?_eq, ← List.head?_drop, ← htail]
      rfl
    cases i with
    | constant index =>
      refine .constant hbyte ?_
      rw [byte?_eq, ← List.head?_drop, ← List.tail_drop, ← htail]
      rfl
    | ret => exact .plain Opcode.noConfusion hbyte
    | arith f => exact .plain Opcode.noConfusion hbyte
    | negate => exact .plain Opcode.noConfusion hbyte

/-- The number of bytes that an entry accounts for at an offset in the code: two for a constant with
its operand, and one for anything else. -/
def span (c : Chunk) (offset : Nat) : Nat :=
  if c.byte? offset = some 0 ∧ offset + 1 < c.size then 2 else 1

/-- An entry accounts for as many bytes as the code there says. -/
theorem next_entryAt {c : Chunk} {offset : Nat} (h : offset < c.size) :
    (c.entryAt offset).next = offset + c.span offset := by
  have hshows := shows_entryAt h
  rw [Entry.next, offset_entryAt, span]
  generalize (c.entryAt offset).body = body at hshows
  cases hshows with
  | constant hbyte hoperand =>
    have hlt : offset + 1 < c.size := by
      obtain ⟨cell, hcell, -⟩ := Option.map_eq_some_iff.mp hoperand
      exact Buffer.lt_size_of_get?_eq_some hcell
    rw [if_pos ⟨hbyte, hlt⟩]
    rfl
  | @plain op hop hbyte =>
    have hnonzero : op.toByte ≠ 0 := by
      rcases op with _ | _ | f | _
      case constant => exact absurd rfl hop
      case arith => cases f <;> decide
      all_goals decide
    rw [if_neg fun hzero => hnonzero (Option.some.inj (hbyte.symm.trans hzero.1))]
    rfl
  | @unknown byte hbyte hhigh =>
    have hnonzero : byte ≠ 0 := by
      rintro rfl
      exact absurd hhigh (by decide)
    rw [if_neg fun hzero => hnonzero (Option.some.inj (hbyte.symm.trans hzero.1))]
    rfl
  | truncated hbyte hlast =>
    rw [if_neg fun hmore => absurd hmore.2 (by omega)]
    rfl

/-- An entry at an offset in the code leads on, and not past the end. -/
theorem lt_next_entryAt {c : Chunk} {offset : Nat} (h : offset < c.size) :
    offset < (c.entryAt offset).next ∧ (c.entryAt offset).next ≤ c.size := by
  rw [next_entryAt h, span]
  split <;> omega

/-- The entries from an offset on. -/
def listingFrom (c : Chunk) (offset : Nat) : List Entry :=
  walk c.pool offset (c.lineBefore? offset) 0 (c.cells.toList.drop offset)

/-- The first of the cells from an offset on is the one there, and the others are those from the next
offset on. -/
theorem get?_of_drop_eq_cons {c : Chunk} {offset : Nat} {cell : Cell} {rest : List Cell}
    (h : c.cells.toList.drop offset = cell :: rest) :
    c.cells.get? offset = some cell ∧ rest = c.cells.toList.drop (offset + 1) := by
  rw [Buffer.get?_eq, ← List.head?_drop, ← List.tail_drop, h]
  exact ⟨rfl, rfl⟩

/-- Passing over cells is starting behind them. -/
theorem walk_drop (c : Chunk) (offset passed : Nat) :
    walk c.pool offset (c.lineBefore? offset) passed (c.cells.toList.drop offset) =
      c.listingFrom (offset + passed) := by
  induction passed generalizing offset with
  | zero => rfl
  | succ passed ih =>
    cases hcells : c.cells.toList.drop offset with
    | nil =>
      have hrest : c.cells.toList.drop (offset + (passed + 1)) = [] := by
        rw [← List.drop_drop, hcells, List.drop_nil]
      rw [listingFrom, hrest, walk, walk]
    | cons cell rest =>
      obtain ⟨hcell, rfl⟩ := get?_of_drop_eq_cons hcells
      have hline : c.lineBefore? (offset + 1) = some cell.line := by rw [lineBefore?, line?, hcell]; rfl
      rw [walk, ← hline, ih, Nat.add_assoc, Nat.add_comm 1]

/-- The entries from an offset on are the one there and those from the offset behind it on. -/
theorem listingFrom_eq (c : Chunk) (offset : Nat) :
    c.listingFrom offset =
      if offset < c.size then c.entryAt offset :: c.listingFrom (c.entryAt offset).next else [] := by
  cases hcells : c.cells.toList.drop offset with
  | nil =>
    have hend : c.size ≤ offset := by
      rw [List.drop_eq_nil_iff, Buffer.length_toList] at hcells
      exact hcells
    rw [if_neg (Nat.not_lt.mpr hend), listingFrom, hcells, walk]
  | cons cell rest =>
    obtain ⟨hcell, rfl⟩ := get?_of_drop_eq_cons hcells
    have hcode : offset < c.size := Buffer.lt_size_of_get?_eq_some hcell
    have hline : c.lineBefore? (offset + 1) = some cell.line := by rw [lineBefore?, line?, hcell]; rfl
    have hentry : entry c.pool offset (c.lineBefore? offset) cell (c.cells.toList.drop (offset + 1)).head? =
        c.entryAt offset := by
      rw [List.head?_drop, ← Buffer.get?_eq, entryAt, hcell]
    have hnext : offset + 1 + ((c.entryAt offset).body.size - 1) = (c.entryAt offset).next := by
      have hlead := (lt_next_entryAt hcode).1
      rw [Entry.next, offset_entryAt] at hlead ⊢
      omega
    rw [if_pos hcode, listingFrom, hcells, walk]
    simp only [hentry]
    rw [← hline, walk_drop, hnext]

/-- Entries that are shown one behind the other, from an offset on until the end of the code. -/
inductive Lists (c : Chunk) : Nat → List Entry → Prop
  | ends {offset : Nat} (hend : c.size ≤ offset) : Lists c offset []
  | goes {offset : Nat} {rest : List Entry} (hcode : offset < c.size)
      (hrest : Lists c (c.entryAt offset).next rest) : Lists c offset (c.entryAt offset :: rest)

/-- The entries from an offset on are shown one behind the other. -/
theorem lists_listingFrom (c : Chunk) (offset : Nat) : c.Lists offset (c.listingFrom offset) := by
  have hfrom := c.listingFrom_eq offset
  generalize c.listingFrom offset = entries at hfrom
  induction entries generalizing offset with
  | nil =>
    split at hfrom
    case isTrue => cases hfrom
    case isFalse hend => exact .ends (Nat.le_of_not_lt hend)
  | cons e rest ih =>
    split at hfrom
    case isTrue hcode =>
      obtain ⟨rfl, hrest⟩ := List.cons.inj hfrom
      exact .goes hcode (ih _ (hrest.trans (c.listingFrom_eq _)))
    case isFalse => cases hfrom

/-- The entries of a listing are shown from the start of the code on. -/
theorem lists_listing (c : Chunk) : c.Lists 0 c.listing := c.lists_listingFrom 0

/-- The first entry is the one at the first offset. -/
theorem Lists.offset_head {c : Chunk} {offset : Nat} {entries : List Entry} (h : c.Lists offset entries) :
    ∀ e ∈ entries.head?, e.offset = offset := by
  cases h with
  | ends hend => simp
  | goes hcode hrest => simp

/-- Every entry is the one at its offset, which lies in the code. -/
theorem Lists.eq_entryAt_of_mem {c : Chunk} {offset : Nat} {entries : List Entry}
    (h : c.Lists offset entries) : ∀ e ∈ entries, e = c.entryAt e.offset ∧ e.offset < c.size := by
  induction h with
  | ends hend => simp
  | goes hcode hrest ih =>
    refine List.forall_mem_cons.mpr ⟨?_, ih⟩
    rw [offset_entryAt]
    exact ⟨rfl, hcode⟩

/-- Each entry begins where the one before it ends. -/
theorem Lists.isChain {c : Chunk} {offset : Nat} {entries : List Entry} (h : c.Lists offset entries) :
    entries.IsChain fun e f => f.offset = e.offset + c.span e.offset := by
  induction h with
  | ends hend => exact List.IsChain.nil
  | goes hcode hrest ih =>
    rw [List.isChain_cons]
    refine ⟨?_, ih⟩
    intro f hf
    rw [hrest.offset_head f hf, offset_entryAt, next_entryAt hcode]

/-- The last entry ends where the code does. -/
theorem Lists.end_getLast {c : Chunk} {offset : Nat} {entries : List Entry} (h : c.Lists offset entries) :
    ∀ e ∈ entries.getLast?, e.offset + c.span e.offset = c.size := by
  induction h with
  | ends hend => simp
  | @goes offset rest hcode hrest ih =>
    cases hrest with
    | ends hend =>
      -- the entry leads to the end, and not past it
      have hlast : (c.entryAt offset).next = c.size := Nat.le_antisymm (lt_next_entryAt hcode).2 hend
      intro e he
      obtain rfl : c.entryAt offset = e := Option.some.inj he
      rw [offset_entryAt, ← next_entryAt hcode, hlast]
    | goes hcode' hrest' =>
      rw [List.getLast?_cons_cons]
      exact ih

/-- No entry begins before the first offset. -/
theorem Lists.le_offset_of_mem {c : Chunk} {offset : Nat} {entries : List Entry}
    (h : c.Lists offset entries) : ∀ e ∈ entries, offset ≤ e.offset := by
  induction h with
  | ends hend => simp
  | goes hcode hrest ih =>
    rw [List.forall_mem_cons, offset_entryAt]
    exact ⟨Nat.le_refl _, fun e he => (lt_next_entryAt hcode).1.le.trans (ih e he)⟩

/-- Every byte from the first offset on belongs to exactly one entry. -/
theorem Lists.existsUnique {c : Chunk} {offset : Nat} {entries : List Entry} (h : c.Lists offset entries)
    {k : Nat} (hfirst : offset ≤ k) (hk : k < c.size) :
    ∃! e, e ∈ entries ∧ e.offset ≤ k ∧ k < e.offset + c.span e.offset := by
  induction h with
  | ends hend => omega
  | @goes offset rest hcode hrest ih =>
    have hnext := next_entryAt hcode
    rcases Nat.lt_or_ge k (c.entryAt offset).next with hlt | hge
    · refine ⟨c.entryAt offset, ?_, ?_⟩
      · rw [hnext] at hlt
        simpa using And.intro hfirst hlt
      · intro e he
        obtain ⟨hmem, hle, -⟩ := he
        rcases List.mem_cons.mp hmem with rfl | hmem
        · rfl
        · exact absurd (hrest.le_offset_of_mem e hmem) (by omega)
    · obtain ⟨e, ⟨hmem, hbytes⟩, hunique⟩ := ih hge
      refine ⟨e, ⟨List.mem_cons_of_mem _ hmem, hbytes⟩, ?_⟩
      intro f hf
      obtain ⟨hmem', hle, hlt⟩ := hf
      rcases List.mem_cons.mp hmem' with rfl | hmem'
      · rw [offset_entryAt, ← hnext] at hlt
        omega
      · exact hunique f ⟨hmem', hle, hlt⟩

/-- Up to where decoding comes, the entries are those at the offsets of its instructions. -/
theorem Reads.listingFrom_eq {c : Chunk} {offset stop : Nat} {found : List (Placed Instruction)}
    (h : c.Reads offset found stop) :
    c.listingFrom offset = (found.map fun p => c.entryAt p.offset) ++ c.listingFrom stop := by
  induction h with
  | stays => rfl
  | @goes offset stop first rest hcode hrest ih =>
    rw [Chunk.listingFrom_eq, if_pos (lt_size_of_decodeAt hcode), next_entryAt_of_ok hcode, ih,
      List.map_cons, List.cons_append, (decodeAt_eq_ok_iff.mp hcode).1]

/-- The entries at the offsets of the instructions are the first ones of the listing. -/
theorem map_entryAt_prefix_listing (c : Chunk) :
    (c.instructions.map fun p => c.entryAt p.offset) <+: c.listing := by
  obtain ⟨stop, hreads, -⟩ := c.reads_instructions
  exact ⟨c.listingFrom stop, hreads.listingFrom_eq.symm⟩

/-! ## The texts of the two listings -/

/-- The lines of entries, where `text` tells what is on a line. -/
def linesOf (text : Entry → String) (entries : List Entry) : String :=
  String.join (entries.map fun e => text e ++ "\n")

@[simp] theorem linesOf_nil (text : Entry → String) : linesOf text [] = "" := rfl

theorem linesOf_cons (text : Entry → String) (e : Entry) (rest : List Entry) :
    linesOf text (e :: rest) = text e ++ "\n" ++ linesOf text rest := by
  rw [linesOf, List.map_cons, String.join_cons, linesOf]

/-- Writing entries one after the other writes their lines. -/
theorem foldl_eq_linesOf (text : Entry → String) (entries : List Entry) (out : String) :
    entries.foldl (fun out e => out ++ text e ++ "\n") out = out ++ linesOf text entries := by
  rw [linesOf, ← Text.foldl_append_eq_join]
  simp only [String.append_assoc]

/-- The full listing is its header and the lines of the entries. -/
theorem fullListing_eq (c : Chunk) (name : String) :
    c.fullListing name = "== " ++ name ++ " ==\n" ++ linesOf Entry.full c.listing :=
  foldl_eq_linesOf Entry.full c.listing _

/-- The compact listing is the lines of the entries. -/
theorem compactListing_eq (c : Chunk) : c.compactListing = linesOf Entry.compact c.listing := by
  rw [compactListing, foldl_eq_linesOf, String.empty_append]

/-- From an offset on, calling `listAt` as long as the offset lies in the code turns a text into
another. -/
inductive ListsFully (c : Chunk) : Nat → String → String → Prop
  | ends {offset : Nat} {out : String} (hend : ¬ offset < c.size) : ListsFully c offset out out
  | calls {offset : Nat} {out final : String} (hcode : offset < c.size)
      (hrest : ListsFully c (c.listAt offset out).2 (c.listAt offset out).1 final) :
      ListsFully c offset out final

/-- From an offset on, decoding at one offset after the other turns a text into another: it goes on
behind an instruction and behind a byte that is no opcode, and breaks off at an opcode that misses
its operand. -/
inductive ListsCompactly (c : Chunk) : Nat → String → String → Prop
  | ends {offset : Nat} {out : String} (hcode : c.decodeAt offset = none) :
      ListsCompactly c offset out out
  | shows {offset : Nat} {out final : String} {found : Placed Instruction}
      (hcode : c.decodeAt offset = some (.ok found))
      (hrest : ListsCompactly c (offset + found.item.size)
        (out ++ (Text.zeroPadded 4 offset ++ ": " ++ (Body.of c.pool (.ok found)).text ++ "\n")) final) :
      ListsCompactly c offset out final
  | skips {offset start : Nat} {out final : String} {line : UInt32} {byte : UInt8}
      (hcode : c.decodeAt offset = some (.error ⟨start, line, .unknownOpcode byte⟩))
      (hrest : ListsCompactly c (offset + 1)
        (out ++ (Text.zeroPadded 4 offset ++ ": " ++ ("Unknown opcode " ++ byte.toNat.repr) ++ "\n"))
        final) :
      ListsCompactly c offset out final
  | breaks {offset start : Nat} {out : String} {line : UInt32} {op : Opcode}
      (hcode : c.decodeAt offset = some (.error ⟨start, line, .truncatedOperand op⟩)) :
      ListsCompactly c offset out
        (out ++ (Text.zeroPadded 4 offset ++ ": " ++ (op.mnemonic ++ " <truncated>") ++ "\n"))

/-- The line of the entry at an offset in the compact listing shows what is found there. -/
theorem compact_entryAt {c : Chunk} {offset : Nat} {found : Decoding.Found}
    (h : c.decodeAt offset = some found) :
    (c.entryAt offset).compact = Text.zeroPadded 4 offset ++ ": " ++ (Body.of c.pool found).text := by
  have hcompact (e : Entry) : e.compact = Text.zeroPadded 4 e.offset ++ ": " ++ e.body.text := rfl
  rw [hcompact, offset_entryAt, body_entryAt h]

/-- Calls of `listAt` end, and write the lines of the entries from the first offset on. -/
theorem listsFully_iff {c : Chunk} {offset : Nat} {out final : String} :
    c.ListsFully offset out final ↔ final = out ++ linesOf Entry.full (c.listingFrom offset) := by
  constructor
  · intro h
    induction h with
    | ends hend => rw [listingFrom_eq, if_neg hend, linesOf_nil, String.append_empty]
    | @calls offset out final hcode hrest ih =>
      rw [ih, c.listingFrom_eq offset, if_pos hcode, linesOf_cons]
      simp only [listAt, String.append_assoc]
  · rintro rfl
    have hlists := c.lists_listingFrom offset
    generalize c.listingFrom offset = entries at hlists
    induction hlists generalizing out with
    | ends hend =>
      rw [linesOf_nil, String.append_empty]
      exact .ends (Nat.not_lt.mpr hend)
    | goes hcode hrest ih =>
      refine .calls hcode ?_
      rw [linesOf_cons, ← String.append_assoc, ← String.append_assoc]
      exact ih

/-- Decoding at one offset after the other ends, and writes the lines of the entries from the first
offset on. -/
theorem listsCompactly_iff {c : Chunk} {offset : Nat} {out final : String} :
    c.ListsCompactly offset out final ↔ final = out ++ linesOf Entry.compact (c.listingFrom offset) := by
  have hstep {offset : Nat} {found : Decoding.Found} (hcode : c.decodeAt offset = some found) :
      linesOf Entry.compact (c.listingFrom offset) =
        Text.zeroPadded 4 offset ++ ": " ++ (Body.of c.pool found).text ++ "\n" ++
          linesOf Entry.compact (c.listingFrom (c.entryAt offset).next) := by
    rw [c.listingFrom_eq offset, if_pos (lt_size_of_decodeAt hcode), linesOf_cons,
      compact_entryAt hcode]
  have hend {offset : Nat} (hend : c.size ≤ offset) : linesOf Entry.compact (c.listingFrom offset) = "" := by
    rw [listingFrom_eq, if_neg (Nat.not_lt.mpr hend), linesOf_nil]
  constructor
  · intro h
    induction h with
    | ends hcode => rw [hend (decodeAt_eq_none_iff.mp hcode), String.append_empty]
    | shows hcode hrest ih =>
      rw [ih, String.append_assoc, hstep hcode, next_entryAt_of_ok hcode]
    | skips hcode hrest ih =>
      rw [ih, String.append_assoc, hstep hcode, next_entryAt_of_error hcode]
      rfl
    | breaks hcode =>
      rw [hstep hcode, next_entryAt_of_error hcode, hend (size_le_of_truncated hcode), String.append_empty]
      rfl
  · rintro rfl
    have hlists := c.lists_listingFrom offset
    generalize c.listingFrom offset = entries at hlists
    induction hlists generalizing out with
    | ends hend =>
      rw [linesOf_nil, String.append_empty]
      exact .ends (decodeAt_eq_none_iff.mpr hend)
    | @goes offset rest hcode hrest ih =>
      obtain ⟨found, hfound⟩ := exists_decodeAt hcode
      rw [linesOf_cons, compact_entryAt hfound, ← String.append_assoc]
      cases found with
      | ok found =>
        rw [next_entryAt_of_ok hfound] at ih
        exact .shows hfound ih
      | error fault =>
        obtain ⟨start, line, cause⟩ := fault
        rw [next_entryAt_of_error hfound] at ih hrest
        cases cause with
        | unknownOpcode byte => exact .skips hfound ih
        | truncatedOperand op =>
          -- the opcode stands at the last offset, so nothing is left to list
          cases hrest with
          | ends hend =>
            rw [linesOf_nil, String.append_empty]
            exact .breaks hfound
          | goes hcode' hrest' => exact absurd hcode' (Nat.not_lt.mpr (size_le_of_truncated hfound))

/-- Both listings write out the same entries, and these cover the code. The texts are those that the
two ways of going through the code come to, which both end. An entry shows the bytes at its
offset; the first one stands at offset zero, each of them begins where the one before it ends, two
offsets further behind a constant with its operand and one behind anything else, and the last one
ends where the code does. So every byte belongs to exactly one entry. The offsets of the
instructions before the first fault are the first ones of the listing. -/
theorem listings_cover_code (c : Chunk) (name : String) :
    ∃ entries : List Entry,
      c.compactListing = String.join (entries.map fun e =>
        Text.zeroPadded 4 e.offset ++ ": " ++ e.body.text ++ "\n") ∧
      c.fullListing name = "== " ++ name ++ " ==\n" ++ String.join (entries.map fun e =>
        Text.zeroPadded 4 e.offset ++ " " ++ e.lineColumn ++ " " ++ e.body.text ++ "\n") ∧
      (∀ text, c.ListsCompactly 0 "" text ↔ text = c.compactListing) ∧
      (∀ text, c.ListsFully 0 ("== " ++ name ++ " ==\n") text ↔ text = c.fullListing name) ∧
      (∀ e ∈ entries, e = c.entryAt e.offset ∧ c.Shows e.offset e.body) ∧
      (∀ e ∈ entries.head?, e.offset = 0) ∧
      (entries.IsChain fun e f => f.offset = e.offset + c.span e.offset) ∧
      (∀ e ∈ entries.getLast?, e.offset + c.span e.offset = c.size) ∧
      (∀ k < c.size, ∃! e, e ∈ entries ∧ e.offset ≤ k ∧ k < e.offset + c.span e.offset) ∧
      c.instructionOffsets <+: entries.map Entry.offset := by
  have hlists := c.lists_listing
  refine ⟨c.listing, c.compactListing_eq, c.fullListing_eq name, fun text => ?_, fun text => ?_,
    fun e he => ?_, hlists.offset_head, hlists.isChain, hlists.end_getLast,
    fun k hk => hlists.existsUnique (Nat.zero_le k) hk, ?_⟩
  · rw [listsCompactly_iff, compactListing_eq, String.empty_append]
    rfl
  · rw [listsFully_iff, fullListing_eq]
    rfl
  · obtain ⟨hentry, hcode⟩ := hlists.eq_entryAt_of_mem e he
    have hshows := shows_entryAt hcode
    rw [← hentry] at hshows
    exact ⟨hentry, hshows⟩
  · have hprefix := c.map_entryAt_prefix_listing.map Entry.offset
    rw [List.map_map] at hprefix
    simpa [Function.comp_def, instructionOffsets] using hprefix

end Chunk

end StackBytecode
