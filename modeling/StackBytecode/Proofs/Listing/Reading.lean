import StackBytecode.Proofs.Listing.Diagnosis
import StackBytecode.Proofs.Report.Recovery

/-!
# Listings are read back as code

A listing holds all of the code. Each entry is one line, and the words on it, behind those
of its place, tell the bytes that it accounts for: the mnemonic of an instruction, the index
behind the one of a constant, and the number of a byte that is no opcode. What the pool
holds at the index is one more word, whatever it is, since the text of a value has no blank
in it.

So a reader of listings gives the bytes of every entry, and as the entries cover the code
without a gap, it gives the code, however badly formed that is.
-/

namespace StackBytecode

/-- The opcode with a mnemonic. -/
def Opcode.ofMnemonic? (text : List Char) : Option Opcode :=
  all.find? fun op => op.mnemonic.toList == text

/-- An opcode is found under its mnemonic. -/
theorem Opcode.ofMnemonic?_mnemonic (op : Opcode) : ofMnemonic? op.mnemonic.toList = some op := by
  rcases op with _ | _ | f | _
  case arith => cases f <;> decide
  all_goals decide

/-- A byte is read from its numeral. -/
theorem readBelow?_repr_toNat (byte : UInt8) :
    Number.readBelow? UInt8.size byte.toNat.repr.toList = some byte.toNat := by
  rw [Nat.toList_repr]
  exact Number.readBelow?_toDigits byte.toNat_lt

namespace Listing

/-- The code bytes that a body accounts for. -/
def Body.bytes : Body → List UInt8
  | .constant index _ => [Opcode.constant.toByte, index]
  | .plain op => [op.toByte]
  | .unknown byte => [byte]
  | .truncated op => [op.toByte]
  | .pastEnd => []

/-- The words of a body. -/
def Body.words : Body → List (List Char)
  | .constant index value =>
    ["OP_CONSTANT".toList, index.toNat.repr.toList,
      match value with
      | some v => ("'" ++ v.text ++ "'").toList
      | none => "<missing>".toList]
  | .plain op => [op.mnemonic.toList]
  | .unknown byte => ["Unknown".toList, "opcode".toList, byte.toNat.repr.toList]
  | .truncated op => [op.mnemonic.toList, "<truncated>".toList]
  | .pastEnd => ["<end".toList, "of".toList, "chunk>".toList]

/-- The bytes that the words of a body stand for. -/
def readBytes : List (List Char) → List UInt8
  | [name] => ((Opcode.ofMnemonic? name).map Opcode.toByte).toList
  | [name, _] => ((Opcode.ofMnemonic? name).map Opcode.toByte).toList
  | [_, second, third] =>
    match Number.readBelow? UInt8.size second with
    | some index => [Opcode.constant.toByte, UInt8.ofNat index]
    | none => ((Number.readBelow? UInt8.size third).map UInt8.ofNat).toList
  | _ => []

/-- The bytes of a body are read from its words. -/
theorem readBytes_words (body : Body) : readBytes body.words = body.bytes := by
  cases body with
  | constant index value =>
    simp only [Body.words, readBytes, readBelow?_repr_toNat, UInt8.ofNat_toNat, Body.bytes]
  | plain op =>
    simp only [Body.words, readBytes, Opcode.ofMnemonic?_mnemonic, Option.map_some,
      Option.toList_some, Body.bytes]
  | unknown byte =>
    have hword : Number.readBelow? UInt8.size "opcode".toList = none := by decide
    simp only [Body.words, readBytes, hword, readBelow?_repr_toNat, Option.map_some,
      UInt8.ofNat_toNat, Option.toList_some, Body.bytes]
  | truncated op =>
    simp only [Body.words, readBytes, Opcode.ofMnemonic?_mnemonic, Option.map_some,
      Option.toList_some, Body.bytes]
  | pastEnd => decide

/-! ## The words on a line -/

/-- A word of a listing with a space behind it is the first word of a text. -/
theorem words_toList_append_space {word : String} (hne : word.toList ≠ [])
    (h : ∀ c ∈ word.toList, Text.IsPlain c) (text : String) :
    Text.words (word ++ " " ++ text).toList = word.toList :: Text.words text.toList := by
  have htext : (word ++ " " ++ text).toList = word.toList ++ ' ' :: text.toList := by
    simp [String.toList_append]
  rw [htext]
  exact Text.words_append_space hne h text.toList

/-- A value between quotes is one word. -/
theorem words_quoted (v : Value) :
    Text.words ("'" ++ v.text ++ "'").toList = [("'" ++ v.text ++ "'").toList] := by
  have hquote : ∀ c ∈ "'".toList, Text.IsPlain c := by decide
  refine Text.words_of_isPlain (by simp [String.toList_append]) ?_
  intro c hc
  rw [String.toList_append, List.mem_append, String.toList_append, List.mem_append] at hc
  rcases hc with (hc | hc) | hc
  · exact hquote c hc
  · exact v.isPlain_of_mem_text c hc
  · exact hquote c hc

/-- The text of a body has the words of the body. -/
theorem Body.words_text (body : Body) : Text.words body.text.toList = body.words := by
  cases body with
  | constant index value =>
    have hpadded : "OP_CONSTANT      ".toList = "OP_CONSTANT".toList ++ ' ' :: List.replicate 5 ' ' := by
      decide
    have hname (text : List Char) : Text.words ("OP_CONSTANT".toList ++ ' ' :: text) =
        "OP_CONSTANT".toList :: Text.words text :=
      Text.words_append_space (by decide) (by decide) text
    have hspace (text : List Char) : " ".toList ++ text = ' ' :: text := rfl
    rw [text_constant, String.toList_append, String.toList_append, String.toList_append, hpadded,
      List.append_assoc, List.append_assoc, List.append_assoc, List.cons_append, hname,
      Text.words_replicate_space_append, hspace, Text.words_spacePadded_append]
    cases value with
    | none => exact congrArg ("OP_CONSTANT".toList :: index.toNat.repr.toList :: ·) (by decide)
    | some v =>
      exact congrArg ("OP_CONSTANT".toList :: index.toNat.repr.toList :: ·) (words_quoted v)
  | plain op => exact Text.words_of_isPlain op.toList_mnemonic_ne_nil op.isPlain_of_mem_mnemonic
  | unknown byte =>
    have htext : (Body.unknown byte).text = "Unknown opcode " ++ byte.toNat.repr := rfl
    have hunknown : "Unknown opcode " = "Unknown" ++ " " ++ ("opcode" ++ " ") := by decide
    rw [htext, hunknown, String.append_assoc, words_toList_append_space (by decide) (by decide),
      words_toList_append_space (by decide) (by decide),
      Text.words_of_isPlain (Text.toList_repr_ne_nil _) Text.isPlain_of_mem_repr]
    rfl
  | truncated op =>
    have htext : (Body.truncated op).text = op.mnemonic ++ " <truncated>" := rfl
    have hmark : " <truncated>" = " " ++ "<truncated>" := by decide
    rw [htext, hmark, ← String.append_assoc,
      words_toList_append_space op.toList_mnemonic_ne_nil op.isPlain_of_mem_mnemonic]
    rfl
  | pastEnd => decide

/-- A padded numeral is not empty. -/
theorem zeroPadded_ne_nil (width n : Nat) : (Text.zeroPadded width n).toList ≠ [] := by
  rw [Text.zeroPadded, Text.padLeft, String.toList_ofList, List.leftpad]
  exact List.append_ne_nil_of_right_ne_nil _ (Text.toList_repr_ne_nil n)

/-- On the line of an entry in the compact listing, one word stands before those of its body. -/
theorem Entry.drop_words_compact (e : Entry) : (Text.words e.compact.toList).drop 1 = e.body.words := by
  have hcolon : ": " = ":" ++ " " := by decide
  have hcompact : e.compact = Text.zeroPadded 4 e.offset ++ ": " ++ e.body.text := rfl
  have hplain : ∀ c ∈ (Text.zeroPadded 4 e.offset ++ ":").toList, Text.IsPlain c := by
    intro c hc
    rw [String.toList_append, List.mem_append] at hc
    rcases hc with hc | hc
    · exact Text.isPlain_of_mem_zeroPadded c hc
    · exact (by decide : ∀ c ∈ ":".toList, Text.IsPlain c) c hc
  rw [hcompact, hcolon, ← String.append_assoc,
    words_toList_append_space (by simp [String.toList_append]) hplain, Body.words_text]
  rfl

/-- The word in the line column of an entry. -/
def Entry.columnWord (e : Entry) : List Char := if e.continued then ['|'] else e.line.toNat.repr.toList

/-- On the line of an entry in the full listing, the offset and the line column stand before the words
of its body. -/
theorem Entry.words_full (e : Entry) :
    Text.words e.full.toList = (Text.zeroPadded 4 e.offset).toList :: e.columnWord :: e.body.words := by
  have hcolumn (text : String) :
      Text.words (e.lineColumn ++ " " ++ text).toList = e.columnWord :: Text.words text.toList := by
    have htext (column : String) :
        (column ++ " " ++ text).toList = column.toList ++ ' ' :: text.toList := by
      simp [String.toList_append]
    rw [htext, lineColumn, columnWord]
    split
    case isTrue =>
      have hbar : "   |".toList = List.replicate 3 ' ' ++ ['|'] := by decide
      rw [hbar, List.append_assoc, Text.words_replicate_space_append]
      exact Text.words_append_space (by decide) (by decide) _
    case isFalse => exact Text.words_spacePadded_append 4 _ _
  have hfull : e.full = Text.zeroPadded 4 e.offset ++ " " ++ (e.lineColumn ++ " " ++ e.body.text) := by
    rw [full, ← String.append_assoc, ← String.append_assoc]
    rfl
  rw [hfull, words_toList_append_space (zeroPadded_ne_nil 4 _) Text.isPlain_of_mem_zeroPadded,
    hcolumn, Body.words_text]

/-- On the line of an entry in the full listing, two words stand before those of its body. -/
theorem Entry.drop_words_full (e : Entry) : (Text.words e.full.toList).drop 2 = e.body.words := by
  rw [words_full]
  rfl

/-- The code on the lines of a text, behind so many words on each of them. -/
def readCode (place : Nat) (text : String) : List UInt8 :=
  (Text.lines text.toList).flatMap fun line => readBytes ((Text.words line).drop place)

end Listing

namespace Chunk

open Listing

/-- What is shown at an offset accounts for the code there. -/
theorem Shows.code_drop {c : Chunk} {offset : Nat} {body : Body} (h : c.Shows offset body) :
    c.code.drop offset = body.bytes ++ c.code.drop (offset + body.size) := by
  have hcons {offset : Nat} {byte : UInt8} (hbyte : c.byte? offset = some byte) :
      c.code.drop offset = byte :: c.code.drop (offset + 1) := by
    rw [byte?_eq] at hbyte
    obtain ⟨hlt, rfl⟩ := List.getElem?_eq_some_iff.mp hbyte
    exact List.drop_eq_getElem_cons hlt
  cases h with
  | constant hbyte hoperand =>
    rw [hcons hbyte, hcons hoperand]
    rfl
  | plain hop hbyte => exact hcons hbyte
  | unknown hbyte hhigh => exact hcons hbyte
  | truncated hbyte hlast => exact hcons hbyte

/-- Entries one behind the other, until the end of the code, account for all of it. -/
theorem Lists.code_drop {c : Chunk} {offset : Nat} {entries : List Entry} (h : c.Lists offset entries) :
    c.code.drop offset = entries.flatMap fun e => e.body.bytes := by
  induction h with
  | ends hend => exact List.drop_of_length_le (c.length_code.trans_le hend)
  | @goes offset rest hcode hrest ih =>
    rw [(shows_entryAt hcode).code_drop, List.flatMap_cons, ← ih, Entry.next, offset_entryAt]

/-- Code is read from the lines of a listing, if the words of its bodies stand behind the same number
of words on each. -/
theorem readCode_linesOf {place : Nat} {text : Entry → String} (hline : ∀ e, Text.IsLine (text e))
    (hwords : ∀ e, (Text.words (text e).toList).drop place = e.body.words) (c : Chunk) :
    readCode place (linesOf text c.listing) = c.code := by
  have hcode : c.code = c.listing.flatMap fun e => e.body.bytes := c.lists_listing.code_drop
  rw [readCode, lines_linesOf hline, List.flatMap_map, hcode]
  simp only [hwords, readBytes_words]

/-- A listing determines the code. Whatever the bytes, the lines and the constants of two chunks are, if
their compact listings are the same then so is their code, and likewise if their full listings
under one name are the same. -/
theorem listing_determines_code (c d : Chunk) :
    (c.compactListing = d.compactListing → c.code = d.code) ∧
      ∀ name, c.fullListing name = d.fullListing name → c.code = d.code := by
  constructor
  · intro h
    have hread (c : Chunk) : readCode 1 c.compactListing = c.code := by
      rw [compactListing_eq]
      exact readCode_linesOf Entry.isLine_compact Entry.drop_words_compact c
    rw [← hread c, h, hread d]
  · intro name h
    rw [fullListing_eq, fullListing_eq, String.append_right_inj] at h
    have hread := readCode_linesOf Entry.isLine_full Entry.drop_words_full
    rw [← hread c, h, hread d]

/-- Lines and constants are not told by a listing: here the compact ones are the same, of a byte that
is no opcode, a constant that is in neither pool, and an opcode without its operand. -/
theorem listing_determines_code_malformed :
    ∃ c d : Chunk, c.lines ≠ d.lines ∧ c.poolSize ≠ d.poolSize ∧
      c.compactListing = d.compactListing ∧ c.code = [200, 0, 5, 0] ∧ c.code = d.code := by
  let c := (((Chunk.empty.write 200 1).writeOpcode .constant 2).write 5 2).writeOpcode .constant 2
  let d := ((((Chunk.empty.write 200 7).writeOpcode .constant 7).write 5 8).writeOpcode .constant
    9).addConstant (Value.ofNat 1)
  have hsame : c.compactListing = d.compactListing := by decide
  exact ⟨c, d, by decide, by decide, hsame, rfl, (listing_determines_code c d).1 hsame⟩

end Chunk

end StackBytecode
