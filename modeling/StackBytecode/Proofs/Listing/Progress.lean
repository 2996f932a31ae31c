import StackBytecode.Proofs.Listing.Lines

/-!
# Listing at any offset

A call of `listAt` need not be at an offset where an instruction begins, nor at one in the code.
Wherever it is, it writes one line behind the text that it is given, and that text decides neither
the line nor the offset that the call tells. At an offset in the code the offset told is greater and
not past the end; at any other it is the same again.

So calls one behind the other come to the end of the code. They write the entries of the listing
from the first offset on, one call for each, and there are no more entries than bytes.
-/

namespace StackBytecode

namespace Text

/-- A text of one line, which ends in a line feed and has no other. -/
def IsWrittenLine (text : String) : Prop := ∃ line, text = line ++ "\n" ∧ '\n' ∉ line.toList

/-- What stays on one line is a written line with a line feed behind it. -/
theorem IsLine.isWrittenLine {text : String} (h : IsLine text) : IsWrittenLine (text ++ "\n") := by
  refine ⟨text, rfl, ?_⟩
  intro hmem
  exact (h.ne_newline '\n' hmem).1 rfl

end Text

namespace Chunk

open Listing

/-! ## One call -/

/-- A call writes the entry at its offset, and tells the offset behind that entry. -/
theorem listAt_eq (c : Chunk) (offset : Nat) (out : String) :
    c.listAt offset out = (out ++ ((c.entryAt offset).full ++ "\n"), (c.entryAt offset).next) := by
  rw [listAt, String.append_assoc]

/-- An entry outside of the code leads nowhere. -/
theorem next_entryAt_of_size_le {c : Chunk} {offset : Nat} (h : c.size ≤ offset) :
    (c.entryAt offset).next = offset := by
  have hcell : c.cells.get? offset = none := Buffer.get?_eq_none_iff.mpr h
  rw [entryAt, hcell]
  rfl

/-! ## Calls one behind the other -/

/-- As many calls of `listAt` as are asked for, each at the offset that the one before it tells. -/
def listCalls (c : Chunk) : Nat → Nat → String → String × Nat
  | 0, offset, out => (out, offset)
  | calls + 1, offset, out => c.listCalls calls (c.listAt offset out).2 (c.listAt offset out).1

/-- There are no more entries than bytes from the first offset on. -/
theorem Lists.length_le {c : Chunk} {offset : Nat} {entries : List Entry} (h : c.Lists offset entries) :
    entries.length ≤ c.size - offset := by
  induction h with
  | ends hend => exact Nat.zero_le _
  | goes hcode hrest ih =>
    have hlead := lt_next_entryAt hcode
    rw [List.length_cons]
    omega

/-- As long as entries are left, the next call is at an offset in the code. -/
theorem Lists.listCalls_lt_size {c : Chunk} {offset : Nat} {entries : List Entry}
    (h : c.Lists offset entries) (out : String) {calls : Nat} (hcalls : calls < entries.length) :
    (c.listCalls calls offset out).2 < c.size := by
  induction h generalizing out calls with
  | ends hend => exact absurd hcalls (Nat.not_lt_zero _)
  | goes hcode hrest ih =>
    cases calls with
    | zero => exact hcode
    | succ calls => exact ih _ (Nat.lt_of_succ_lt_succ hcalls)

/-- One call for each entry writes them all, and comes to the end of the code. -/
theorem Lists.listCalls_length {c : Chunk} {offset : Nat} {entries : List Entry}
    (h : c.Lists offset entries) (out : String) :
    c.listCalls entries.length offset out =
      (out ++ linesOf Entry.full entries, max offset c.size) := by
  induction h generalizing out with
  | ends hend =>
    rw [List.length_nil, listCalls, linesOf_nil, String.append_empty, Nat.max_eq_left hend]
  | @goes offset rest hcode hrest ih =>
    -- neither the entry nor its offset lies past the end, so the end is where both lead
    have hlead := lt_next_entryAt hcode
    have hend : max (c.entryAt offset).next c.size = max offset c.size := by omega
    rw [List.length_cons, listCalls, listAt_eq, ih, hend, linesOf_cons, String.append_assoc]

/-- A call at any offset writes one line behind the text that it is given, whatever that text is. In
the code it tells a greater offset that is not past the end, and elsewhere it tells its own. So
calls one behind the other come to the end of the code from any offset, with at most one call for
each byte from there on: all of them are at offsets in the code, and together they write the entries
of the listing from the first offset on. -/
theorem listAt_appends_line_and_advances (c : Chunk) (offset : Nat) :
    ∃ text next,
      Text.IsWrittenLine text ∧
      (∀ out, c.listAt offset out = (out ++ text, next)) ∧
      (offset < c.size → offset < next ∧ next ≤ c.size) ∧
      (c.size ≤ offset → next = offset) ∧
      ∃ calls ≤ c.size - offset, ∀ out,
        (∀ earlier < calls, (c.listCalls earlier offset out).2 < c.size) ∧
        c.listCalls calls offset out =
          (out ++ linesOf Entry.full (c.listingFrom offset), max offset c.size) := by
  have hlists := c.lists_listingFrom offset
  refine ⟨(c.entryAt offset).full ++ "\n", (c.entryAt offset).next,
    (c.entryAt offset).isLine_full.isWrittenLine, c.listAt_eq offset, lt_next_entryAt,
    next_entryAt_of_size_le, (c.listingFrom offset).length, hlists.length_le, ?_⟩
  intro out
  exact ⟨fun _ hearlier => hlists.listCalls_lt_size out hearlier, hlists.listCalls_length out⟩

/-- An operand is listed as the opcode of its byte, and past the code there is none to list. -/
example :
    let c := (Chunk.empty.write 0 7).write 2 7
    c.listAt 1 "" = ("0001    | OP_ADD\n", 2) ∧ c.listAt 9 "" = ("0009    0 <end of chunk>\n", 9) := by
  decide

end Chunk

end StackBytecode
