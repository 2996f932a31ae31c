import StackBytecode.Decoding

/-!
# Listings

A chunk is listed as entries, one for each instruction or byte that is none. Unlike decoding, a
listing goes on after a fault, so its entries cover all of the code. The full and the compact
listing write out the same entries: the full one shows the source line of an entry, or a bar when
the byte before it has the same line.
-/

namespace StackBytecode

namespace Listing

/-- What an entry shows after its place. -/
inductive Body
  /-- A constant index, with the constant if the pool has one there. -/
  | constant (index : UInt8) (value : Option Value)
  /-- An instruction without operand. -/
  | plain (op : Opcode)
  /-- A byte that names no opcode. -/
  | unknown (byte : UInt8)
  /-- An opcode at the end of the code that misses its operand. -/
  | truncated (op : Opcode)
  /-- No byte at all: the offset is not in the code. -/
  | pastEnd
  deriving DecidableEq

/-- The text of a body. -/
def Body.text : Body → String
  | .constant index value =>
    s!"{Text.padRight 16 Opcode.constant.mnemonic} {Text.spacePadded 4 index.toNat} " ++
      match value with
      | some v => "'" ++ v.text ++ "'"
      | none => "<missing>"
  | .plain op => op.mnemonic
  | .unknown byte => "Unknown opcode " ++ byte.toNat.repr
  | .truncated op => op.mnemonic ++ " <truncated>"
  | .pastEnd => "<end of chunk>"

/-- The number of code bytes that a body accounts for. -/
def Body.size : Body → Nat
  | .constant _ _ => 2
  | .pastEnd => 0
  | _ => 1

/-- One line of a listing. -/
structure Entry where
  offset : Nat
  line : UInt32
  /-- Whether the byte before the entry has the same line. -/
  continued : Bool
  body : Body
  deriving DecidableEq

/-- The offset right after an entry. -/
def Entry.next (e : Entry) : Nat := e.offset + e.body.size

/-- The source line of an entry, or a bar. -/
def Entry.lineColumn (e : Entry) : String :=
  if e.continued then "   |" else Text.spacePadded 4 e.line.toNat

/-- An entry with its line column. -/
def Entry.full (e : Entry) : String :=
  s!"{Text.zeroPadded 4 e.offset} {e.lineColumn} {e.body.text}"

/-- An entry without its line column. -/
def Entry.compact (e : Entry) : String := s!"{Text.zeroPadded 4 e.offset}: {e.body.text}"

/-- The body for what is found at an offset, with the constants of a pool. -/
def Body.of (pool : Buffer Value) : Decoding.Found → Body
  | .error ⟨_, _, .unknownOpcode byte⟩ => .unknown byte
  | .error ⟨_, _, .truncatedOperand op⟩ => .truncated op
  | .ok ⟨_, _, .constant index⟩ => .constant index (pool.get? index.toNat)
  | .ok found => .plain found.item.opcode

/-- The entry of a cell, given the line of the byte before it and the cell after it. -/
def entry (pool : Buffer Value) (offset : Nat) (before : Option UInt32) (cell : Cell)
    (after : Option Cell) : Entry :=
  ⟨offset, cell.line, before == some cell.line, .of pool (Decoding.read offset cell after)⟩

/-- Lists cells from an offset on, after passing over as many as an earlier entry still owns. -/
def walk (pool : Buffer Value) (offset : Nat) (before : Option UInt32) :
    Nat → List Cell → List Entry
  | _, [] => []
  | passed + 1, cell :: rest => walk pool (offset + 1) (some cell.line) passed rest
  | 0, cell :: rest =>
    let e := entry pool offset before cell rest.head?
    e :: walk pool (offset + 1) (some cell.line) (e.body.size - 1) rest

end Listing

namespace Chunk

/-- The entries of the listing of a chunk. -/
def listing (c : Chunk) : List Listing.Entry := Listing.walk c.pool 0 none 0 c.cells.toList

/-- The line of the byte before an offset. -/
def lineBefore? (c : Chunk) : Nat → Option UInt32
  | 0 => none
  | offset + 1 => c.line? offset

/-- The entry at any offset, which need not begin an instruction nor lie in the code. -/
def entryAt (c : Chunk) (offset : Nat) : Listing.Entry :=
  match c.cells.get? offset with
  | some cell => Listing.entry c.pool offset (c.lineBefore? offset) cell (c.cells.get? (offset + 1))
  | none => ⟨offset, 0, c.lineBefore? offset == some 0, .pastEnd⟩

/-- Writes the entry at an offset to the end of a text, and tells the offset after it. -/
def listAt (c : Chunk) (offset : Nat) (out : String) : String × Nat :=
  let e := c.entryAt offset
  (out ++ e.full ++ "\n", e.next)

/-- The full listing, under a header with a name. -/
def fullListing (c : Chunk) (name : String) : String :=
  c.listing.foldl (fun out e => out ++ e.full ++ "\n") ("== " ++ name ++ " ==\n")

/-- The compact listing. -/
def compactListing (c : Chunk) : String :=
  c.listing.foldl (fun out e => out ++ e.compact ++ "\n") ""

end Chunk

end StackBytecode
