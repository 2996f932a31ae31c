import StackBytecode.Decoding

/-!
# Code laid out from instructions

Instructions with their source lines are laid out one after the other: each has the offset
right after the one before it, and its cells follow those of the one before it. Decoding
such cells gives back exactly these instructions at these offsets, whatever cells follow
them, since an instruction tells by its own bytes where it ends.

On arbitrary cells decoding still goes from offset to offset: what stands at one is found
there, and the next is right behind it. So things are found at growing offsets, each where
it stands.
-/

namespace StackBytecode

namespace Decoding

/-- Instructions with their source lines, at the offsets they have from a given one on. -/
def place (offset : Nat) : List (UInt32 × Instruction) → List (Placed Instruction)
  | [] => []
  | (line, i) :: rest => ⟨offset, line, i⟩ :: place (offset + i.size) rest

/-- The cells of instructions with their source lines. -/
def encode (program : List (UInt32 × Instruction)) : List Cell :=
  program.flatMap fun (line, i) => i.cells line

@[simp] theorem encode_nil : encode [] = [] := rfl

@[simp] theorem encode_cons (line : UInt32) (i : Instruction) (rest : List (UInt32 × Instruction)) :
    encode ((line, i) :: rest) = i.cells line ++ encode rest := rfl

/-- An instruction has as many cells as its size says. -/
theorem length_cells (i : Instruction) (line : UInt32) : (i.cells line).length = i.size := by
  rw [Instruction.cells, List.length_map, i.length_bytes]

/-- Placing keeps the instructions and their lines. -/
theorem map_place (offset : Nat) (program : List (UInt32 × Instruction)) :
    (place offset program).map (fun found => (found.line, found.item)) = program := by
  induction program generalizing offset with
  | nil => rfl
  | cons head rest ih =>
    obtain ⟨line, i⟩ := head
    rw [place, List.map_cons, ih]

/-- A placed instruction stands right after the cells of those before it. -/
theorem mem_place {offset : Nat} {program : List (UInt32 × Instruction)} {found : Placed Instruction}
    (h : found ∈ place offset program) :
    ∃ before after, program = before ++ (found.line, found.item) :: after ∧
      found.offset = offset + (encode before).length := by
  induction program generalizing offset with
  | nil => simp [place] at h
  | cons head rest ih =>
    obtain ⟨line, i⟩ := head
    rcases List.mem_cons.mp h with rfl | h
    · exact ⟨[], rest, rfl, rfl⟩
    · obtain ⟨before, after, rfl, hoffset⟩ := ih h
      refine ⟨(line, i) :: before, after, rfl, ?_⟩
      rw [hoffset, encode_cons, List.length_append, length_cells]
      omega

/-- The cells of an instruction decode as that instruction, and decoding goes on right after them. -/
theorem walk_cells_append (offset : Nat) (line : UInt32) (i : Instruction) (rest : List Cell) :
    walk offset 0 (i.cells line ++ rest) =
      .ok ⟨offset, line, i⟩ :: walk (offset + i.size) 0 rest := by
  rcases i with index | _ | f | _
  case arith => cases f <;> rfl
  all_goals rfl

/-- Decoding inverts laying out, whatever cells follow. -/
theorem walk_encode_append (offset : Nat) (program : List (UInt32 × Instruction)) (rest : List Cell) :
    walk offset 0 (encode program ++ rest) =
      (place offset program).map .ok ++ walk (offset + (encode program).length) 0 rest := by
  induction program generalizing offset with
  | nil => rfl
  | cons head tail ih =>
    obtain ⟨line, i⟩ := head
    rw [encode_cons, List.append_assoc, walk_cells_append, ih, place, List.map_cons, List.cons_append,
      List.length_append, length_cells, Nat.add_assoc]

/-- Passing over cells is starting behind them. -/
theorem walk_passed (offset passed : Nat) (cells : List Cell) :
    walk offset passed cells = walk (offset + passed) 0 (cells.drop passed) := by
  induction passed generalizing offset cells with
  | zero => rfl
  | succ passed ih =>
    cases cells with
    | nil => rfl
    | cons cell rest => rw [walk, ih, List.drop_succ_cons, Nat.add_assoc, Nat.add_comm 1]

/-- The offset at which something is found. -/
def offsetOf : Found → Nat
  | .error fault => fault.offset
  | .ok found => found.offset

/-- Reading at an offset finds something with that offset. -/
@[simp] theorem offsetOf_read (offset : Nat) (cell : Cell) (after : Option Cell) :
    offsetOf (read offset cell after) = offset := by
  unfold read
  split <;> rfl

end Decoding

namespace Chunk

open Decoding

/-- A chunk whose cells are laid out from instructions decodes as these. -/
theorem decode_of_encode {c : Chunk} {program : List (UInt32 × Instruction)}
    (h : c.cells.toList = encode program) : c.decode = (place 0 program).map .ok := by
  have hwalk := walk_encode_append 0 program []
  rw [List.append_nil] at hwalk
  rw [decode, h, hwalk]
  exact List.append_nil _

/-- Code that decodes without a fault has what it decodes as for its instructions. -/
theorem instructions_of_decode {c : Chunk} {found : List (Placed Instruction)}
    (h : c.decode = found.map .ok) : c.instructions = found := by
  rw [instructions, h, List.filterMap_map]
  exact List.filterMap_some

/-! ## Decoding offset by offset -/

/-- What stands at an offset is found there. -/
theorem offsetOf_of_decodeAt {c : Chunk} {offset : Nat} {found : Found}
    (h : c.decodeAt offset = some found) : offsetOf found = offset := by
  obtain ⟨cell, -, rfl⟩ := Option.map_eq_some_iff.mp h
  exact offsetOf_read offset cell _

/-- What is found from an offset on. -/
def decodeFrom (c : Chunk) (offset : Nat) : List Found := walk offset 0 (c.cells.toList.drop offset)

/-- What is found from an offset on is what stands there and, if that is an instruction, what is
found from the offset behind it on. -/
theorem decodeFrom_eq (c : Chunk) (offset : Nat) :
    c.decodeFrom offset =
      match c.decodeAt offset with
      | none => []
      | some (.error fault) => [.error fault]
      | some (.ok found) => .ok found :: c.decodeFrom (offset + found.item.size) := by
  rw [decodeAt, Buffer.get?_eq, Buffer.get?_eq, ← List.head?_drop, ← List.head?_drop,
    ← List.tail_drop, decodeFrom]
  cases hcells : c.cells.toList.drop offset with
  | nil => rfl
  | cons cell rest =>
    simp only [List.head?_cons, List.tail_cons, Option.map_some, walk]
    cases read offset cell rest.head? with
    | error fault => rfl
    | ok found =>
      have hrest : rest = c.cells.toList.drop (offset + 1) := by
        rw [← List.tail_drop, hcells, List.tail_cons]
      simp only [decodeFrom]
      rw [walk_passed, hrest, List.drop_drop, Nat.add_assoc]
      rfl

/-- Decoding at an offset, and again behind each instruction, finds these things in turn. -/
inductive Iterates (c : Chunk) : Nat → List Found → Prop
  | off {offset : Nat} (hcode : c.decodeAt offset = none) : Iterates c offset []
  | faults {offset : Nat} {fault : DecodeFault} (hcode : c.decodeAt offset = some (.error fault)) :
      Iterates c offset [.error fault]
  | goes {offset : Nat} {found : Placed Instruction} {rest : List Found}
      (hcode : c.decodeAt offset = some (.ok found))
      (hrest : Iterates c (offset + found.item.size) rest) : Iterates c offset (.ok found :: rest)

/-- What is found from an offset on is found in turn. -/
theorem iterates_decodeFrom (c : Chunk) (offset : Nat) : c.Iterates offset (c.decodeFrom offset) := by
  have hfrom := c.decodeFrom_eq offset
  generalize c.decodeFrom offset = found at hfrom
  induction found generalizing offset with
  | nil =>
    split at hfrom
    case h_1 hcode => exact .off hcode
    case h_2 => cases hfrom
    case h_3 => cases hfrom
  | cons head rest ih =>
    split at hfrom
    case h_1 => cases hfrom
    case h_2 fault hcode =>
      obtain ⟨rfl, rfl⟩ := List.cons.inj hfrom
      exact .faults hcode
    case h_3 found hcode =>
      obtain ⟨rfl, hrest⟩ := List.cons.inj hfrom
      exact .goes hcode (ih _ (hrest.trans (c.decodeFrom_eq _)))

/-- What a chunk decodes as is found in turn from its start. -/
theorem iterates_decode (c : Chunk) : c.Iterates 0 c.decode := c.iterates_decodeFrom 0

/-- What is found in turn stands at its offset, and that is no smaller than the first one. -/
theorem Iterates.decodeAt_of_mem {c : Chunk} {offset : Nat} {list : List Found} {found : Found}
    (h : c.Iterates offset list) (hfound : found ∈ list) :
    c.decodeAt (offsetOf found) = some found ∧ offset ≤ offsetOf found := by
  induction h with
  | off hcode => simp at hfound
  | faults hcode =>
    rw [List.mem_singleton.mp hfound, offsetOf_of_decodeAt hcode]
    exact ⟨hcode, Nat.le_refl _⟩
  | goes hcode hrest ih =>
    rcases List.mem_cons.mp hfound with rfl | hfound
    · rw [offsetOf_of_decodeAt hcode]
      exact ⟨hcode, Nat.le_refl _⟩
    · obtain ⟨hat, hle⟩ := ih hfound
      exact ⟨hat, by omega⟩

/-- Things are found in turn at growing offsets. -/
theorem Iterates.pairwise {c : Chunk} {offset : Nat} {list : List Found} (h : c.Iterates offset list) :
    list.Pairwise fun a b => offsetOf a < offsetOf b := by
  induction h with
  | off hcode => exact List.Pairwise.nil
  | faults hcode => exact List.pairwise_singleton _ _
  | @goes offset found rest hcode hrest ih =>
    refine List.pairwise_cons.mpr ⟨fun other hother => ?_, ih⟩
    have hle := (hrest.decodeAt_of_mem hother).2
    have hsize : 0 < found.item.size := Nat.add_pos_left Nat.one_pos _
    rw [offsetOf_of_decodeAt hcode]
    omega

end Chunk

end StackBytecode
