import Mathlib.Data.List.DropRight
import StackBytecode.Chunk.Edit
import StackBytecode.Proofs.Buffer.Capacity

/-!
# Chunks and their histories

A chunk is what was written to it since it was last cleared, and nothing else: its code,
lines and constants are those writes in order, and its capacities follow from how many
there are. So two chunks with different histories are equal exactly when their contents
are.

Copies of a chunk are edited apart from each other. A row of chunks says this: a change
edits one of them, a copy joins the row with the history of the chunk it was made from,
and from then on each has its own history.
-/

namespace StackBytecode

/-- The cell that an edit writes. -/
def Edit.cell? : Edit → Option Cell
  | .write byte line => some ⟨byte, line⟩
  | _ => none

/-- The constant that an edit adds. -/
def Edit.constant? : Edit → Option Value
  | .addConstant v => some v
  | _ => none

/-- The part of a history after its last clearing. -/
def sinceClear (history : List Edit) : List Edit := history.rtakeWhile fun edit => edit ≠ .clear

/-- The bytes that a history wrote since the last clearing, with their lines. -/
def writtenCells (history : List Edit) : List Cell := (sinceClear history).filterMap Edit.cell?

/-- The constants that a history added since the last clearing. -/
def addedConstants (history : List Edit) : List Value :=
  (sinceClear history).filterMap Edit.constant?

/-- An action on a row of things that edits change: one of them is edited, or a copy of one is put
at the end of the row. -/
inductive RowAction
  | change (index : Nat) (edit : Edit)
  | copy (index : Nat)

/-- A row after an action, where `apply` edits one of its things. -/
def RowAction.act {α : Type} (apply : α → Edit → α) (row : List α) : RowAction → List α
  | .change index edit => row.modify index fun a => apply a edit
  | .copy index => row ++ row[index]?.toList

/-- The chunks that actions lead to from a single empty one. -/
def chunksAfter (actions : List RowAction) : List Chunk :=
  actions.foldl (RowAction.act Chunk.apply) [.empty]

/-- The histories of these chunks: an edit goes to the end of one, and a copy begins with all of
another. -/
def historiesAfter (actions : List RowAction) : List (List Edit) :=
  actions.foldl (RowAction.act fun history edit => history ++ [edit]) [[]]

/-- Nothing counts that was done before a clearing. -/
theorem sinceClear_concat_clear (history : List Edit) : sinceClear (history ++ [.clear]) = [] :=
  List.rtakeWhile_concat_neg _ _ _ (by simp)

/-- An edit that clears nothing counts. -/
theorem sinceClear_concat {history : List Edit} {edit : Edit} (h : edit ≠ .clear) :
    sinceClear (history ++ [edit]) = sinceClear history ++ [edit] :=
  List.rtakeWhile_concat_pos _ _ _ (by simpa using h)

/-- A history that clears nothing counts from its start. -/
theorem sinceClear_eq_self {history : List Edit} (h : ∀ edit ∈ history, edit ≠ .clear) :
    sinceClear history = history :=
  List.rtakeWhile_eq_self_iff.mpr (by simpa using h)

theorem writtenCells_concat {history : List Edit} {edit : Edit} (h : edit ≠ .clear) :
    writtenCells (history ++ [edit]) = writtenCells history ++ edit.cell?.toList := by
  rw [writtenCells, sinceClear_concat h, List.filterMap_append]
  cases edit <;> rfl

theorem addedConstants_concat {history : List Edit} {edit : Edit} (h : edit ≠ .clear) :
    addedConstants (history ++ [edit]) = addedConstants history ++ edit.constant?.toList := by
  rw [addedConstants, sinceClear_concat h, List.filterMap_append]
  cases edit <;> rfl

/-- Cells are given by their bytes and their lines. -/
theorem cells_eq_iff {cells others : List Cell} :
    cells = others ↔
      cells.map Cell.byte = others.map Cell.byte ∧ cells.map Cell.line = others.map Cell.line := by
  constructor
  · intro h
    rw [h]
    exact ⟨rfl, rfl⟩
  · intro h
    obtain ⟨hbytes, hlines⟩ := h
    induction cells generalizing others with
    | nil => simpa using hbytes.symm
    | cons cell cells ih =>
      cases others with
      | nil => simp at hbytes
      | cons other others =>
        obtain ⟨hbyte, hbytes⟩ := List.cons.inj hbytes
        obtain ⟨hline, hlines⟩ := List.cons.inj hlines
        have hcell : cell = other := by
          cases cell
          cases other
          exact Cell.mk.injEq .. ▸ ⟨hbyte, hline⟩
        rw [hcell, ih hbytes hlines]

namespace Chunk

/-! ## One chunk -/

/-- The chunk that holds cells and constants written one after the other. -/
def ofContents (cells : List Cell) (values : List Value) : Chunk := ⟨.ofList cells, .ofList values⟩

@[simp] theorem code_ofContents (cells : List Cell) (values : List Value) :
    (ofContents cells values).code = cells.map Cell.byte := by simp [code, ofContents]

@[simp] theorem lines_ofContents (cells : List Cell) (values : List Value) :
    (ofContents cells values).lines = cells.map Cell.line := by simp [lines, ofContents]

@[simp] theorem constants_ofContents (cells : List Cell) (values : List Value) :
    (ofContents cells values).constants = values := by simp [constants, ofContents]

/-- A constant gets the number of constants before it as its index. -/
theorem lastIndex_addConstant (c : Chunk) (v : Value) :
    (c.addConstant v).lastIndex = c.constants.length := by
  rw [lastIndex, poolSize, addConstant, Buffer.size_push, Nat.add_sub_cancel, constants,
    Buffer.length_toList]

/-- One more edit is applied to the chunk of those before it. -/
theorem applyAll_concat (c : Chunk) (history : List Edit) (edit : Edit) :
    c.applyAll (history ++ [edit]) = (c.applyAll history).apply edit := by
  rw [applyAll, List.foldl_append]
  rfl

/-- An edit that clears nothing adds its cell or its constant to the contents. -/
theorem apply_ofContents (cells : List Cell) (values : List Value) {edit : Edit}
    (h : edit ≠ .clear) :
    (ofContents cells values).apply edit =
      ofContents (cells ++ edit.cell?.toList) (values ++ edit.constant?.toList) := by
  cases edit with
  | write byte line =>
    simp only [ofContents, Edit.cell?, Edit.constant?, Option.toList_some, Option.toList_none,
      List.append_nil, Buffer.ofList_concat]
    rfl
  | addConstant v =>
    simp only [ofContents, Edit.cell?, Edit.constant?, Option.toList_some, Option.toList_none,
      List.append_nil, Buffer.ofList_concat]
    rfl
  | clear => exact absurd rfl h

/-- A history leads from the empty chunk to the one of its writes since the last clearing. -/
theorem applyAll_empty (history : List Edit) :
    Chunk.empty.applyAll history = ofContents (writtenCells history) (addedConstants history) := by
  induction history using List.reverseRecOn with
  | nil => rfl
  | append_singleton history edit ih =>
    rw [applyAll_concat]
    by_cases h : edit = .clear
    · rw [h, writtenCells, addedConstants, sinceClear_concat_clear]
      rfl
    · rw [ih, apply_ofContents _ _ h, writtenCells_concat h, addedConstants_concat h]

/-- Chunks of written contents compare equal exactly when their code, their lines and, as IEEE
numbers, their constants do. -/
theorem beq_ofContents_iff {cells cells' : List Cell} {values values' : List Value} :
    (ofContents cells values == ofContents cells' values') = true ↔
      cells.map Cell.byte = cells'.map Cell.byte ∧ cells.map Cell.line = cells'.map Cell.line ∧
        List.Forall₂ (fun v w => (v.number == w.number) = true) values values' := by
  have hbeq : (ofContents cells values == ofContents cells' values') =
      ((Buffer.ofList cells == Buffer.ofList cells') &&
        (Buffer.ofList values == Buffer.ofList values')) := rfl
  rw [hbeq, Bool.and_eq_true, Buffer.beq_ofList_iff, Buffer.beq_ofList_iff, ← and_assoc,
    ← cells_eq_iff]
  simp only [beq_iff_eq, List.forall₂_eq_eq_eq]
  rfl

/-! ## Rows of chunks -/

/-- An action commutes with a function on the things of a row if every edit does. -/
theorem map_act {α β : Type} {apply : α → Edit → α} {apply' : β → Edit → β} {f : α → β}
    (hf : ∀ a edit, f (apply a edit) = apply' (f a) edit) (row : List α) (action : RowAction) :
    (action.act apply row).map f = action.act apply' (row.map f) := by
  cases action with
  | change index edit =>
    apply List.ext_getElem?
    intro i
    rw [RowAction.act, RowAction.act, List.getElem?_map, List.getElem?_modify, List.getElem?_modify,
      List.getElem?_map]
    cases row[i]? with
    | none => rfl
    | some a => by_cases hi : index = i <;> simp [hi, hf]
  | copy index =>
    rw [RowAction.act, RowAction.act, List.map_append, List.getElem?_map]
    cases row[index]? <;> rfl

/-- The chunks of a row are those that their histories lead to. -/
theorem chunksAfter_eq (actions : List RowAction) :
    chunksAfter actions = (historiesAfter actions).map Chunk.empty.applyAll := by
  induction actions using List.reverseRecOn with
  | nil => rfl
  | append_singleton actions action ih =>
    rw [historiesAfter, List.foldl_concat, ← historiesAfter, map_act (applyAll_concat _), ← ih,
      chunksAfter, chunksAfter, List.foldl_concat]

/-- A chunk of a row has the contents of its history. -/
theorem eq_ofContents_of_chunksAfter {actions : List RowAction} {index : Nat} {c : Chunk}
    (h : (chunksAfter actions)[index]? = some c) :
    ∃ history, (historiesAfter actions)[index]? = some history ∧
      c = ofContents (writtenCells history) (addedConstants history) := by
  rw [chunksAfter_eq, List.getElem?_map] at h
  obtain ⟨history, hhistory, rfl⟩ := Option.map_eq_some_iff.mp h
  exact ⟨history, hhistory, applyAll_empty history⟩

/-- A chunk among copies that are edited apart is its own history since it was last cleared: its
code and lines are the bytes and lines written since, its constants those added since, each with
the number of constants before it as its index, and its capacities those that the policy gives to
its sizes. It compares equal to any other chunk with a history exactly when both have the same
code, the same lines and constants that are equal as IEEE numbers. -/
theorem chunk_eq_history {actions : List RowAction} {index : Nat} {c : Chunk}
    (h : (chunksAfter actions)[index]? = some c) :
    (∃ history, (historiesAfter actions)[index]? = some history ∧
      c.code = (writtenCells history).map Cell.byte ∧
      c.lines = (writtenCells history).map Cell.line ∧
      c.constants = addedConstants history) ∧
    c.code.length = c.lines.length ∧
    (∀ v, (c.apply (.addConstant v)).lastIndex = c.constants.length) ∧
    (c.code.length < 2 ^ 63 → c.cells.capacity = Growth.capacityFor c.code.length) ∧
    (c.constants.length < 2 ^ 63 → c.pool.capacity = Growth.capacityFor c.constants.length) ∧
    ∀ {others : List RowAction} {place : Nat} {d : Chunk}, (chunksAfter others)[place]? = some d →
      ((c == d) = true ↔ c.code = d.code ∧ c.lines = d.lines ∧
        List.Forall₂ (fun v w => (v.number == w.number) = true) c.constants d.constants) := by
  obtain ⟨history, hhistory, rfl⟩ := eq_ofContents_of_chunksAfter h
  refine ⟨⟨history, hhistory, by simp⟩, by simp, lastIndex_addConstant _, ?_, ?_, ?_⟩
  · intro hlength
    rw [code_ofContents, List.length_map] at hlength ⊢
    rw [ofContents, Buffer.capacity_ofList, Growth.afterWrites_eq hlength]
  · intro hlength
    rw [constants_ofContents] at hlength ⊢
    rw [ofContents, Buffer.capacity_ofList, Growth.afterWrites_eq hlength]
  · intro others place d hd
    obtain ⟨history', -, rfl⟩ := eq_ofContents_of_chunksAfter hd
    rw [code_ofContents, code_ofContents, lines_ofContents, lines_ofContents, constants_ofContents,
      constants_ofContents]
    exact beq_ofContents_iff

/-- A chunk is cleared and written to again after a copy was made of it, and copied once more
before each gets a zero of its own: it differs from the first copy and equals the second. -/
theorem chunk_eq_history_of_copies :
    ∃ c first second, chunksAfter
        [.change 0 (.write 1 7), .copy 0, .change 0 .clear, .change 0 (.write 6 9), .copy 0,
          .change 0 (.addConstant (.ofBits 0)), .change 2 (.addConstant (.ofBits 0x8000000000000000))] =
        [c, first, second] ∧
      c.code = [6] ∧ c.cells.capacity = 8 ∧ ¬ (c == first) = true ∧ (c == second) = true := by
  have hrow : chunksAfter
      [.change 0 (.write 1 7), .copy 0, .change 0 .clear, .change 0 (.write 6 9), .copy 0,
        .change 0 (.addConstant (.ofBits 0)), .change 2 (.addConstant (.ofBits 0x8000000000000000))] =
      [ofContents [⟨6, 9⟩] [.ofBits 0], ofContents [⟨1, 7⟩] [],
        ofContents [⟨6, 9⟩] [.ofBits 0x8000000000000000]] := rfl
  obtain ⟨⟨history, hhistory, hcode, -⟩, -, -, hcapacity, -, hequal⟩ :=
    chunk_eq_history (congrArg (·[0]?) hrow)
  refine ⟨_, _, _, hrow, code_ofContents .., hcapacity (by decide), ?_, ?_⟩
  · rw [hequal (congrArg (·[1]?) hrow)]
    simp
  · rw [hequal (congrArg (·[2]?) hrow)]
    have hzeros : ((Value.ofBits 0).number == (Value.ofBits 0x8000000000000000).number) = true := by decide
    simpa using hzeros

end Chunk

end StackBytecode
