import Mathlib.Data.List.Chain
import StackBytecode.Proofs.Chunk.LineRuns
import StackBytecode.Proofs.Decoding.Tiling

/-!
# The run-length form of a line table

Runs are taken from the front: the run at an offset has the line there and goes as far as the
bytes share it, and the next one is taken where it stops. This is stated as a relation beside the
runs of a chunk, which are computed from the end of the table. It ends, since every run takes at
least one byte, and both come to the same runs.

What the run-length form of a table is, is said of single bytes and of neighbouring runs only. A
run with the properties of the form is the run at its offset: all of its bytes share the line, and
the byte behind it, if there is one, begins a run of another line. So the form is unique.
-/

namespace StackBytecode

/-! ## Runs from the front -/

/-- The items at the front of a list that equal a given one are those at its first positions, up to
the first position that holds another or none. -/
theorem length_takeWhile_beq_iff {α : Type} [BEq α] [LawfulBEq α] {list : List α} {a : α} {count : Nat} :
    (list.takeWhile (· == a)).length = count ↔
      (∀ k < count, list[k]? = some a) ∧ list[count]? ≠ some a := by
  induction list generalizing count with
  | nil =>
    cases count with
    | zero => simp
    | succ count => exact ⟨fun h => (by cases h), fun h => absurd (h.1 0 (Nat.succ_pos count)) (by simp)⟩
  | cons b rest ih =>
    by_cases hb : b = a
    · rw [List.takeWhile_cons_of_pos (by simpa using hb), List.length_cons]
      cases count with
      | zero => simp [hb]
      | succ count =>
        rw [Nat.add_right_cancel_iff, ih, List.getElem?_cons_succ]
        refine and_congr_left fun _ => ⟨fun h k hk => ?_, fun h k hk => ?_⟩
        · cases k with
          | zero => rw [List.getElem?_cons_zero, hb]
          | succ k => exact h k (by omega)
        · exact h (k + 1) (by omega)
    · rw [List.takeWhile_cons_of_neg (by simpa using hb)]
      cases count with
      | zero => simp [hb]
      | succ count =>
        refine ⟨fun h => (by cases h), fun h => ?_⟩
        exact absurd (Option.some.inj (h.1 0 (Nat.succ_pos count))) hb

/-- The first run of a line table goes as far as the lines are equal to the first one. -/
theorem LineRun.ofLines_cons (offset : Nat) (line : UInt32) (lines : List UInt32) :
    ofLines offset (line :: lines) =
      ⟨offset, offset + 1 + (lines.takeWhile (· == line)).length, line⟩ ::
        ofLines (offset + 1 + (lines.takeWhile (· == line)).length)
          (lines.drop (lines.takeWhile (· == line)).length) := by
  induction lines generalizing offset line with
  | nil => rfl
  | cons next rest ih =>
    rw [ofLines]
    by_cases hline : next = line
    · obtain rfl := hline
      rw [ih, extend, if_pos rfl, List.takeWhile_cons_of_pos (by simp), List.length_cons,
        List.drop_succ_cons, Nat.add_right_comm _ 1, Nat.add_assoc _ _ 1]
    · rw [List.takeWhile_cons_of_neg (by simpa using hline), List.length_nil, Nat.add_zero, List.drop_zero,
        ih, extend, if_neg hline]

/-- The number of lines in a table that differ from the line before them, which is `before` for the
first one. -/
def LineRun.changes (before : Option UInt32) : List UInt32 → Nat
  | [] => 0
  | line :: rest => (if before = some line then 0 else 1) + changes (some line) rest

/-- Every run begins with a line that differs from the one before it. -/
theorem LineRun.length_ofLines (offset : Nat) (lines : List UInt32) :
    (ofLines offset lines).length = changes none lines := by
  induction lines generalizing offset with
  | nil => rfl
  | cons line rest ih =>
    cases rest with
    | nil => rfl
    | cons next rest =>
      have hrest := ih (offset + 1)
      rw [ofLines_cons, List.length_cons, changes, if_neg (Option.some_ne_none next).symm] at hrest
      rw [ofLines, ofLines_cons, extend, changes, changes, if_neg (Option.some_ne_none line).symm]
      by_cases hline : next = line
      · rw [if_pos hline, if_pos (congrArg some hline.symm), List.length_cons, hrest, Nat.zero_add]
      · have hsome : ¬ some line = some next := fun h => hline (Option.some.inj h).symm
        rw [if_neg hline, if_neg hsome, List.length_cons, List.length_cons, hrest, Nat.add_comm]

namespace Chunk

/-- The run at an offset: the line there, with the bytes from there on that share it. There is none
at or past the end of the code. -/
def runAt? (c : Chunk) (offset : Nat) : Option LineRun :=
  (c.line? offset).map fun line =>
    ⟨offset, offset + ((c.lines.drop offset).takeWhile (· == line)).length, line⟩

/-- The runs at an offset and, one after the other, at the offset behind each run, until there is
none. -/
inductive Runs (c : Chunk) : Nat → List LineRun → Prop
  | ends {offset : Nat} (hrun : c.runAt? offset = none) : Runs c offset []
  | goes {offset : Nat} {run : LineRun} {rest : List LineRun} (hrun : c.runAt? offset = some run)
      (hrest : Runs c run.stop rest) : Runs c offset (run :: rest)

/-- The runs of the lines from an offset on. -/
def lineRunsFrom (c : Chunk) (offset : Nat) : List LineRun := LineRun.ofLines offset (c.lines.drop offset)

/-- Every offset in the code has a line, and no other has. -/
theorem line?_eq_none_iff {c : Chunk} {offset : Nat} : c.line? offset = none ↔ c.size ≤ offset := by
  rw [line?, Option.map_eq_none_iff, Buffer.get?_eq_none_iff]
  rfl

/-- There is no run exactly at or past the end of the code. -/
theorem runAt?_eq_none_iff {c : Chunk} {offset : Nat} : c.runAt? offset = none ↔ c.size ≤ offset := by
  rw [runAt?, Option.map_eq_none_iff, line?_eq_none_iff]

/-- The run at an offset is not empty, has the line of each of its bytes, and ends where the next byte
has another line or the code ends. -/
theorem runAt?_eq_some_iff {c : Chunk} {offset : Nat} {run : LineRun} :
    c.runAt? offset = some run ↔
      run.start = offset ∧ run.start < run.stop ∧
        (∀ k, run.start ≤ k → k < run.stop → c.line? k = some run.line) ∧
        c.line? run.stop ≠ some run.line := by
  have hcount (line : UInt32) (count : Nat) :
      ((c.lines.drop offset).takeWhile (· == line)).length = count ↔
        (∀ k < count, c.line? (offset + k) = some line) ∧ c.line? (offset + count) ≠ some line := by
    simp only [length_takeWhile_beq_iff, List.getElem?_drop, line?_eq]
  obtain ⟨start, stop, line⟩ := run
  rw [runAt?, Option.map_eq_some_iff]
  constructor
  · rintro ⟨other, hline, hrun⟩
    obtain ⟨rfl, rfl, rfl⟩ := LineRun.mk.inj hrun
    obtain ⟨hshares, hstop⟩ := (hcount other _).mp rfl
    refine ⟨rfl, ?_, fun k hfirst hk => ?_, hstop⟩
    · apply Nat.lt_add_of_pos_right
      apply Nat.pos_of_ne_zero
      intro hzero
      rw [hzero, Nat.add_zero] at hstop
      exact hstop hline
    · have hshare := hshares (k - offset) (by dsimp only at hfirst hk; omega)
      rwa [Nat.add_sub_cancel' hfirst] at hshare
  · rintro ⟨rfl, hlt, hshares, hstop⟩
    dsimp only at hlt hshares hstop
    have hlength := (hcount line (stop - start)).mpr
      ⟨fun k hk => hshares _ (Nat.le_add_right start k) (by dsimp only; omega),
        by rwa [Nat.add_sub_cancel' hlt.le]⟩
    refine ⟨line, hshares start (Nat.le_refl start) hlt, ?_⟩
    rw [hlength, Nat.add_sub_cancel' hlt.le]

/-- A run ends in the code or at its end. -/
theorem stop_le_of_runAt? {c : Chunk} {offset : Nat} {run : LineRun} (h : c.runAt? offset = some run) :
    run.stop ≤ c.size := by
  obtain ⟨-, hlt, hshares, -⟩ := runAt?_eq_some_iff.mp h
  have hlast : c.line? (run.stop - 1) ≠ none := by
    rw [hshares _ (by omega) (by omega)]
    exact Option.some_ne_none _
  rw [ne_eq, line?_eq_none_iff] at hlast
  omega

/-- The runs from an offset on are the run there and those from the offset behind it on. -/
theorem lineRunsFrom_eq (c : Chunk) (offset : Nat) :
    c.lineRunsFrom offset =
      match c.runAt? offset with
      | none => []
      | some run => run :: c.lineRunsFrom run.stop := by
  rw [lineRunsFrom, runAt?, line?_eq, ← List.head?_drop]
  cases hlines : c.lines.drop offset with
  | nil => rfl
  | cons line rest =>
    have hrest : rest = c.lines.drop (offset + 1) := by rw [← List.tail_drop, hlines, List.tail_cons]
    rw [LineRun.ofLines_cons, List.head?_cons, Option.map_some,
      List.takeWhile_cons_of_pos (by simp), List.length_cons]
    simp only [lineRunsFrom]
    rw [hrest, List.drop_drop, Nat.add_right_comm offset 1]
    rfl

/-- Taking runs from the front ends, and gives the runs from the first offset on. -/
theorem runs_iff {c : Chunk} {offset : Nat} {runs : List LineRun} :
    c.Runs offset runs ↔ runs = c.lineRunsFrom offset := by
  constructor
  · intro h
    induction h with
    | ends hrun => rw [lineRunsFrom_eq, hrun]
    | goes hrun hrest ih => rw [lineRunsFrom_eq, hrun, ih]
  · intro hfrom
    rw [lineRunsFrom_eq] at hfrom
    induction runs generalizing offset with
    | nil =>
      split at hfrom
      case h_1 hrun => exact .ends hrun
      case h_2 => cases hfrom
    | cons run rest ih =>
      split at hfrom
      case h_1 => cases hfrom
      case h_2 first hrun =>
        obtain ⟨rfl, hrest⟩ := List.cons.inj hfrom
        exact .goes hrun (ih (hrest.trans (c.lineRunsFrom_eq _)))

/-- The runs of a chunk are taken from its first offset on. -/
theorem runs_lineRuns (c : Chunk) : c.Runs 0 c.lineRuns := runs_iff.mpr rfl

/-- No more runs are taken than there are bytes. -/
theorem Runs.length_le {c : Chunk} {offset : Nat} {runs : List LineRun} (h : c.Runs offset runs)
    (hoffset : offset ≤ c.size) : offset + runs.length ≤ c.size := by
  induction h with
  | ends hrun => exact hoffset
  | goes hrun hrest ih =>
    obtain ⟨rfl, hlt, -⟩ := runAt?_eq_some_iff.mp hrun
    have hrest := ih (stop_le_of_runAt? hrun)
    rw [List.length_cons]
    omega

/-! ## The form and its uniqueness -/

/-- Runs are the run-length form of the lines from an offset on. -/
structure IsRunLengthForm (c : Chunk) (offset : Nat) (runs : List LineRun) : Prop where
  /-- No run is empty. -/
  nonempty : ∀ run ∈ runs, run.start < run.stop
  /-- The first run starts at the offset. -/
  first : ∀ run ∈ runs.head?, run.start = offset
  /-- Each run starts where the one before it stops. -/
  consecutive : runs.IsChain fun run next => next.start = run.stop
  /-- The last run stops at the end of the code, and without runs the offset is that end. -/
  last : (runs.getLast?.map LineRun.stop).getD offset = c.size
  /-- Every byte in a run has the line of the run. -/
  shares : ∀ run ∈ runs, ∀ k, run.start ≤ k → k < run.stop → c.line? k = some run.line
  /-- Neighbouring runs have different lines. -/
  differ : runs.IsChain fun run next => next.line ≠ run.line

/-- The first run of a form is the run at the offset. -/
theorem IsRunLengthForm.runAt? {c : Chunk} {offset : Nat} {run : LineRun} {rest : List LineRun}
    (h : c.IsRunLengthForm offset (run :: rest)) : c.runAt? offset = some run := by
  have hmem : run ∈ run :: rest := List.mem_cons_self
  refine runAt?_eq_some_iff.mpr ⟨h.first run rfl, h.nonempty run hmem, h.shares run hmem, ?_⟩
  cases rest with
  | nil =>
    have hend : run.stop = c.size := h.last
    rw [line?_eq_none_iff.mpr hend.ge]
    exact (Option.some_ne_none _).symm
  | cons next rest =>
    have hnext : next ∈ run :: next :: rest := by simp
    have hstart : next.start = run.stop := (List.isChain_cons_cons.mp h.consecutive).1
    have hline : c.line? run.stop = some next.line :=
      h.shares next hnext run.stop hstart.le (hstart ▸ h.nonempty next hnext)
    rw [hline]
    exact fun hsame => (List.isChain_cons_cons.mp h.differ).1 (Option.some.inj hsame)

/-- The other runs of a form are the form of the lines behind the first run. -/
theorem IsRunLengthForm.tail {c : Chunk} {offset : Nat} {run : LineRun} {rest : List LineRun}
    (h : c.IsRunLengthForm offset (run :: rest)) : c.IsRunLengthForm run.stop rest where
  nonempty other hother := h.nonempty other (List.mem_cons_of_mem run hother)
  first := (List.isChain_cons.mp h.consecutive).1
  consecutive := h.consecutive.tail
  last := by
    have hlast := h.last
    cases rest with
    | nil => exact hlast
    | cons next rest => rwa [List.getLast?_cons_cons] at hlast
  shares other hother := h.shares other (List.mem_cons_of_mem run hother)
  differ := h.differ.tail

/-- The run at an offset in front of the form of the lines behind it makes a form. -/
theorem IsRunLengthForm.cons {c : Chunk} {offset : Nat} {run : LineRun} {rest : List LineRun}
    (hrun : c.runAt? offset = some run) (h : c.IsRunLengthForm run.stop rest) :
    c.IsRunLengthForm offset (run :: rest) := by
  obtain ⟨hstart, hlt, hshares, hstop⟩ := runAt?_eq_some_iff.mp hrun
  refine
    { nonempty := List.forall_mem_cons.mpr ⟨hlt, h.nonempty⟩
      first := by simpa using hstart
      consecutive := List.isChain_cons.mpr ⟨h.first, h.consecutive⟩
      last := ?_
      shares := List.forall_mem_cons.mpr ⟨hshares, h.shares⟩
      differ := List.isChain_cons.mpr ⟨?_, h.differ⟩ }
  · have hlast := h.last
    cases rest with
    | nil => exact hlast
    | cons next rest => rwa [List.getLast?_cons_cons]
  · intro next hnext hsame
    have hmem := List.mem_of_mem_head? hnext
    have hfirst := h.first next hnext
    apply hstop
    rw [← hsame]
    exact h.shares next hmem run.stop hfirst.le (hfirst ▸ h.nonempty next hmem)

/-- The run-length form of the lines from an offset on is what taking runs from there gives. -/
theorem isRunLengthForm_iff {c : Chunk} {offset : Nat} {runs : List LineRun} (hoffset : offset ≤ c.size) :
    c.IsRunLengthForm offset runs ↔ c.Runs offset runs := by
  constructor
  · intro h
    induction runs generalizing offset with
    | nil => exact .ends (runAt?_eq_none_iff.mpr h.last.ge)
    | cons run rest ih => exact .goes h.runAt? (ih (stop_le_of_runAt? h.runAt?) h.tail)
  · intro h
    induction h with
    | @ends offset hrun =>
      have hend : offset = c.size := Nat.le_antisymm hoffset (runAt?_eq_none_iff.mp hrun)
      exact ⟨by simp, by simp, .nil, hend, by simp, .nil⟩
    | goes hrun hrest ih => exact .cons hrun (ih (stop_le_of_runAt? hrun))

/-- The runs of a chunk are the run-length form of its line table, and the only one: they are not
empty, follow each other from offset zero to the end of the code, have the line of each of their
bytes, and differ in line from their neighbours. Expanded they are the table. Taking runs from the
front gives them and ends, after no more runs than there are bytes. -/
theorem lineRuns_unique_run_length_form (c : Chunk) :
    (∀ runs, c.IsRunLengthForm 0 runs ↔ runs = c.lineRuns) ∧
      c.lineRuns.flatMap LineRun.expand = c.lines ∧
      (∀ runs, c.Runs 0 runs ↔ runs = c.lineRuns) ∧
      c.lineRuns.length ≤ c.size := by
  have hruns (runs : List LineRun) : c.Runs 0 runs ↔ runs = c.lineRuns := runs_iff
  have hlength := c.runs_lineRuns.length_le (Nat.zero_le _)
  rw [Nat.zero_add] at hlength
  refine ⟨fun runs => ?_, c.flatMap_expand_lineRuns, hruns, hlength⟩
  rw [isRunLengthForm_iff (Nat.zero_le _), hruns]

end Chunk

end StackBytecode
