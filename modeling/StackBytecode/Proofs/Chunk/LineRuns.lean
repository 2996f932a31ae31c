import StackBytecode.Chunk.LineRuns

/-!
# Runs expand to their lines

Runs are computed from the end of the line table: a line joins the run that begins right
behind it if the two share the line, and else makes a run of its own. So runs hold at
least one byte and the first of them begins at the first offset, which is why the line that
joins a run makes it longer by exactly one.
-/

namespace StackBytecode

namespace LineRun

/-- Runs that begin at an offset, if there are any, with at least one byte in the first. -/
def BeginAt (offset : Nat) (runs : List LineRun) : Prop :=
  ∀ run ∈ runs.head?, run.start = offset ∧ run.start < run.stop

/-- A line in front of runs moves their beginning to its offset. -/
theorem beginAt_extend {offset : Nat} (line : UInt32) {runs : List LineRun}
    (h : BeginAt (offset + 1) runs) : BeginAt offset (extend offset line runs) := by
  intro first hfirst
  cases runs with
  | nil =>
    obtain rfl := Option.some.inj hfirst
    exact ⟨rfl, Nat.lt_succ_self offset⟩
  | cons run rest =>
    obtain ⟨hstart, hlt⟩ := h run rfl
    rw [extend] at hfirst
    split at hfirst
    case isTrue =>
      obtain rfl := Option.some.inj hfirst
      exact ⟨rfl, by dsimp only; omega⟩
    case isFalse =>
      obtain rfl := Option.some.inj hfirst
      exact ⟨rfl, Nat.lt_succ_self offset⟩

/-- The runs of a line table begin at its first offset. -/
theorem beginAt_ofLines (offset : Nat) (lines : List UInt32) : BeginAt offset (ofLines offset lines) := by
  induction lines generalizing offset with
  | nil => exact fun run hrun => absurd hrun (by simp [ofLines])
  | cons line rest ih => exact beginAt_extend line (ih (offset + 1))

/-- A line in front of runs comes first when they are expanded. -/
theorem flatMap_expand_extend {offset : Nat} (line : UInt32) {runs : List LineRun}
    (h : BeginAt (offset + 1) runs) :
    (extend offset line runs).flatMap expand = line :: runs.flatMap expand := by
  have hsingle : expand ⟨offset, offset + 1, line⟩ = [line] := by simp [expand]
  cases runs with
  | nil => rw [extend, List.flatMap_singleton, hsingle, List.flatMap_nil]
  | cons run rest =>
    obtain ⟨hstart, hlt⟩ := h run rfl
    rw [extend]
    split
    case isTrue hline =>
      have hlength : run.stop - offset = run.stop - run.start + 1 := by omega
      rw [List.flatMap_cons, List.flatMap_cons, expand, expand, hlength, List.replicate_succ,
        List.cons_append, hline]
    case isFalse => rw [List.flatMap_cons, hsingle, List.singleton_append]

/-- The runs of a line table expand to it. -/
theorem flatMap_expand_ofLines (offset : Nat) (lines : List UInt32) :
    (ofLines offset lines).flatMap expand = lines := by
  induction lines generalizing offset with
  | nil => rfl
  | cons line rest ih => rw [ofLines, flatMap_expand_extend line (beginAt_ofLines _ rest), ih]

end LineRun

/-- The runs of the lines of a chunk expand to these lines. -/
theorem Chunk.flatMap_expand_lineRuns (c : Chunk) : c.lineRuns.flatMap LineRun.expand = c.lines :=
  LineRun.flatMap_expand_ofLines 0 c.lines

end StackBytecode
