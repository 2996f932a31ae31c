import StackBytecode.Assembly.Evaluation
import StackBytecode.Proofs.Assembly.Program
import StackBytecode.Proofs.Machine.Step

/-!
# Running assembled code is evaluating its source

Evaluation acts on statements directly, the machine on instructions that were encoded,
decoded and looked up in a pool. The two stay together statement by statement: the pool
from the next index on holds the constants still to come, so each constant finds its own
number there, and the offset of a statement in the source is that of its instruction in
the code. The stack being within its limit is part of the invariant, since evaluation
checks the limit at constants only.
-/

namespace StackBytecode.Assembly

open Machine (run step acts_step)
open Decoding (place)

/-- A statement and its instruction take the same number of bytes. -/
theorem size_instructionOf (used : Nat) (s : Statement) :
    (instructionOf used s).size = statementSize s := by
  cases s <;> rfl

/-- A constant is pushed unless the stack is full. -/
theorem evaluate_constant (limit offset : Nat) (stack : List Value) (line : UInt32) (v : Value)
    (extra : Option String) (rest : List Command) :
    evaluate limit offset stack (⟨line, .constant v, extra⟩ :: rest) =
      if limit ≤ stack.length then (.error ⟨offset, line, .stackOverflow limit⟩, stack)
      else evaluate limit (offset + 2) (v :: stack) rest := by
  cases stack <;> rfl

/-- A statement that finds too few values fails and leaves them. -/
theorem evaluate_of_length_lt (limit offset : Nat) {stack : List Value} {c : Command}
    (rest : List Command) (h : stack.length < c.statement.arity) :
    evaluate limit offset stack (c :: rest) =
      (.error ⟨offset, c.line, .stackUnderflow c.statement.opcode⟩, stack) := by
  obtain ⟨line, statement, extra⟩ := c
  cases statement with
  | constant v => exact absurd h (Nat.not_lt_zero _)
  | ret => exact absurd h (Nat.not_lt_zero _)
  | arith f =>
    match stack, h with
    | [], _ => rfl
    | [_], _ => rfl
    | _ :: _ :: _, h => exact absurd h (by simp [Operation.arity])
  | negate =>
    match stack, h with
    | [], _ => rfl
    | _ :: _, h => exact absurd h (by simp [Operation.arity])

/-- The constant of a statement is the pool entry with the next index. -/
theorem get?_of_drop {pool : Buffer Value} {used : Nat} {v : Value} {values : List Value}
    (hsize : pool.size ≤ maxConstants) (hpool : pool.toList.drop used = v :: values) :
    pool.get? (UInt8.ofNat used).toNat = some v := by
  have hentry : pool.toList[used]? = some v := by
    rw [← List.head?_drop, hpool, List.head?_cons]
  rw [← Buffer.get?_eq] at hentry
  have hused : used < 256 := Nat.lt_of_lt_of_le (Buffer.lt_size_of_get?_eq_some hentry) hsize
  rw [UInt8.toNat_ofNat_of_lt' hused, hentry]

/-- The machine runs the instructions of commands as the commands are evaluated. -/
theorem run_place_program {limit : Nat} {pool : Buffer Value} (hsize : pool.size ≤ maxConstants)
    (used offset : Nat) (stack : Stack) (commands : List Command) (hdepth : stack.depth ≤ limit)
    (hpool : pool.toList.drop used = writtenConstants commands) :
    ((run limit pool stack ((place offset (program used commands)).map .ok)).result,
      (run limit pool stack ((place offset (program used commands)).map .ok)).stack.values) =
        evaluate limit offset stack.values commands := by
  induction commands generalizing used offset stack with
  | nil => rfl
  | cons c rest ih =>
    obtain ⟨line, s, extra⟩ := c
    rw [writtenConstants_cons] at hpool
    have hnext : pool.toList.drop (used + statementConstants s) = writtenConstants rest := by
      rw [← List.drop_drop, hpool, ← length_constant?, List.drop_left]
    have hacts := acts_step pool hdepth (instructionOf used s)
    rw [program, place, List.map_cons, run, size_instructionOf]
    dsimp only
    have hgo {stack' : Stack} (hstep : step limit pool stack (instructionOf used s) = .next stack') :=
      ih (used + statementConstants s) (offset + statementSize s) stack'
        ((hstep ▸ hacts).depth_le hdepth) hnext
    generalize hstep : step limit pool stack (instructionOf used s) = outcome at hacts
    cases s with
    | constant v =>
      have hv := get?_of_drop hsize hpool
      rw [evaluate_constant, ← stack.depth_eq]
      cases hacts with
      | dangles hindex =>
        exact absurd (Buffer.lt_size_of_get?_eq_some hv) (Nat.not_lt.mpr hindex)
      | overflows _ hfull =>
        rw [if_pos hfull]
        rfl
      | pushes hv' hroom =>
        obtain rfl := Option.some.inj (hv.symm.trans hv')
        rw [if_neg (Nat.not_le.mpr hroom)]
        exact hgo hstep
      | underflows hstack => exact absurd hstack (Nat.not_lt_zero _)
    | ret =>
      cases hacts with
      | returns hstack =>
        rw [hstack]
        rfl
      | leaves hstack =>
        have heval : evaluate limit offset stack.values (⟨line, .ret, extra⟩ :: rest) =
            (.ok none, stack.values) := by rw [hstack]; rfl
        exact heval.symm
      | underflows hstack => exact absurd hstack (Nat.not_lt_zero _)
    | arith f =>
      cases hacts with
      | combines hstack =>
        rw [hstack]
        exact hgo hstep
      | underflows hstack =>
        rw [evaluate_of_length_lt limit offset rest (stack.depth_eq ▸ hstack)]
        rfl
    | negate =>
      cases hacts with
      | negates hstack =>
        rw [hstack]
        exact hgo hstep
      | underflows hstack =>
        rw [evaluate_of_length_lt limit offset rest (stack.depth_eq ▸ hstack)]
        rfl

/-- The commands of a source are those that its forms hold. -/
theorem commands_of_sourceForm {source : String} {forms : List (Option Command)}
    (h : SourceForm source forms) : commands source = forms.reduceOption := by
  rw [SourceForm, LinesForm] at h
  rw [commands]
  generalize (Text.lines source.toList).zipIdx 1 = lines at h
  induction h with
  | nil => rfl
  | @cons line form lines forms hline hrest ih =>
    obtain ⟨line, number⟩ := line
    rw [List.filterMap_cons, ih]
    simp only [(lineForm_iff.mp hline).1]
    cases form with
    | none => rfl
    | some command => rfl

/-- The machine runs the chunk of commands as the commands are evaluated. -/
theorem runOf_chunkOf (config : Machine.Config) {commands : List Command}
    (h : (writtenConstants commands).length ≤ maxConstants) :
    ((Machine.runOf config (chunkOf commands)).result,
      (Machine.runOf config (chunkOf commands)).stack.values) =
        evaluate config.stackMax 0 [] commands := by
  rw [Machine.runOf, Chunk.decode_of_encode (cells_chunkOf commands)]
  refine run_place_program ?_ 0 0 .empty commands (Nat.zero_le _) (pool_chunkOf commands)
  exact Nat.le_trans (Nat.le_of_eq (poolSize_chunkOf commands)) h

/-- Assembling a source and running the chunk gives the result and leaves the stack of evaluating
the source: its commands are those that its lines hold, and every machine, whatever it ran
before, ends as their evaluation does. -/
theorem interpret_assemble_eq_evaluate {source : String} {c : Chunk} (h : assemble source = .ok c) :
    (∃ forms, SourceForm source forms ∧ commands source = forms.reduceOption) ∧
      ∀ m : Machine,
        (m.interpret c).1 = (evaluate m.config.stackMax 0 [] (commands source)).1 ∧
          (m.interpret c).2.stack.values =
            (evaluate m.config.stackMax 0 [] (commands source)).2 := by
  obtain ⟨forms, hforms, hconstants, rfl⟩ := assemble_eq_ok_iff.mp h
  have hcommands := commands_of_sourceForm hforms
  refine ⟨⟨forms, hforms, hcommands⟩, fun m => ?_⟩
  rw [hcommands, ← runOf_chunkOf m.config hconstants]
  exact ⟨rfl, rfl⟩

/-- A difference of two constants leaves too few values for the addition after it. -/
theorem interpret_assemble_difference :
    ∃ c, assemble "CONSTANT 10\n; ten\n@40 constant 4 ; four\nOP_SUBTRACT\nADD" = .ok c ∧
      ((⟨⟨2, false⟩, .empty⟩ : Machine).interpret c).1 =
        .error ⟨5, 5, .stackUnderflow (.arith .add)⟩ ∧
      ((⟨⟨2, false⟩, .empty⟩ : Machine).interpret c).2.stack.values = [Value.ofNat 6] := by
  obtain ⟨c, hc⟩ : ∃ c,
      assemble "CONSTANT 10\n; ten\n@40 constant 4 ; four\nOP_SUBTRACT\nADD" = .ok c := ⟨_, rfl⟩
  have hrun := (interpret_assemble_eq_evaluate hc).2 ⟨⟨2, false⟩, .empty⟩
  exact ⟨c, hc, hrun.1.trans (by decide), hrun.2.trans (by decide)⟩

end StackBytecode.Assembly
