import StackBytecode.Proofs.Assembly.Refinement
import StackBytecode.Proofs.Machine.Agreement
import StackBytecode.Rendering

/-!
# Assembled code is safe to run

The operands that the assembler writes count its constants from zero, and a constant is in
the pool by the time the code is complete: no operand dangles, so assembled chunks are
valid, also in the parts behind a return. A run pushes each constant at most once and
nothing else makes the stack deeper, so a stack for as many values as an operand byte can
count never overflows. What is left to go wrong is a stack with too few values.
-/

namespace StackBytecode.Assembly

open Decoding (place)

/-- Every constant operand of a program counts constants that its commands write. -/
theorem operand_lt_of_mem_program {used : Nat} {commands : List Command} {line : UInt32}
    {index : UInt8} (hused : used + (writtenConstants commands).length ≤ maxConstants)
    (h : (line, .constant index) ∈ program used commands) :
    index.toNat < used + (writtenConstants commands).length := by
  have hoperand : index ∈ (program used commands).filterMap fun entry => entry.2.operand? :=
    List.mem_filterMap.mpr ⟨_, h, rfl⟩
  have hindex := List.mem_map_of_mem (f := UInt8.toNat) hoperand
  rw [operands_program used hused] at hindex
  exact (List.mem_range'_1.mp hindex).2

/-- The chunk of commands is valid. -/
theorem validationFault?_chunkOf {commands : List Command}
    (h : (writtenConstants commands).length ≤ maxConstants) :
    (chunkOf commands).validationFault? = none := by
  refine Chunk.validationFault?_of_encode (cells_chunkOf commands) fun line index hmem => ?_
  rw [poolSize_chunkOf, ← Nat.zero_add (writtenConstants commands).length]
  exact operand_lt_of_mem_program (by omega) hmem

/-- A valid chunk is not refused for being invalid. -/
theorem render_ne_notValid {c : Chunk} (h : c.validationFault? = none) (name : String)
    (options : RenderOptions) (fault : ValidationFault) :
    c.render name options ≠ .error (.notValid fault) := by
  rw [Chunk.render, Chunk.refusal?, h]
  by_cases hempty : options.strict ∧ c.size = 0
  · rw [if_pos hempty]
    intro hrefused
    cases hrefused
  · rw [if_neg hempty]
    split
    case h_1 other hother => simp at hother
    case h_2 => exact fun hrefused => by cases hrefused

/-- Evaluating commands overflows no stack that has room for all of their constants. -/
theorem evaluate_ne_overflow {limit offset : Nat} {stack : List Value} {commands : List Command}
    {fault : RuntimeFault} (h : stack.length + (writtenConstants commands).length ≤ limit)
    (hfault : (evaluate limit offset stack commands).1 = .error fault) :
    fault.item ≠ .stackOverflow limit := by
  induction commands generalizing offset stack with
  | nil => cases hfault
  | cons c rest ih =>
    obtain ⟨line, s, extra⟩ := c
    rw [length_writtenConstants_cons] at h
    dsimp only at h
    by_cases hlow : stack.length < s.arity
    · rw [evaluate_of_length_lt limit offset rest hlow] at hfault
      rw [← Except.error.inj hfault]
      exact fun h => by cases h
    cases s with
    | constant v =>
      change stack.length + (1 + (writtenConstants rest).length) ≤ limit at h
      rw [evaluate_constant, if_neg (by omega)] at hfault
      exact ih (by rw [List.length_cons]; omega) hfault
    | ret => cases stack <;> cases hfault
    | arith f =>
      match stack, hlow with
      | [], hlow => exact absurd (Nat.zero_lt_two) hlow
      | [_], hlow => exact absurd (Nat.one_lt_two) hlow
      | b :: a :: below, _ => exact ih (by simp at h ⊢; omega) hfault
    | negate =>
      match stack, hlow with
      | [], hlow => exact absurd (Nat.zero_lt_one) hlow
      | a :: below, _ => exact ih (by simp at h ⊢; omega) hfault

/-- Assembled code is valid, so that verifying it never refuses it, and running it meets no
fault of the code; with room for 256 values, as there is by default, it meets none but a
stack with too few values. -/
theorem assembled_chunk_safe {source : String} {c : Chunk} (h : assemble source = .ok c) :
    c.validationFault? = none ∧
      (∀ name options fault, c.render name options ≠ .error (.notValid fault)) ∧
      (∀ (m : Machine) fault, (m.interpret c).1 = .error fault →
        (∀ cause, fault.item ≠ .decode cause) ∧
          (∀ index size, fault.item ≠ .constantOutOfRange index size) ∧
          (256 ≤ m.config.stackMax → ∃ op, fault.item = .stackUnderflow op)) ∧
      256 ≤ ({} : Machine.Config).stackMax := by
  obtain ⟨forms, hforms, hconstants, rfl⟩ := assemble_eq_ok_iff.mp h
  have hvalid := validationFault?_chunkOf hconstants
  refine ⟨hvalid, render_ne_notValid hvalid, ?_, Nat.le_refl 256⟩
  · intro m fault hfault
    rcases Machine.result_of_valid m.config hvalid with ⟨value, hvalue⟩ | ⟨other, hother, hcause⟩
    · cases hfault.symm.trans hvalue
    obtain rfl : fault = other := Except.error.inj (hfault.symm.trans hother)
    have hevaluate : (evaluate m.config.stackMax 0 [] forms.reduceOption).1 = .error fault := by
      rw [← runOf_chunkOf m.config hconstants]
      exact hfault
    rcases hcause with ⟨op, hop⟩ | hoverflow
    · simp [hop]
    · refine ⟨by simp [hoverflow], by simp [hoverflow], fun hroom => ?_⟩
      have hfits := Nat.le_trans hconstants hroom
      exact absurd hoverflow (evaluate_ne_overflow (by simpa using hfits) hevaluate)

/-- The addition of a single value assembles and is valid; only its run can fail, for want of the
other value. -/
theorem assembled_chunk_safe_lone_addition :
    ∃ c, assemble "@7 CONSTANT 2.5\nop_negate\nADD\nRETURN" = .ok c ∧ c.validationFault? = none ∧
      ∀ fault, (({} : Machine).interpret c).1 = .error fault →
        ∃ op, fault.item = .stackUnderflow op := by
  obtain ⟨c, hc⟩ : ∃ c, assemble "@7 CONSTANT 2.5\nop_negate\nADD\nRETURN" = .ok c := ⟨_, rfl⟩
  obtain ⟨hvalid, -, hrun, hroom⟩ := assembled_chunk_safe hc
  exact ⟨c, hc, hvalid, fun fault hfault => (hrun {} fault hfault).2.2 hroom⟩

end StackBytecode.Assembly
