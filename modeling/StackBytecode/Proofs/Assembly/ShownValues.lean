import StackBytecode.Proofs.Assembly.Reassembly
import StackBytecode.Proofs.Number.Stability

/-!
# Shown values as source text

The text that a value is shown with can stand in source as the number of a constant. What is assembled from
it is one constant that is shown with the same text, for every value but the doubles of less than full
precision.
-/

namespace StackBytecode.Assembly

/-- A constant alone is assembled from its token. -/
theorem assemble_constant {token : List Char} {w : Value} (h : Denotes token w) {source : String}
    (hsource : source.toList = "CONSTANT ".toList ++ token) :
    ∃ c, assemble source = .ok c ∧ c.constants = [w] := by
  have hwords : ∀ word ∈ ["CONSTANT".toList, token], word ≠ [] ∧ ∀ c ∈ word, Text.IsPlain c := by
    intro word hword
    rcases List.mem_pair.mp hword with rfl | rfl
    · exact ⟨by decide, by decide⟩
    · exact ⟨h.ne_nil, h.1⟩
  have hline : source.toList = [' '].intercalate ["CONSTANT".toList, token] := by
    rw [hsource, List.intercalate_cons_cons, List.intercalate_singleton]
    rfl
  have hnewline : ∀ c ∈ source.toList, c ≠ '\n' := by
    rw [hline]
    refine forall_mem_intercalate (by decide) fun word hword c hc => ?_
    rintro rfl
    exact absurd ((hwords word hword).2 _ hc).1 (by decide)
  have hlines : Text.lines source.toList = [[' '].intercalate ["CONSTANT".toList, token]] := by
    rw [Text.lines_of_forall_ne_newline hnewline, if_neg (by simp [hsource]), hline]
  have hname : Names "CONSTANT".toList .constant := ⟨[], "CONSTANT".toList, rfl, .inl rfl, by decide⟩
  have hform : SourceForm source [some ⟨recordedLine 1, .constant w, none⟩] := by
    rw [SourceForm, hlines]
    exact .cons ⟨_, spells_intercalate hwords, .statement (.constant hname h.2)⟩ .nil
  exact ⟨_, assemble_eq_ok_iff.mpr ⟨_, hform, Nat.le_add_left 1 255, rfl⟩, pool_chunkOf _⟩

/-- The text of a value that is no number, infinite, zero or no smaller than the least normal double is the
number of a constant that is shown with the same text. -/
theorem assemble_text_stable (v : Value)
    (h : ∀ negative m, v.double = .finite negative m → m.value = 0 ∨ Number.Double.leastNormal ≤ m.value) :
    ∃ c w, assemble ("CONSTANT " ++ v.text) = .ok c ∧ c.constants = [w] ∧ w.text = v.text := by
  obtain ⟨w, hread, htext⟩ := v.exists_ofText? h
  obtain ⟨c, hassemble, hconstants⟩ :=
    assemble_constant ⟨v.isPlain_of_mem_text, hread⟩ String.toList_append
  exact ⟨c, w, hassemble, hconstants, htext⟩

/-- A double just below a power of ten is shown as the power, and so is the one that is read. -/
theorem assemble_text_stable_power :
    ∃ c w, assemble "CONSTANT 1e+23" = .ok c ∧ c.constants = [w] ∧ w.text = "1e+23" := by
  have hdouble : (Value.ofBits 0x44B52D02C7E14AF6).double = .finite false ⟨5960464477539062, 24⟩ := rfl
  have htext : (Value.ofBits 0x44B52D02C7E14AF6).text = "1e+23" := by
    rw [Value.text_of_finite hdouble]
    rfl
  have hnormal : ∀ negative m, (Value.ofBits 0x44B52D02C7E14AF6).double = .finite negative m →
      m.value = 0 ∨ Number.Double.leastNormal ≤ m.value := by
    intro negative m hm
    rw [hdouble] at hm
    obtain ⟨-, rfl⟩ := Number.Double.finite.inj hm
    right
    have hone : (2 : ℚ) ^ (-1022 : ℤ) ≤ 1 := zpow_le_one_of_nonpos₀ one_le_two (by decide)
    exact hone.trans (by norm_num [Number.Magnitude.value])
  have hstable := assemble_text_stable _ hnormal
  rwa [htext] at hstable

end StackBytecode.Assembly
