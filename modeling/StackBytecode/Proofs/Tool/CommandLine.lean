import StackBytecode.Proofs.Assembly.Grammar
import StackBytecode.Tool.Command

/-!
# What is read from a command line

The values and operands that a command line is read as are cut from its arguments: they hold no
character that the arguments do not hold. The reading goes from left to right with the arguments
read so far, so the invariant is about these, and each of the ways to go on adds a value or an
operand at their end.
-/

namespace StackBytecode.Tool.Arguments

open Assembly (bind_eq_ok_iff)

variable {P : Char → Prop} {usage : Usage} {a b : Arguments}

/-- Arguments whose values and operands are made of certain characters. -/
structure Over (P : Char → Prop) (a : Arguments) : Prop where
  values : ∀ option ∈ a.options, ∀ c ∈ option.2.toList, P c
  operands : ∀ operand ∈ a.operands, ∀ c ∈ operand.toList, P c

/-- Adding an option keeps the operands, and adds its value to the options. -/
theorem eq_of_addOption {option : OptionSpec} {value : String} (h : a.addOption option value = .ok b) :
    b = { a with options := a.options ++ [(option.name, value)] } := by
  unfold addOption at h
  dsimp only at h
  split at h
  · exact (Except.ok.inj h).symm
  all_goals
    split at h
    · cases h
    · exact (Except.ok.inj h).symm

/-- Adding an operand keeps the options. -/
theorem eq_of_addOperand {operand : String} (h : addOperand usage a operand = .ok b) :
    b = { a with operands := a.operands ++ [operand] } := by
  unfold addOperand addOperand.add at h
  split at h
  · split at h
    · exact (Except.ok.inj h).symm
    · cases h
  · exact (Except.ok.inj h).symm

namespace Over

theorem addOption (ha : a.Over P) {option : OptionSpec} {value : String} (hvalue : ∀ c ∈ value.toList, P c)
    (h : a.addOption option value = .ok b) : b.Over P := by
  rw [eq_of_addOption h]
  exact ⟨List.forall_mem_append.mpr ⟨ha.values, List.forall_mem_singleton.mpr hvalue⟩, ha.operands⟩

theorem addOperand (ha : a.Over P) {operand : String} (hoperand : ∀ c ∈ operand.toList, P c)
    (h : addOperand usage a operand = .ok b) : b.Over P := by
  rw [eq_of_addOperand h]
  exact ⟨ha.values, List.forall_mem_append.mpr ⟨ha.operands, List.forall_mem_singleton.mpr hoperand⟩⟩

/-- Operands behind the end of the options. -/
theorem foldlM_addOperand (ha : a.Over P) {rest : List String}
    (hrest : ∀ operand ∈ rest, ∀ c ∈ operand.toList, P c)
    (h : rest.foldlM (Arguments.addOperand usage) a = .ok b) : b.Over P := by
  induction rest generalizing a with
  | nil => exact Except.ok.inj h ▸ ha
  | cons operand rest ih =>
    obtain ⟨hoperand, hrest⟩ := List.forall_mem_cons.mp hrest
    rw [List.foldlM_cons] at h
    obtain ⟨next, hnext, h⟩ := bind_eq_ok_iff.mp h
    exact ih (ha.addOperand hoperand hnext) hrest h

/-- Letters have no values. -/
theorem addLetters (ha : a.Over P) {letters : List Char} (h : addLetters usage a letters = .ok b) :
    b.Over P := by
  fun_induction Arguments.addLetters usage a letters with
  | case1 a => exact Except.ok.inj h ▸ ha
  | case2 | case3 | case4 => cases h
  | case5 a letter letters _ _ option _ ih =>
    obtain ⟨next, hnext, h⟩ := bind_eq_ok_iff.mp h
    exact ih next (ha.addOption (by simp) hnext) h

/-- The value behind an equals sign is part of the argument. -/
theorem of_splitEquals {long : List Char} {name value : String}
    (h : splitEquals long = (name, some value)) (hlong : ∀ c ∈ long, P c) : ∀ c ∈ value.toList, P c := by
  unfold splitEquals at h
  dsimp only at h
  split at h
  case h_1 first text hdrop =>
    obtain rfl : String.ofList text = value := by simpa using (Prod.mk.inj h).2
    rw [String.toList_ofList]
    have hsub : (first :: text).Sublist long := hdrop ▸ List.dropWhile_sublist _
    exact fun c hc => hlong c (hsub.subset (List.mem_cons_of_mem _ hc))
  case h_2 => cases h

/-- What is read onto arguments of certain characters from more of them has no others. -/
theorem readOnto (ha : a.Over P) {arguments : List String}
    (harguments : ∀ argument ∈ arguments, ∀ c ∈ argument.toList, P c)
    (h : readOnto usage a arguments = .ok b) : b.Over P := by
  fun_induction Arguments.readOnto usage a arguments with
  | case1 a => exact Except.ok.inj h ▸ ha
  | case2 a argument rest => exact ha.foldlM_addOperand (List.forall_mem_cons.mp harguments).2 h
  | case3 | case6 | case7 | case8 => cases h
  | case4 a argument long _ hlong name option _ valid value rest _ hsplit ih =>
    obtain ⟨hargument, hrest⟩ := List.forall_mem_cons.mp harguments
    obtain ⟨next, hnext, h⟩ := bind_eq_ok_iff.mp h
    rw [hlong] at hargument
    have hvalue := of_splitEquals hsplit fun c hc =>
      hargument c (List.mem_cons_of_mem _ (List.mem_cons_of_mem _ hc))
    exact ih next (ha.addOption hvalue hnext) hrest h
  | case5 a argument long _ _ name option _ valid value rest _ _ _ ih =>
    obtain ⟨-, hvalue, hrest⟩ := List.forall_mem_cons.mp harguments |>.imp_right List.forall_mem_cons.mp
    obtain ⟨next, hnext, h⟩ := bind_eq_ok_iff.mp h
    exact ih next (ha.addOption hvalue hnext) hrest h
  | case9 a argument long _ _ name option _ rest _ _ _ ih =>
    obtain ⟨next, hnext, h⟩ := bind_eq_ok_iff.mp h
    exact ih next (ha.addOption (by simp) hnext) (List.forall_mem_cons.mp harguments).2 h
  | case10 a argument rest letter letters _ _ _ ih =>
    obtain ⟨next, hnext, h⟩ := bind_eq_ok_iff.mp h
    exact ih next (ha.addLetters hnext) (List.forall_mem_cons.mp harguments).2 h
  | case11 a argument rest _ _ _ ih =>
    obtain ⟨hargument, hrest⟩ := List.forall_mem_cons.mp harguments
    obtain ⟨next, hnext, h⟩ := bind_eq_ok_iff.mp h
    exact ih next (ha.addOperand hargument hnext) hrest h

/-- What is read from arguments of certain characters has no others. -/
theorem read {arguments : List String} (harguments : ∀ argument ∈ arguments, ∀ c ∈ argument.toList, P c)
    (h : Arguments.read usage arguments = .ok a) : a.Over P :=
  readOnto ⟨by simp, by simp⟩ harguments h

/-- The value that an option was given is made of these characters. -/
theorem value? (ha : a.Over P) {name value : String} (h : a.value? name = some value) :
    ∀ c ∈ value.toList, P c := by
  obtain ⟨before, after, hoptions, -⟩ := List.lookup_eq_some_iff.mp h
  exact ha.values (name, value) (by simp [hoptions])

end Over

end StackBytecode.Tool.Arguments
