import StackBytecode.Proofs.Assembly.FirstFault
import StackBytecode.Proofs.Text.Colorless
import StackBytecode.Tool.Command

/-!
# Messages and renderings without colour

What the tools say is made of fixed words, numbers and mnemonics, of names that they were given and
of words quoted from a source. So a message or a rendering has no styles if these names and this
source have none. A fault of assembling quotes at most one word, and that is a word of the line of
the fault; no other fault quotes anything.
-/

namespace StackBytecode

open Text

/-! ## Faults of code -/

/-- A decoding fault is told in visible characters and spaces. -/
theorem DecodeCause.isShown_message (offset : Nat) (cause : DecodeCause) :
    IsShown (cause.message offset) := by
  have hplace : IsShown " at offset " := by decide
  cases cause with
  | unknownOpcode byte =>
    have hbyte : IsShown (Opcode.unknownMessage byte) :=
      (by decide : IsShown "unknown opcode ").append (isShown_repr _)
    exact (hbyte.append hplace).append (isShown_repr offset)
  | truncatedOperand op =>
    exact ((op.isShown_mnemonic.append hplace).append (isShown_repr offset)).append
      (by decide : IsShown " is missing its operand")

/-- A validation fault is told in visible characters and spaces. -/
theorem ValidationFault.isShown_message (fault : ValidationFault) : IsShown fault.message := by
  have hline : IsShown ("line " ++ fault.line.toNat.repr) :=
    (by decide : IsShown "line ").append (isShown_repr _)
  rw [message]
  split
  case h_1 cause hcause =>
    exact (hline.append (by decide : IsShown ": ")).append (cause.isShown_message _)
  case h_2 index size hcause =>
    have hindex := (hline.append (by decide : IsShown ": constant ")).append (isShown_repr index)
    have hoffset := (hindex.append (by decide : IsShown " at offset ")).append (isShown_repr fault.offset)
    exact ((hoffset.append (by decide : IsShown " is out of range (pool holds ")).append
      (isShown_repr size)).append (by decide : IsShown ")")

/-- A fault of a run is told in visible characters and spaces. -/
theorem RuntimeFault.isShown_message (fault : RuntimeFault) : IsShown fault.message := by
  have hline : IsShown ("[line " ++ fault.line.toNat.repr ++ "] ") :=
    ((by decide : IsShown "[line ").append (isShown_repr _)).append (by decide : IsShown "] ")
  rw [message]
  refine hline.append ?_
  split
  case h_1 cause hcause => exact cause.isShown_message _
  case h_2 index size hcause =>
    have hindex := (by decide : IsShown "constant ").append (isShown_repr index)
    exact ((hindex.append (by decide : IsShown " out of range (pool holds ")).append
      (isShown_repr size)).append (by decide : IsShown ")")
  case h_3 op hop =>
    exact (by decide : IsShown "stack underflow in ").append op.isShown_mnemonic
  case h_4 limit hlimit =>
    exact ((by decide : IsShown "stack overflow (max ").append (isShown_repr limit)).append
      (by decide : IsShown ")")

/-- No message about a validation fault has styles. -/
theorem ValidationFault.isColorless_of_mem_chain (fault : ValidationFault) :
    ∀ message ∈ fault.chain, IsColorless message := by
  refine List.forall_mem_cons.mpr ⟨fault.isShown_message.isColorless, ?_⟩
  split
  · exact List.forall_mem_singleton.mpr (DecodeCause.isShown_message _ _).isColorless
  · exact fun _ h => absurd h List.not_mem_nil

/-- No message about a fault of a run has styles. -/
theorem RuntimeFault.isColorless_of_mem_chain (fault : RuntimeFault) :
    ∀ message ∈ fault.chain, IsColorless message := by
  refine List.forall_mem_cons.mpr ⟨fault.isShown_message.isColorless, ?_⟩
  split
  · exact List.forall_mem_singleton.mpr (DecodeCause.isShown_message _ _).isColorless
  · exact fun _ h => absurd h List.not_mem_nil

/-! ## Faults of source -/

namespace Assembly

/-- The word of a line that a cause quotes; it is empty when there is none. -/
def Cause.quotedWord : Cause → String
  | .unknownInstruction name => name
  | .invalidNumber found => found
  | .trailingInput _ found => found
  | .invalidLineOverride found => found
  | .tooManyConstants => ""

/-- A fault of source has no styles if the word that it quotes has none. -/
theorem Fault.isColorless_message {fault : Fault} (h : IsColorless fault.cause.quotedWord) :
    IsColorless fault.message := by
  have hquoted {word : String} (hword : IsColorless word) : IsColorless (message.quoted word) :=
    ((by decide : IsColorless "\x60").append hword).append (by decide)
  have hline : IsColorless ("line " ++ fault.line.repr ++ ": ") :=
    (((by decide : IsShown "line ").append (isShown_repr _)).append (by decide)).isColorless
  obtain ⟨line, cause⟩ := fault
  refine hline.append ?_
  cases cause with
  | unknownInstruction name => exact (by decide : IsColorless "unknown instruction ").append (hquoted h)
  | invalidNumber found =>
    exact (by decide : IsColorless "expected a number, found ").append (hquoted h)
  | trailingInput op found =>
    exact (((by decide : IsColorless "unexpected ").append (hquoted h)).append (by decide)).append
      op.isShown_mnemonic.isColorless
  | invalidLineOverride found =>
    exact (by decide : IsColorless "invalid line override ").append (hquoted h)
  | tooManyConstants =>
    exact (by decide : IsColorless s!"too many constants in one chunk (max {maxConstants})")

/-- The words behind an override are words of the line. -/
theorem mem_of_mem_statementWords {words : List (List Char)} {word : List Char}
    (h : word ∈ statementWords words) : word ∈ words := by
  unfold statementWords at h
  split at h
  · exact List.mem_cons_of_mem _ h
  · exact h

/-- What a cause quotes is a word of the line, if it is not empty. -/
theorem Violates.quotedWord {used : Nat} {words : List (List Char)} {cause : Cause}
    (h : Violates used words cause) :
    cause.quotedWord = "" ∨ ∃ word ∈ words, cause.quotedWord = String.ofList word := by
  cases h with
  | override hwords =>
    rw [hwords]
    exact .inr ⟨_, List.mem_cons_self .., rfl⟩
  | name hwords =>
    refine .inr ⟨_, mem_of_mem_statementWords ?_, rfl⟩
    rw [hwords]
    exact List.mem_cons_self ..
  | @number name rest hwords hname hnumber =>
    cases rest with
    | nil => exact .inl rfl
    | cons next rest =>
      refine .inr ⟨next, mem_of_mem_statementWords ?_, rfl⟩
      rw [hwords]
      exact List.mem_cons_of_mem _ (List.mem_cons_self ..)
  | constants => exact .inl rfl
  | trailing hwords hs =>
    refine .inr ⟨_, mem_of_mem_statementWords ?_, rfl⟩
    rw [hwords]
    exact List.mem_append_right _ (List.mem_cons_self ..)

/-- A source without styles does not assemble with a message without styles. -/
theorem isColorless_of_assemble_eq_error {source : String} {fault : Fault}
    (h : assemble source = .error fault) (hsource : IsColorless source) : IsColorless fault.message := by
  rw [assemble_eq_error_iff, sourceEffect] at h
  obtain ⟨before, line, after, forms, hlines, -, hconstants, hfault⟩ :=
    exists_first_fault (Nat.zero_le _) h
  obtain ⟨-, hviolation⟩ := firstViolation_of_linesEffect hconstants hfault
  have hline : line ∈ lines source.toList := by
    rw [hlines]
    exact List.mem_append_right _ (List.mem_cons_self ..)
  refine Fault.isColorless_message ?_
  rcases hviolation.violates.quotedWord with hnone | ⟨word, hword, hquoted⟩
  · rw [hnone]
    decide
  · rw [hquoted]
    refine hsource.ofList fun c hc => mem_of_mem_lines hline c ?_
    exact (List.takeWhile_sublist _).subset (mem_of_mem_words hword c hc)

end Assembly

/-! ## Renderings -/

namespace Chunk

/-- Entries that are shown in visible characters and spaces have no styles together. -/
theorem isColorless_linesOf {text : Listing.Entry → String} (h : ∀ e, IsShown (text e))
    (entries : List Listing.Entry) : IsColorless (linesOf text entries) := by
  refine isColorless_join (List.forall_mem_map.mpr fun e _ => ?_)
  exact (h e).isColorless.append (by decide)

/-- The summary of a chunk has no styles under a name without them. -/
theorem isColorless_summary (c : Chunk) {name : String} (hname : IsColorless name) :
    IsColorless (c.summary name) := by
  have hbytes := ((by decide : IsShown ": ").append (isShown_repr c.size)).append
    (by decide : IsShown " bytes (capacity ")
  have hsizes := (hbytes.append (isShown_repr c.cells.capacity)).append (by decide : IsShown "), ")
  have hconstants := (hsizes.append (isShown_repr c.poolSize)).append (by decide : IsShown " constants, ")
  have hinstructions := (isShown_repr c.instructions.length).append (by decide : IsShown " instructions, ")
  have hruns := (hinstructions.append (isShown_repr c.lineRuns.length)).append
    (by decide : IsShown " line runs")
  exact (hname.append hconstants.isColorless).append hruns.isColorless

/-- A chunk has no styles in any mode under a name without them. -/
theorem isColorless_textIn (c : Chunk) {name : String} (hname : IsColorless name) (mode : ListingMode) :
    IsColorless (c.textIn name mode) := by
  cases mode with
  | full =>
    rw [textIn, fullListing_eq]
    exact (((by decide : IsColorless "== ").append hname).append (by decide)).append
      (isColorless_linesOf Listing.Entry.isShown_full _)
  | compact =>
    rw [textIn, compactListing_eq]
    exact isColorless_linesOf Listing.Entry.isShown_compact _
  | summary => exact (c.isColorless_summary hname).append (by decide)
  | json => exact (Json.isColorless_prettyAt 0 _).append (by decide)

/-- What is rendered of a chunk has no styles under a name without them. -/
theorem isColorless_of_render_eq_ok {c : Chunk} {name text : String} {options : RenderOptions}
    (hname : IsColorless name) (h : c.render name options = .ok text) : IsColorless text := by
  unfold render at h
  split at h
  · cases h
  · obtain rfl := Except.ok.inj h
    exact c.isColorless_textIn hname _

/-- A chunk is refused without styles under a name without them. -/
theorem isColorless_of_mem_renderChain {name : String} (hname : IsColorless name) (fault : RenderFault) :
    ∀ message ∈ fault.chain name, IsColorless message := by
  cases fault with
  | emptyChunk => exact List.forall_mem_singleton.mpr (hname.append (by decide))
  | notValid fault =>
    exact List.forall_mem_cons.mpr
      ⟨(by decide : IsColorless "verifying ").append hname, fault.isColorless_of_mem_chain⟩

end Chunk

end StackBytecode
