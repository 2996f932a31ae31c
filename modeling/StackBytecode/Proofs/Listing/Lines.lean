import Mathlib.Data.List.DropRight
import StackBytecode.Proofs.Listing.Coverage
import StackBytecode.Proofs.Text.Printed

/-!
# Entries are lines

Every entry of a listing is one line of text: words with single characters of space between
and around them, and no space at its end. So cutting a listing at its line feeds gives back
the entries, and taking the blanks off the end of a written entry takes off its line feed
and nothing else.
-/

namespace StackBytecode

namespace Text

/-- A text without the blanks at its end. -/
def trimEnd (text : String) : String := String.ofList (text.toList.rdropWhile isBlank)

/-- A text that stays on one line: characters of words, and spaces. -/
def IsLine (text : String) : Prop := ∀ c ∈ text.toList, IsPlain c ∨ c = ' '

/-- A text that ends within a word. -/
def EndsPlain (text : String) : Prop := ∃ front c, text.toList = front ++ [c] ∧ IsPlain c

/-- A text of visible characters and spaces. -/
def IsShown (text : String) : Prop := ∀ c ∈ text.toList, IsVisible c ∨ c = ' '

instance (text : String) : Decidable (IsShown text) :=
  List.decidableBAll (fun c => IsVisible c ∨ c = ' ') text.toList

/-- A text of visible characters and spaces stays on one line. -/
theorem IsShown.isLine {text : String} (h : IsShown text) : IsLine text :=
  fun c hc => (h c hc).imp_left IsVisible.isPlain

/-- Visible characters and spaces of two texts are such of both together. -/
theorem IsShown.append {s t : String} (hs : IsShown s) (ht : IsShown t) : IsShown (s ++ t) := by
  intro c hc
  rw [String.toList_append, List.mem_append] at hc
  rcases hc with hc | hc
  · exact hs c hc
  · exact ht c hc

/-- Visible characters alone are visible characters and spaces. -/
theorem isShown_of_isVisible {text : String} (h : ∀ c ∈ text.toList, IsVisible c) : IsShown text :=
  fun c hc => .inl (h c hc)

/-- A text that ends within a word still does with another in front of it. -/
theorem EndsPlain.append {t : String} (h : EndsPlain t) (s : String) : EndsPlain (s ++ t) := by
  obtain ⟨front, c, htext, hc⟩ := h
  refine ⟨s.toList ++ front, c, ?_, hc⟩
  rw [String.toList_append, htext, List.append_assoc]

/-- A word ends within a word. -/
theorem endsPlain_of_isPlain {text : String} (hne : text.toList ≠ [])
    (h : ∀ c ∈ text.toList, IsPlain c) : EndsPlain text :=
  ⟨_, _, (List.dropLast_append_getLast hne).symm, h _ (List.getLast_mem hne)⟩

/-- No line end is in a text on one line. -/
theorem IsLine.ne_newline {text : String} (h : IsLine text) : ∀ c ∈ text.toList, c ≠ '\n' ∧ c ≠ '\r' := by
  intro c hc
  rcases h c hc with ⟨hblank, -⟩ | rfl
  · constructor
    · rintro rfl
      exact absurd hblank (by decide)
    · rintro rfl
      exact absurd hblank (by decide)
  · decide

/-- Taking the blanks off the end of a written line takes off its line feed. -/
theorem EndsPlain.trimEnd_append_newline {text : String} (h : EndsPlain text) :
    trimEnd (text ++ "\n") = text := by
  obtain ⟨front, c, htext, hblank, -⟩ := h
  have hnewline : isBlank '\n' = true := by decide
  apply String.toList_inj.mp
  rw [trimEnd, String.toList_ofList, String.toList_append, htext]
  change ((front ++ [c]) ++ ['\n']).rdropWhile isBlank = front ++ [c]
  rw [List.rdropWhile_concat_pos _ _ _ hnewline, List.rdropWhile_concat_neg _ _ _ (by simp [hblank])]

/-- Texts on one line each, with a line feed behind each, are read back. -/
theorem lines_join {texts : List String} (h : ∀ text ∈ texts, IsLine text) :
    lines (String.join (texts.map (· ++ "\n"))).toList = texts.map String.toList := by
  have hunlines : (String.join (texts.map (· ++ "\n"))).toList = unlines (texts.map String.toList) := by
    rw [String.toList_join, unlines, List.flatMap_map, List.flatMap_map]
    simp only [String.toList_append]
    rfl
  rw [hunlines]
  exact lines_unlines (List.forall_mem_map.mpr fun text htext => (h text htext).ne_newline)

/-- A natural number is shown in visible characters. -/
theorem isShown_repr (n : Nat) : IsShown n.repr := isShown_of_isVisible isVisible_of_mem_repr

/-- A natural number behind zeros is shown in visible characters. -/
theorem isShown_zeroPadded (width n : Nat) : IsShown (zeroPadded width n) :=
  isShown_of_isVisible isVisible_of_mem_zeroPadded

/-- A natural number behind spaces is shown in visible characters and spaces. -/
theorem isShown_spacePadded (width n : Nat) : IsShown (spacePadded width n) :=
  fun _ hc => (eq_or_isVisible_of_mem_padLeft hc).symm

end Text

open Text

/-- A mnemonic is shown in visible characters. -/
theorem Opcode.isShown_mnemonic (op : Opcode) : IsShown op.mnemonic :=
  isShown_of_isVisible op.isVisible_of_mem_mnemonic

/-- A value is shown in visible characters. -/
theorem Value.isShown_text (v : Value) : IsShown v.text := isShown_of_isVisible v.isVisible_of_mem_text

namespace Listing

/-- A body is shown in visible characters and spaces. -/
theorem Body.isShown_text (body : Body) : IsShown body.text := by
  cases body with
  | constant index value =>
    have hpadded : IsShown (padRight 16 Opcode.constant.mnemonic) := by decide
    have hspace : IsShown " " := by decide
    have hplace := ((hpadded.append hspace).append (isShown_spacePadded 4 index.toNat)).append hspace
    cases value with
    | none => exact hplace.append (by decide : IsShown "<missing>")
    | some v =>
      have hquote : IsShown "'" := by decide
      exact hplace.append ((hquote.append v.isShown_text).append hquote)
  | plain op => exact op.isShown_mnemonic
  | unknown byte => exact (by decide : IsShown "Unknown opcode ").append (isShown_repr _)
  | truncated op => exact op.isShown_mnemonic.append (by decide : IsShown " <truncated>")
  | pastEnd => exact (by decide : IsShown "<end of chunk>")

/-- The text of a body ends within a word. -/
theorem Body.endsPlain_text (body : Body) : EndsPlain body.text := by
  cases body with
  | constant index value =>
    cases value with
    | none => exact EndsPlain.append (t := "<missing>") ⟨"<missing".toList, '>', rfl, by decide⟩ _
    | some v => exact (EndsPlain.append (t := "'") ⟨[], '\'', rfl, by decide⟩ _).append _
  | plain op => exact endsPlain_of_isPlain op.toList_mnemonic_ne_nil op.isPlain_of_mem_mnemonic
  | unknown byte =>
    exact (endsPlain_of_isPlain (toList_repr_ne_nil _) isPlain_of_mem_repr).append _
  | truncated op =>
    exact EndsPlain.append (t := " <truncated>") ⟨" <truncated".toList, '>', rfl, by decide⟩ _
  | pastEnd => exact ⟨"<end of chunk".toList, '>', rfl, by decide⟩

/-- The line column of an entry is shown in visible characters and spaces. -/
theorem Entry.isShown_lineColumn (e : Entry) : IsShown e.lineColumn := by
  rw [lineColumn]
  split
  case isTrue => decide
  case isFalse => exact isShown_spacePadded 4 _

/-- An entry of the full listing is shown in visible characters and spaces. -/
theorem Entry.isShown_full (e : Entry) : IsShown e.full := by
  have hspace : IsShown " " := by decide
  exact ((((isShown_zeroPadded 4 e.offset).append hspace).append e.isShown_lineColumn).append
    hspace).append e.body.isShown_text

/-- An entry of the compact listing is shown in visible characters and spaces. -/
theorem Entry.isShown_compact (e : Entry) : IsShown e.compact :=
  ((isShown_zeroPadded 4 e.offset).append (by decide : IsShown ": ")).append e.body.isShown_text

/-- An entry of the full listing stays on one line. -/
theorem Entry.isLine_full (e : Entry) : IsLine e.full := e.isShown_full.isLine

/-- An entry of the compact listing stays on one line. -/
theorem Entry.isLine_compact (e : Entry) : IsLine e.compact := e.isShown_compact.isLine

/-- An entry of the full listing ends within a word. -/
theorem Entry.endsPlain_full (e : Entry) : EndsPlain e.full := e.body.endsPlain_text.append _

end Listing

namespace Chunk

open Listing

/-- The lines of entries are read back, if what is on each stays on one line. -/
theorem lines_linesOf {text : Entry → String} (h : ∀ e, Text.IsLine (text e)) (entries : List Entry) :
    Text.lines (linesOf text entries).toList = entries.map fun e => (text e).toList := by
  have htexts : ∀ line ∈ entries.map text, Text.IsLine line := List.forall_mem_map.mpr fun e _ => h e
  have hlines := Text.lines_join htexts
  rwa [List.map_map, List.map_map] at hlines

end Chunk

end StackBytecode
