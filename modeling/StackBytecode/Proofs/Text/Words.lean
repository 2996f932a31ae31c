import StackBytecode.Text.Split

/-!
# Words between blanks, lines between line feeds

A blank in front of a text changes none of its words, and a word that a blank or the end
of the text closes is the first of them. Every text is made of these two pieces, so the
two equations determine the words of any text.

Lines that are written with a line feed behind each are read back, if none of them has a
character of a line end in it. Lines that are joined by line feeds are too, but for the carriage
returns at their ends and for a last line with nothing in it.

A text that is written piece by piece is all of the pieces joined.
-/

namespace StackBytecode.Text

/-- Writing texts one after the other to the end of a text writes all of them joined. -/
theorem foldl_append_eq_join {α : Type} (text : α → String) (list : List α) (out : String) :
    list.foldl (fun out a => out ++ text a) out = out ++ String.join (list.map text) := by
  induction list generalizing out with
  | nil => simp
  | cons a rest ih =>
    rw [List.foldl_cons, ih, List.map_cons, String.join_cons, String.append_assoc]

/-- A character that can be part of a word of source: no blank, and no start of a comment. -/
def IsPlain (c : Char) : Prop := isBlank c = false ∧ c ≠ ';'

instance (c : Char) : Decidable (IsPlain c) := inferInstanceAs (Decidable (_ ∧ _))

/-- A visible character of ASCII that starts no comment: names and numbers are printed with these. -/
def IsVisible (c : Char) : Prop := 33 ≤ c.toNat ∧ c.toNat ≤ 126 ∧ c ≠ ';'

instance (c : Char) : Decidable (IsVisible c) := inferInstanceAs (Decidable (_ ∧ _))

/-- A visible character can be part of a word. -/
theorem IsVisible.isPlain {c : Char} (h : IsVisible c) : IsPlain c := by
  obtain ⟨hlow, hhigh, hcomment⟩ := h
  have hblank : isBlank c = false := by
    simp [isBlank, blankRanges]
    omega
  exact ⟨hblank, hcomment⟩

/-- Characters that are not cut at join the first piece of what follows them. -/
theorem splitWhen_append (stop : Char → Bool) (word : List Char) {text piece : List Char}
    {pieces : List (List Char)} (hword : ∀ c ∈ word, stop c = false)
    (htext : splitWhen stop text = piece :: pieces) :
    splitWhen stop (word ++ text) = (word ++ piece) :: pieces := by
  induction word with
  | nil => exact htext
  | cons c word ih =>
    have hc : stop c = false := hword c (List.mem_cons_self ..)
    have hrest := ih fun d hd => hword d (List.mem_cons_of_mem _ hd)
    rw [List.cons_append, splitWhen_cons, hrest]
    simp [hc, attach]

/-- A blank in front of a text belongs to no word. -/
theorem words_cons_of_blank {c : Char} (hc : isBlank c = true) (text : List Char) :
    words (c :: text) = words text := by
  simp [words, hc]

/-- A word is followed by a blank or by nothing: then it is the first of the words. -/
theorem words_append_of_closed {word text : List Char} (hne : word ≠ [])
    (hword : ∀ c ∈ word, isBlank c = false) (hclosed : ∀ c ∈ text.head?, isBlank c = true) :
    words (word ++ text) = word :: words text := by
  have hsplit : ∃ pieces, splitWhen isBlank text = [] :: pieces := by
    cases text with
    | nil => exact ⟨[], rfl⟩
    | cons c rest => exact ⟨splitWhen isBlank rest, by simp [hclosed c rfl]⟩
  obtain ⟨pieces, hpieces⟩ := hsplit
  rw [words, words, splitWhen_append isBlank word hword hpieces, hpieces]
  simp [hne]

/-- A word is the only one of itself. -/
theorem words_of_isPlain {word : List Char} (hne : word ≠ []) (hword : ∀ c ∈ word, IsPlain c) :
    words word = [word] := by
  have hclosed : words (word ++ []) = word :: words [] :=
    words_append_of_closed hne (fun c hc => (hword c hc).1) (by simp)
  rwa [List.append_nil] at hclosed

/-- A word with a space behind it is the first of the words. -/
theorem words_append_space {word : List Char} (hne : word ≠ []) (hword : ∀ c ∈ word, IsPlain c)
    (text : List Char) : words (word ++ ' ' :: text) = word :: words text := by
  have hspace : isBlank ' ' = true := by decide
  rw [words_append_of_closed hne (fun c hc => (hword c hc).1) (by simp [hspace]),
    words_cons_of_blank hspace]

/-- Spaces in front of a text belong to no word. -/
theorem words_replicate_space_append (count : Nat) (text : List Char) :
    words (List.replicate count ' ' ++ text) = words text := by
  induction count with
  | zero => rfl
  | succ count ih =>
    rw [List.replicate_succ, List.cons_append, words_cons_of_blank (by decide), ih]

/-! ## Lines -/

/-- Lines with a line feed behind each. -/
def unlines (lines : List (List Char)) : List Char := lines.flatMap (· ++ ['\n'])

/-- A text has a piece also when it is cut nowhere. -/
theorem splitWhen_ne_nil (stop : Char → Bool) (text : List Char) : splitWhen stop text ≠ [] := by
  cases text with
  | nil => simp
  | cons c rest =>
    rw [splitWhen_cons]
    split
    case isTrue => simp
    case isFalse => cases splitWhen stop rest <;> simp [attach]

/-- A text that is cut nowhere is one piece. -/
theorem splitWhen_of_forall {stop : Char → Bool} {text : List Char} (h : ∀ c ∈ text, stop c = false) :
    splitWhen stop text = [text] := by
  have hsplit := splitWhen_append stop text h (splitWhen_nil stop)
  rwa [List.append_nil] at hsplit

/-- No piece has a character in it that is cut at. -/
theorem stop_eq_false_of_mem_splitWhen {stop : Char → Bool} {text piece : List Char}
    (h : piece ∈ splitWhen stop text) : ∀ c ∈ piece, stop c = false := by
  induction text generalizing piece with
  | nil =>
    obtain rfl : piece = [] := by simpa using h
    simp
  | cons d rest ih =>
    rw [splitWhen_cons] at h
    split at h
    case isTrue =>
      rcases List.mem_cons.mp h with rfl | h
      · simp
      · exact ih h
    case isFalse hd =>
      obtain ⟨first, others, hpieces⟩ := List.exists_cons_of_ne_nil (splitWhen_ne_nil stop rest)
      rw [hpieces] at h ih
      rcases List.mem_cons.mp h with rfl | h
      · exact List.forall_mem_cons.mpr ⟨Bool.of_not_eq_true hd, ih (List.mem_cons_self ..)⟩
      · exact ih (List.mem_cons_of_mem _ h)

/-- A line feed ends a line without one, and takes the carriage return before it along. -/
theorem lines_append_newline {line : List Char} (hline : ∀ c ∈ line, c ≠ '\n') (text : List Char) :
    lines (line ++ '\n' :: text) = dropReturn line :: lines text := by
  have hstop : splitWhen (· == '\n') ('\n' :: text) = [] :: splitWhen (· == '\n') text := rfl
  have hsplit := splitWhen_append (· == '\n') line (fun c hc => by simpa using hline c hc) hstop
  rw [lines, hsplit, List.append_nil, lines]
  obtain ⟨piece, pieces, hpieces⟩ := List.exists_cons_of_ne_nil (splitWhen_ne_nil (· == '\n') text)
  rw [hpieces, endedLines.eq_def]

/-- A text without a line feed is one line, or none if there is nothing in it. -/
theorem lines_of_forall_ne_newline {line : List Char} (hline : ∀ c ∈ line, c ≠ '\n') :
    lines line = if line.isEmpty then [] else [line] := by
  rw [lines, splitWhen_of_forall fun c hc => by simpa using hline c hc]
  rfl

/-- Lines with a line feed between any two. -/
def joinLines (lines : List (List Char)) : String := String.ofList (['\n'].intercalate lines)

/-- The first of joined lines ends at the first line feed, if there are others. -/
theorem lines_joinLines_cons {line : List Char} (hline : ∀ c ∈ line, c ≠ '\n') (next : List Char)
    (rest : List (List Char)) :
    lines (joinLines (line :: next :: rest)).toList =
      dropReturn line :: lines (joinLines (next :: rest)).toList := by
  rw [joinLines, joinLines, String.toList_ofList, String.toList_ofList, List.intercalate_cons_cons,
    List.append_assoc, List.singleton_append]
  exact lines_append_newline hline _

/-- What stands before a carriage return is all that it leaves of a line. -/
theorem dropReturn_eq_or (line : List Char) :
    dropReturn line = line ∨ line = dropReturn line ++ ['\r'] := by
  rw [dropReturn]
  split
  case isTrue hlast =>
    obtain ⟨front, rfl⟩ := List.getLast?_eq_some_iff.mp hlast
    rw [List.dropLast_concat]
    exact .inr rfl
  case isFalse => exact .inl rfl

/-- Every character of what stands before a carriage return is one of the line. -/
theorem mem_of_mem_dropReturn {c : Char} {line : List Char} (h : c ∈ dropReturn line) : c ∈ line := by
  rcases dropReturn_eq_or line with hreturn | hreturn
  · rwa [hreturn] at h
  · rw [hreturn]
    exact List.mem_append_left _ h

/-- A line is a piece between line feeds, but for a carriage return. -/
theorem exists_piece_of_mem_endedLines {line : List Char} {pieces : List (List Char)}
    (h : line ∈ endedLines pieces) : ∃ piece ∈ pieces, line = piece ∨ line = dropReturn piece := by
  induction pieces with
  | nil => simp [endedLines] at h
  | cons piece rest ih =>
    cases rest with
    | nil =>
      rw [endedLines] at h
      split at h
      case isTrue => simp at h
      case isFalse =>
        rw [List.mem_singleton] at h
        exact ⟨piece, List.mem_cons_self .., .inl h⟩
    | cons next rest =>
      rw [endedLines] at h
      · rcases List.mem_cons.mp h with h | h
        · exact ⟨piece, List.mem_cons_self .., .inr h⟩
        · obtain ⟨other, hmem, hother⟩ := ih h
          exact ⟨other, List.mem_cons_of_mem _ hmem, hother⟩
      · simp

/-- No line has a line feed in it. -/
theorem ne_newline_of_mem_lines {line text : List Char} (h : line ∈ lines text) :
    ∀ c ∈ line, c ≠ '\n' := by
  obtain ⟨piece, hpiece, hline⟩ := exists_piece_of_mem_endedLines h
  have hsub : ∀ c ∈ line, c ∈ piece := by
    rcases hline with rfl | rfl
    · exact fun c hc => hc
    · exact fun c hc => mem_of_mem_dropReturn hc
  exact fun c hc => by simpa using stop_eq_false_of_mem_splitWhen hpiece c (hsub c hc)

/-- Lines without line ends in them are read back. -/
theorem lines_unlines {all : List (List Char)} (h : ∀ line ∈ all, ∀ c ∈ line, c ≠ '\n' ∧ c ≠ '\r') :
    lines (unlines all) = all := by
  induction all with
  | nil => rfl
  | cons line rest ih =>
    have hends := h line (List.mem_cons_self ..)
    have hreturn : dropReturn line = line := by
      rw [dropReturn, if_neg]
      intro hlast
      exact (hends _ (List.mem_of_getLast? hlast)).2 rfl
    rw [unlines, List.flatMap_cons, List.append_assoc, List.singleton_append,
      lines_append_newline fun c hc => (hends c hc).1, hreturn]
    exact congrArg (line :: ·) (ih fun other hother => h other (List.mem_cons_of_mem _ hother))

end StackBytecode.Text
