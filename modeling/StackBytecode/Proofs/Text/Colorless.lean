import StackBytecode.Json
import StackBytecode.Proofs.Listing.Lines

/-!
# Texts without colour

A terminal style begins with the escape character, so a text without that character shows no
colour. Numbers, names and listings are made of visible characters and have none. In a document
every string is written with its control characters escaped, so none is in the text of a document
either, whatever its strings hold.

A text that is cut from another, as lines and words are, has none that the other has not.
-/

namespace StackBytecode

open Text (IsVisible IsShown)

namespace Text

/-- The character that every style of a terminal begins with. -/
def escape : Char := '\x1b'

/-- A text without styles. -/
def IsColorless (text : String) : Prop := escape ∉ text.toList

instance (text : String) : Decidable (IsColorless text) := inferInstanceAs (Decidable (¬ _))

/-- Two texts have no styles together exactly when neither has. -/
theorem isColorless_append_iff {s t : String} : IsColorless (s ++ t) ↔ IsColorless s ∧ IsColorless t := by
  rw [IsColorless, String.toList_append, List.mem_append, not_or]
  rfl

theorem IsColorless.append {s t : String} (hs : IsColorless s) (ht : IsColorless t) :
    IsColorless (s ++ t) := isColorless_append_iff.mpr ⟨hs, ht⟩

/-- Texts without styles have none when they are joined. -/
theorem isColorless_join {texts : List String} (h : ∀ text ∈ texts, IsColorless text) :
    IsColorless (String.join texts) := by
  rw [IsColorless, String.toList_join, List.mem_flatMap]
  rintro ⟨text, htext, hescape⟩
  exact h text htext hescape

/-- Texts without styles have none with such a text between any two. -/
theorem isColorless_intercalate {separator : String} {texts : List String} (hs : IsColorless separator)
    (h : ∀ text ∈ texts, IsColorless text) : IsColorless (separator.intercalate texts) := by
  induction texts with
  | nil => exact (by decide : IsColorless "")
  | cons text rest ih =>
    obtain ⟨htext, hrest⟩ := List.forall_mem_cons.mp h
    cases rest with
    | nil => simpa using htext
    | cons next rest =>
      rw [String.intercalate_cons_cons]
      exact (htext.append hs).append (ih hrest)

/-- Visible characters and spaces have no styles. -/
theorem IsShown.isColorless {text : String} (h : IsShown text) : IsColorless text := by
  intro hescape
  exact absurd (h escape hescape) (by decide)

/-- Characters of a text without styles make another. -/
theorem IsColorless.ofList {text : String} (h : IsColorless text) {part : List Char}
    (hpart : ∀ c ∈ part, c ∈ text.toList) : IsColorless (String.ofList part) := by
  rw [IsColorless, String.toList_ofList]
  exact fun hescape => h (hpart _ hescape)

/-! ## Cut texts -/

/-- Every character of a piece is one of the text. -/
theorem mem_of_mem_splitWhen {stop : Char → Bool} {text piece : List Char}
    (h : piece ∈ splitWhen stop text) : ∀ c ∈ piece, c ∈ text := by
  induction text generalizing piece with
  | nil =>
    obtain rfl : piece = [] := by simpa using h
    simp
  | cons d rest ih =>
    have hrest {other : List Char} (hother : other ∈ splitWhen stop rest) : ∀ c ∈ other, c ∈ d :: rest :=
      fun c hc => List.mem_cons_of_mem _ (ih hother c hc)
    rw [splitWhen_cons] at h
    split at h
    case isTrue =>
      rcases List.mem_cons.mp h with rfl | h
      · simp
      · exact hrest h
    case isFalse =>
      obtain ⟨first, others, hpieces⟩ := List.exists_cons_of_ne_nil (splitWhen_ne_nil stop rest)
      rw [hpieces] at h hrest
      rcases List.mem_cons.mp h with rfl | h
      · exact List.forall_mem_cons.mpr ⟨List.mem_cons_self .., hrest (List.mem_cons_self ..)⟩
      · exact hrest (List.mem_cons_of_mem _ h)

/-- Every character of a word is one of the text. -/
theorem mem_of_mem_words {text word : List Char} (h : word ∈ words text) : ∀ c ∈ word, c ∈ text :=
  mem_of_mem_splitWhen (List.mem_of_mem_filter h)

/-- Every character of a line is one of the text. -/
theorem mem_of_mem_lines {text line : List Char} (h : line ∈ lines text) : ∀ c ∈ line, c ∈ text := by
  obtain ⟨piece, hpiece, rfl | rfl⟩ := exists_piece_of_mem_endedLines h
  · exact mem_of_mem_splitWhen hpiece
  · exact fun c hc => mem_of_mem_splitWhen hpiece c (mem_of_mem_dropReturn hc)

end Text

/-! ## Documents -/

namespace Number.Layout

/-- A fraction of visible digits is visible. -/
theorem isVisible_of_mem_fraction (layout : Layout) {digits : List Char} (h : ∀ c ∈ digits, IsVisible c) :
    ∀ c ∈ layout.fraction digits, IsVisible c := by
  cases digits with
  | nil =>
    rw [fraction]
    split <;> decide
  | cons d rest => exact List.forall_mem_cons.mpr ⟨by decide, h⟩

/-- Visible digits are visible in positional notation. -/
theorem isVisible_of_mem_positional (layout : Layout) {digits : List Char} (h : ∀ c ∈ digits, IsVisible c)
    (exponent : Int) : ∀ c ∈ layout.positional digits exponent, IsVisible c := by
  have hzero (count : Nat) : ∀ c ∈ List.replicate count '0', IsVisible c := by
    intro c hc
    rw [(List.mem_replicate.mp hc).2]
    decide
  cases exponent with
  | ofNat n =>
    rw [positional, List.rightpad, List.forall_mem_append, List.forall_mem_append]
    exact ⟨⟨fun c hc => h c (List.mem_of_mem_take hc), hzero _⟩,
      layout.isVisible_of_mem_fraction fun c hc => h c (List.mem_of_mem_drop hc)⟩
  | negSucc n =>
    refine List.forall_mem_cons.mpr ⟨by decide, layout.isVisible_of_mem_fraction ?_⟩
    exact List.forall_mem_append.mpr ⟨hzero n, h⟩

/-- Visible digits are visible with an exponent. -/
theorem isVisible_of_mem_scientific (layout : Layout) {digits : List Char} (h : ∀ c ∈ digits, IsVisible c)
    (exponent : Int) : ∀ c ∈ layout.scientific digits exponent, IsVisible c := by
  rw [scientific, List.forall_mem_append, List.forall_mem_append]
  refine ⟨⟨fun c hc => h c (List.mem_of_mem_take hc), ?_⟩,
    List.forall_mem_cons.mpr ⟨by decide, layout.isVisible_of_mem_exponentPart exponent⟩⟩
  split
  · simp
  · exact List.forall_mem_cons.mpr ⟨by decide, fun c hc => h c (List.mem_of_mem_drop hc)⟩

/-- Visible digits are visible in the notation that fits their exponent. -/
theorem isVisible_of_mem_write (layout : Layout) {digits : List Char} (h : ∀ c ∈ digits, IsVisible c)
    (exponent : Int) : ∀ c ∈ layout.write digits exponent, IsVisible c := by
  rw [write]
  split
  · exact layout.isVisible_of_mem_positional h exponent
  · exact layout.isVisible_of_mem_scientific h exponent

end Number.Layout

namespace Json

open Text

/-- The magnitude of a real number is written in visible characters. -/
theorem isVisible_of_mem_magnitudeText (d : Number.Magnitude) : ∀ c ∈ magnitudeText d, IsVisible c := by
  rw [magnitudeText]
  split
  · exact Number.Layout.isVisible_of_mem_write _ (by decide) 0
  · exact Number.Layout.isVisible_of_mem_write _
      (fun c hc => Number.isVisible_of_mem_toDigits (Number.mem_of_mem_trimZeros hc)) _

/-- A real number is written in visible characters. -/
theorem isShown_realText (v : Value) : IsShown (realText v) := by
  rw [realText]
  cases v.double with
  | nan negative => exact (by decide : IsShown "null")
  | infinite negative => exact (by decide : IsShown "null")
  | finite negative d =>
    refine isShown_of_isVisible ?_
    rw [String.toList_ofList]
    exact Value.isVisible_of_mem_signed (isVisible_of_mem_magnitudeText d)

/-- Inside a string the escape character is itself escaped. -/
theorem escape_notMem_escapeChar (c : Char) : escape ∉ escapeChar c := by
  unfold escapeChar
  iterate 7 (split; · decide)
  split
  case isTrue hcontrol =>
    have hdigits : ∀ n < 32, escape ∉ ['\\', 'u'] ++ (Nat.toDigits 16 n).leftpad 4 '0' := by decide
    exact hdigits c.toNat hcontrol
  case isFalse hcontrol =>
    rw [List.mem_singleton]
    rintro rfl
    exact hcontrol (by decide)

/-- A string between quotes has no styles, whatever it holds. -/
theorem isColorless_stringText (s : String) : IsColorless (stringText s) := by
  rw [IsColorless, stringText, String.toList_ofList]
  intro hescape
  rcases List.mem_append.mp hescape with hescape | hescape
  · rcases List.mem_cons.mp hescape with hescape | hescape
    · exact absurd hescape (by decide)
    · obtain ⟨c, -, hc⟩ := List.mem_flatMap.mp hescape
      exact escape_notMem_escapeChar c hc
  · exact absurd hescape (by decide)

/-- A document without sub-documents has no styles. -/
theorem isColorless_atomText (atom : Json) : IsColorless (atomText atom) := by
  cases atom with
  | null => exact (by decide : IsColorless "null")
  | bool b => cases b <;> exact (by decide)
  | integer n =>
    rw [atomText]
    split
    · exact ((by decide : IsShown "-").append (isShown_repr _)).isColorless
    · exact (isShown_repr _).isColorless
  | real v => exact (isShown_realText v).isColorless
  | string s => exact isColorless_stringText s
  | array items => exact (by decide : IsColorless "[]")
  | object members => exact (by decide : IsColorless "\x7b\x7d")

/-- Indenting adds spaces only. -/
theorem isColorless_indented (depth : Nat) {line : String} (h : IsColorless line) :
    IsColorless (indented depth line) := by
  have hspaces : IsColorless (String.ofList (List.replicate (2 * depth) ' ')) := by
    rw [IsColorless, String.toList_ofList]
    exact fun hescape => absurd (List.eq_of_mem_replicate hescape) (by decide)
  exact ((by decide : IsColorless "\n").append hspaces).append h

mutual

/-- A document has no styles in its indented text. -/
theorem isColorless_prettyAt (depth : Nat) : (document : Json) → IsColorless (prettyAt depth document)
  | .array (item :: items) => by
    rw [prettyAt]
    have hitems := isColorless_intercalate (by decide : IsColorless ",")
      (isColorless_prettyItems (depth + 1) (item :: items))
    exact ((by decide : IsColorless "[").append hitems).append (isColorless_indented depth (by decide))
  | .object (member :: members) => by
    rw [prettyAt]
    have hmembers := isColorless_intercalate (by decide : IsColorless ",")
      (isColorless_prettyMembers (depth + 1) (member :: members))
    exact ((by decide : IsColorless "\x7b").append hmembers).append
      (isColorless_indented depth (by decide))
  | .null | .bool _ | .integer _ | .real _ | .string _ | .array [] | .object [] =>
    isColorless_atomText _

/-- Items have no styles on their lines. -/
theorem isColorless_prettyItems (depth : Nat) :
    (items : List Json) → ∀ line ∈ prettyItems depth items, IsColorless line
  | [] => by simp [prettyItems]
  | item :: items => by
    rw [prettyItems, List.forall_mem_cons]
    exact ⟨isColorless_indented depth (isColorless_prettyAt depth item), isColorless_prettyItems depth items⟩

/-- Members have no styles on their lines. -/
theorem isColorless_prettyMembers (depth : Nat) :
    (members : List (String × Json)) → ∀ line ∈ prettyMembers depth members, IsColorless line
  | [] => by simp [prettyMembers]
  | (key, value) :: members => by
    rw [prettyMembers, List.forall_mem_cons]
    refine ⟨isColorless_indented depth ?_, isColorless_prettyMembers depth members⟩
    exact ((isColorless_stringText key).append (by decide)).append (isColorless_prettyAt depth value)

end

end Json

end StackBytecode
