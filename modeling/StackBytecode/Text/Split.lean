import StackBytecode.Text.Blank

/-!
# Lines and words

A text is a list of characters. `splitWhen` cuts it at every character of a class, `lines` cuts
it at line feeds, and `words` keeps what stands between blanks. No character is lost but the ones
cut at, the carriage return before a line feed, and the empty pieces that `lines` and `words`
leave out.
-/

namespace StackBytecode.Text

/-- Puts a character at the front of the first piece. -/
def attach (c : Char) : List (List Char) → List (List Char)
  | [] => [[c]]
  | piece :: pieces => (c :: piece) :: pieces

/-- The pieces of a text between the characters of a class, one more than there are such characters. -/
def splitWhen (stop : Char → Bool) (text : List Char) : List (List Char) :=
  text.foldr (fun c pieces => if stop c then [] :: pieces else attach c pieces) [[]]

@[simp] theorem splitWhen_nil (stop : Char → Bool) : splitWhen stop [] = [[]] := rfl

@[simp] theorem splitWhen_cons (stop : Char → Bool) (c : Char) (text : List Char) :
    splitWhen stop (c :: text) =
      if stop c then [] :: splitWhen stop text else attach c (splitWhen stop text) := rfl

/-- A line without the carriage return that stood before its line feed. -/
def dropReturn (line : List Char) : List Char :=
  if line.getLast? = some '\r' then line.dropLast else line

/-- Pieces cut at line feeds, as lines: all but the last were ended, and an empty last piece is no line. -/
def endedLines : List (List Char) → List (List Char)
  | [] => []
  | [last] => if last.isEmpty then [] else [last]
  | piece :: pieces => dropReturn piece :: endedLines pieces

/-- The lines of a text, without their line ends. -/
def lines (text : List Char) : List (List Char) := endedLines (splitWhen (· == '\n') text)

/-- The words of a text: its longest pieces without blanks. -/
def words (text : List Char) : List (List Char) :=
  (splitWhen isBlank text).filter (!·.isEmpty)

/-- No word is empty. -/
theorem ne_nil_of_mem_words {word text : List Char} (h : word ∈ words text) : word ≠ [] := by
  have := (List.mem_filter.mp h).2
  simpa using this

end StackBytecode.Text
