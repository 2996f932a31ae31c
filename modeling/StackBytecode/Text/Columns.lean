/-!
# Columns and chains

Texts brought to a least width, as listings and numerals need them: a text that is wider already
stays as it is. And messages that each explain the one before, on one line.
-/

namespace StackBytecode.Text

/-- Fills a text up on the left. -/
def padLeft (width : Nat) (fill : Char) (text : String) : String :=
  String.ofList (text.toList.leftpad width fill)

/-- Fills a text up with spaces on the right. -/
def padRight (width : Nat) (text : String) : String :=
  String.ofList (text.toList.rightpad width ' ')

/-- A natural number in decimal, with zeros in front up to the least width. -/
def zeroPadded (width n : Nat) : String := padLeft width '0' n.repr

/-- A natural number in decimal, with spaces in front up to the least width. -/
def spacePadded (width n : Nat) : String := padLeft width ' ' n.repr

/-- A chain of messages as one text, outermost first. -/
def chain (messages : List String) : String := ": ".intercalate messages

end StackBytecode.Text
