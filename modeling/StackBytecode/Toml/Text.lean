/-!
# Strings of a configuration document

The four kinds of strings: on one line or several, with escapes or without. Each reader takes the
text after the opening quotes and gives the string and the text after the closing ones.
-/

namespace StackBytecode.Toml

/-- Whether a character may stand in a comment or a string: a tab, or no control character. -/
def isPlain (c : Char) : Bool := c = '\t' || (32 ≤ c.toNat && c.toNat ≠ 127)

/-- Whether a character is a blank inside a line. -/
def isSpace (c : Char) : Bool := c = ' ' || c = '\t'

/-- Reads a line end. -/
def newline? : List Char → Option (List Char)
  | '\n' :: rest => some rest
  | '\r' :: '\n' :: rest => some rest
  | _ => none

/-- Text without a line end at its start. -/
def dropNewline (text : List Char) : List Char := (newline? text).getD text

/-- The character of a one-letter escape. -/
def escape? : Char → Option Char
  | 'b' => some '\x08'
  | 't' => some '\t'
  | 'n' => some '\n'
  | 'f' => some '\x0c'
  | 'r' => some '\r'
  | '"' => some '"'
  | '\\' => some '\\'
  | _ => none

/-- The value of a hexadecimal digit. -/
def hexDigit? (c : Char) : Option Nat :=
  if c.isDigit then some (c.toNat - '0'.toNat)
  else if 'a' ≤ c ∧ c ≤ 'f' then some (c.toNat - 'a'.toNat + 10)
  else if 'A' ≤ c ∧ c ≤ 'F' then some (c.toNat - 'A'.toNat + 10)
  else none

/-- The character that hexadecimal digits give the code point of. -/
def scalar? (digits : List Char) : Option Char := do
  let code ← digits.foldlM (fun n c => (hexDigit? c).map (16 * n + ·)) 0
  if code.isValidChar then some (Char.ofNat code) else none

/-- Puts a character in front of a string that was read. -/
def prepend (c : Char) (read : List Char × List Char) : List Char × List Char := (c :: read.1, read.2)

/-- Reads a string on one line with escapes. -/
def basic? : List Char → Option (List Char × List Char)
  | '"' :: rest => some ([], rest)
  | '\\' :: 'u' :: a :: b :: c :: d :: rest => do prepend (← scalar? [a, b, c, d]) <$> basic? rest
  | '\\' :: 'U' :: a :: b :: c :: d :: e :: f :: g :: h :: rest => do
    prepend (← scalar? [a, b, c, d, e, f, g, h]) <$> basic? rest
  | '\\' :: c :: rest => do prepend (← escape? c) <$> basic? rest
  | c :: rest => if isPlain c then prepend c <$> basic? rest else none
  | [] => none

/-- Whether a backslash before the text ends the line, so that all blanks after it are left out. -/
def endsLine (text : List Char) : Bool := (newline? (text.dropWhile isSpace)).isSome

/-- Reads a string on several lines with escapes; while `folding`, blanks and line ends are passed
over. One or two quotes may stand right before the closing ones. -/
def multilineBasic? (folding : Bool) : List Char → Option (List Char × List Char)
  | '"' :: '"' :: '"' :: '"' :: '"' :: rest => some (['"', '"'], rest)
  | '"' :: '"' :: '"' :: '"' :: rest => some (['"'], rest)
  | '"' :: '"' :: '"' :: rest => some ([], rest)
  | '\r' :: '\n' :: rest =>
    if folding then multilineBasic? true rest else prepend '\n' <$> multilineBasic? false rest
  | '\n' :: rest =>
    if folding then multilineBasic? true rest else prepend '\n' <$> multilineBasic? false rest
  | '\\' :: 'u' :: a :: b :: c :: d :: rest => do
    prepend (← scalar? [a, b, c, d]) <$> multilineBasic? false rest
  | '\\' :: 'U' :: a :: b :: c :: d :: e :: f :: g :: h :: rest => do
    prepend (← scalar? [a, b, c, d, e, f, g, h]) <$> multilineBasic? false rest
  | '\\' :: tail@(c :: rest) =>
    if endsLine tail then multilineBasic? true tail
    else do prepend (← escape? c) <$> multilineBasic? false rest
  | c :: rest =>
    if folding && isSpace c then multilineBasic? true rest
    else if isPlain c then prepend c <$> multilineBasic? false rest
    else none
  | [] => none

/-- Reads a string on one line without escapes. -/
def literal? : List Char → Option (List Char × List Char)
  | '\'' :: rest => some ([], rest)
  | c :: rest => if isPlain c then prepend c <$> literal? rest else none
  | [] => none

/-- Reads a string on several lines without escapes. -/
def multilineLiteral? : List Char → Option (List Char × List Char)
  | '\'' :: '\'' :: '\'' :: '\'' :: '\'' :: rest => some (['\'', '\''], rest)
  | '\'' :: '\'' :: '\'' :: '\'' :: rest => some (['\''], rest)
  | '\'' :: '\'' :: '\'' :: rest => some ([], rest)
  | '\r' :: '\n' :: rest => prepend '\n' <$> multilineLiteral? rest
  | '\n' :: rest => prepend '\n' <$> multilineLiteral? rest
  | c :: rest => if isPlain c then prepend c <$> multilineLiteral? rest else none
  | [] => none

/-- Reads a string of any kind, from its opening quotes on. -/
def string? : List Char → Option (List Char × List Char)
  | '"' :: '"' :: '"' :: rest => multilineBasic? false (dropNewline rest)
  | '\'' :: '\'' :: '\'' :: rest => multilineLiteral? (dropNewline rest)
  | '"' :: rest => basic? rest
  | '\'' :: rest => literal? rest
  | _ => none

end StackBytecode.Toml
