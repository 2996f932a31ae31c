import StackBytecode.Toml.Text
import StackBytecode.Toml.Tree

/-!
# Reading configuration documents

A document is a sequence of statements, each ending its line: a key with a value, or the header of
a table. Comments and empty lines stand between them. A reader gives what it read and the text
after it, or nothing when the text is not of its form. Readers of sequences take a bound on the
number of their items; the length of the document is one, as every item takes a character.
-/

namespace StackBytecode.Toml

/-- Text without the blanks at its start. -/
def skipSpace (text : List Char) : List Char := text.dropWhile isSpace

/-- Text without the comment at its start. -/
def skipComment (text : List Char) : List Char :=
  match text with
  | '#' :: rest => rest.dropWhile isPlain
  | _ => text

/-- Reads the rest of a line that has nothing more to say. -/
def lineEnd? (text : List Char) : Option (List Char) :=
  match skipComment (skipSpace text) with
  | [] => some []
  | rest => newline? rest

/-- Whether a character may stand in a key without quotes. -/
def isBare (c : Char) : Bool := c.isAlphanum || c = '_' || c = '-'

/-- Reads a key without dots. -/
def simpleKey? : List Char → Option (String × List Char)
  | '"' :: rest => (basic? rest).map fun (key, rest) => (String.ofList key, rest)
  | '\'' :: rest => (literal? rest).map fun (key, rest) => (String.ofList key, rest)
  | text =>
    let key := text.takeWhile isBare
    if key.isEmpty then none else some (String.ofList key, text.dropWhile isBare)

/-- Reads a key of so many parts at most, with blanks around each of them. -/
def key? : Nat → List Char → Option (List String × List Char)
  | 0, _ => none
  | bound + 1, text => do
    let (part, rest) ← simpleKey? (skipSpace text)
    match skipSpace rest with
    | '.' :: after =>
      let (parts, rest) ← key? bound after
      return (part :: parts, rest)
    | rest => return ([part], rest)

/-- Digits of a base with single underscores between them, as a number, and the text after them. -/
def digits? (base : Nat) (value? : Char → Option Nat) : List Char → Option (Nat × List Char)
  | [] => none
  | first :: rest => (value? first).bind fun n => more n rest
where
  /-- The digits that follow others with the given value. -/
  more (n : Nat) : List Char → Option (Nat × List Char)
    | [] => some (n, [])
    | '_' :: [] => none
    | '_' :: c :: rest => (value? c).bind fun d => more (base * n + d) rest
    | c :: rest =>
      match value? c with
      | some d => more (base * n + d) rest
      | none => some (n, c :: rest)

/-- The value of a digit of a base up to sixteen. -/
def digitBelow? (base : Nat) (c : Char) : Option Nat := (hexDigit? c).filter (· < base)

/-- Reads decimal digits; a zero at the start stands alone. -/
def decimal? : List Char → Option (Nat × List Char)
  | '0' :: rest => some (0, rest)
  | text => digits? 10 (digitBelow? 10) text

/-- Reads an integer: decimal with an optional sign, or in base sixteen, eight or two without. -/
def integer? (text : List Char) : Option (Int × List Char) := do
  let (n, rest) ← match text with
    | '0' :: 'x' :: digits => signed false (digits? 16 (digitBelow? 16) digits)
    | '0' :: 'o' :: digits => signed false (digits? 8 (digitBelow? 8) digits)
    | '0' :: 'b' :: digits => signed false (digits? 2 (digitBelow? 2) digits)
    | '+' :: digits => signed false (decimal? digits)
    | '-' :: digits => signed true (decimal? digits)
    | digits => signed false (decimal? digits)
  if -0x8000000000000000 ≤ n ∧ n < 0x8000000000000000 then some (n, rest) else none
where
  /-- A number that was read, with a sign. -/
  signed (negative : Bool) (read : Option (Nat × List Char)) : Option (Int × List Char) :=
    read.map fun (n, rest) => (if negative then -(n : Int) else n, rest)

/-- Text without the blanks, comments and line ends at its start, of so many lines at most. -/
def skipLines (bound : Nat) (text : List Char) : List Char :=
  let rest := skipComment (skipSpace text)
  match bound, newline? rest with
  | bound + 1, some after => skipLines bound after
  | _, _ => rest

/-- Reads `key = value` pairs between commas, so many at most. -/
def pairs? (value? : List Char → Option (Node × List Char)) :
    Nat → List Char → Option (List (List String × Node) × List Char)
  | 0, _ => none
  | bound + 1, text => do
    let (key, rest) ← key? (bound + 1) text
    match rest with
    | '=' :: rest =>
      let (value, rest) ← value? (skipSpace rest)
      match skipSpace rest with
      | ',' :: rest =>
        let (pairs, rest) ← pairs? value? bound rest
        return ((key, value) :: pairs, rest)
      | rest => return ([(key, value)], rest)
    | _ => none

/-- Reads what stands between the braces of a table, and the closing one. -/
def inlineTable? (value? : List Char → Option (Node × List Char)) (bound : Nat) (text : List Char) :
    Option (Node × List Char) :=
  match skipSpace text with
  | '}' :: rest => some (.table .inline [], rest)
  | text => do
    let (pairs, rest) ← pairs? value? bound text
    match rest with
    | '}' :: rest =>
      let members ← pairs.foldlM (fun members (key, value) => assign value key members) []
      return (.table .inline members, rest)
    | _ => none

/-- Reads a value, inside which tables nest to a limited depth. -/
def value? (bound : Nat) : Nat → List Char → Option (Node × List Char)
  | 0, _ => none
  | depth + 1, text =>
    match text with
    | 't' :: 'r' :: 'u' :: 'e' :: rest => some (.atom (.boolean true), rest)
    | 'f' :: 'a' :: 'l' :: 's' :: 'e' :: rest => some (.atom (.boolean false), rest)
    | '{' :: rest => inlineTable? (value? bound depth) bound rest
    | '[' :: rest =>
      match skipLines bound rest with
      | ']' :: rest => some (.atom .emptyArray, rest)
      | _ => none
    | c :: _ =>
      if c = '"' ∨ c = '\'' then
        (string? text).map fun (s, rest) => (.atom (.string (String.ofList s)), rest)
      else (integer? text).map fun (n, rest) => (.atom (.integer n), rest)
    | [] => none

/-- The depth to which tables may nest. -/
def maxDepth : Nat := 80

/-- Reads one statement and the end of its line. -/
def statement? (bound : Nat) (text : List Char) : Option (Statement × List Char) :=
  match text with
  | '[' :: '[' :: _ => none
  | '[' :: rest => do
    let (key, rest) ← key? bound rest
    match rest with
    | ']' :: rest => return (.header key, ← lineEnd? rest)
    | _ => none
  | _ => do
    let (key, rest) ← key? bound text
    match rest with
    | '=' :: rest =>
      let (value, rest) ← value? bound maxDepth (skipSpace rest)
      return (.assign key value, ← lineEnd? rest)
    | _ => none

/-- Reads statements up to the end of the text, from so many lines at most. -/
def statements? : Nat → List Char → Option (List Statement)
  | 0, text => if text.isEmpty then some [] else none
  | bound + 1, text =>
    match skipSpace text with
    | [] => some []
    | c :: rest => do
      if c = '#' ∨ c = '\r' ∨ c = '\n' then statements? bound (← lineEnd? (c :: rest))
      else
        let (statement, after) ← statement? (bound + 1) (c :: rest)
        return statement :: (← statements? bound after)

/-- Text without the byte order mark at its start. -/
def dropMark : List Char → List Char
  | '\uFEFF' :: rest => rest
  | text => text

/-- Reads a document into the tree of its tables. -/
def document? (text : String) : Option Members :=
  let chars := dropMark text.toList
  (statements? chars.length chars).bind fun statements => build [] statements []

end StackBytecode.Toml
