import StackBytecode.Value

/-!
# JSON documents

The documents that reports are written as and settings are read from, with a compact and an
indented text. Members keep their order. A real number is written with the fewest digits that
read back as the same value, and always shows a fraction or an exponent.
-/

namespace StackBytecode

open Number

/-- A JSON document. -/
inductive Json
  | null
  | bool (b : Bool)
  | integer (n : Int)
  | real (v : Value)
  | string (s : String)
  | array (items : List Json)
  | object (members : List (String × Json))

namespace Json

/-- Exponents from -5 to 15 are written positionally, whole numbers end in a point and a zero, and
an exponent has as many digits as it needs. -/
def realLayout : Layout := { lowest := -5, highest := 15, marksWhole := true, exponentWidth := 1 }

/-- The text of a magnitude. -/
def magnitudeText (d : Magnitude) : List Char :=
  if d.mantissa = 0 then realLayout.write ['0'] 0
  else
    let (digits, last) := Shortest.decimal d
    realLayout.write (trimZeros (Nat.toDigits 10 digits)) (last + Ratio.digitCount digits - 1)

/-- The text of a real number; JSON has none for what is not finite. -/
def realText (v : Value) : String :=
  match v.double with
  | .finite negative d => String.ofList (Value.signed negative (magnitudeText d))
  | _ => "null"

/-- A character inside a string: quotes, backslashes and control characters are escaped. -/
def escapeChar (c : Char) : List Char :=
  if c = '"' then ['\\', '"']
  else if c = '\\' then ['\\', '\\']
  else if c = '\n' then ['\\', 'n']
  else if c = '\r' then ['\\', 'r']
  else if c = '\t' then ['\\', 't']
  else if c = '\x08' then ['\\', 'b']
  else if c = '\x0c' then ['\\', 'f']
  else if c.toNat < 32 then ['\\', 'u'] ++ (Nat.toDigits 16 c.toNat).leftpad 4 '0'
  else [c]

/-- A string between quotes. -/
def stringText (s : String) : String :=
  String.ofList ('"' :: s.toList.flatMap escapeChar ++ ['"'])

/-- The text of a document without sub-documents. -/
def atomText : Json → String
  | .null => "null"
  | .bool b => if b then "true" else "false"
  | .integer n => if n < 0 then "-" ++ n.natAbs.repr else n.natAbs.repr
  | .real v => realText v
  | .string s => stringText s
  | .array _ => "[]"
  | .object _ => "\x7b\x7d"

mutual

/-- The text of a document on one line, without blanks. -/
def compact : Json → String
  | .array items => "[" ++ ",".intercalate (compactItems items) ++ "]"
  | .object members => "\x7b" ++ ",".intercalate (compactMembers members) ++ "\x7d"
  | atom => atomText atom

/-- The compact texts of documents. -/
def compactItems : List Json → List String
  | [] => []
  | item :: items => compact item :: compactItems items

/-- The compact texts of members. -/
def compactMembers : List (String × Json) → List String
  | [] => []
  | (key, value) :: members => (stringText key ++ ":" ++ compact value) :: compactMembers members

end

/-- A line of its own, indented by two spaces a level. -/
def indented (depth : Nat) (line : String) : String :=
  "\n" ++ String.ofList (List.replicate (2 * depth) ' ') ++ line

mutual

/-- The text of a document with each item and member on a line of its own, inside so many others. -/
def prettyAt (depth : Nat) : Json → String
  | .array (item :: items) =>
    "[" ++ ",".intercalate (prettyItems (depth + 1) (item :: items)) ++ indented depth "]"
  | .object (member :: members) =>
    "\x7b" ++ ",".intercalate (prettyMembers (depth + 1) (member :: members)) ++ indented depth "\x7d"
  | atom => atomText atom

/-- The lines of items. -/
def prettyItems (depth : Nat) : List Json → List String
  | [] => []
  | item :: items => indented depth (prettyAt depth item) :: prettyItems depth items

/-- The lines of members. -/
def prettyMembers (depth : Nat) : List (String × Json) → List String
  | [] => []
  | (key, value) :: members =>
    indented depth (stringText key ++ ": " ++ prettyAt depth value) :: prettyMembers depth members

end

/-- The indented text of a document. -/
def pretty (document : Json) : String := prettyAt 0 document

end Json

end StackBytecode
