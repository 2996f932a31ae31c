/-!
# Tables of a configuration document

A document is a tree of tables. How a table came about decides how it may still grow: a header
defines a table once, dotted keys make tables that only dotted keys extend, and a table written
between braces is complete. A key is never defined twice.

Numbers with a fraction, dates and arrays with items are left out: nothing that is configured here
holds one, so a document with one of them is refused whatever else it says.
-/

namespace StackBytecode.Toml

/-- A value without parts. -/
inductive Atom
  | integer (n : Int)
  | boolean (b : Bool)
  | string (s : String)
  | emptyArray
  deriving DecidableEq, Repr

/-- How a table came about. -/
inductive Origin
  /-- It contains a table that a header defines. -/
  | implicit
  /-- A header defines it. -/
  | header
  /-- It contains a value with a dotted key. -/
  | dotted
  /-- It is written between braces. -/
  | inline
  deriving DecidableEq, Repr

/-- A value or a table, whose members keep their order. -/
inductive Node
  | atom (a : Atom)
  | table (origin : Origin) (members : List (String × Node))

/-- The members of a table. -/
abbrev Members := List (String × Node)

/-- Puts what `change` makes of the node under a key, which may be absent, in its place. -/
def alter (key : String) (change : Option Node → Option Node) : Members → Option Members
  | [] => (change none).map fun node => [(key, node)]
  | (k, node) :: rest =>
    if k = key then (change (some node)).map fun node => (k, node) :: rest
    else (alter key change rest).map ((k, node) :: ·)

/-- Defines a value under a dotted key. -/
def assign (value : Node) : List String → Members → Option Members
  | [], _ => none
  | [key], members => alter key (fun old => if old.isNone then some value else none) members
  | key :: path, members =>
    alter key
      (fun
        | none => (assign value path []).map (.table .dotted)
        | some (.table .dotted inner) => (assign value path inner).map (.table .dotted)
        | some (.table .implicit inner) =>
          if path.length = 1 then none else (assign value path inner).map (.table .implicit)
        | some _ => none)
      members

/-- Defines a table by a header. -/
def define : List String → Members → Option Members
  | [], _ => none
  | [key], members =>
    alter key
      (fun
        | none => some (.table .header [])
        | some (.table .implicit inner) => some (.table .header inner)
        | some _ => none)
      members
  | key :: path, members =>
    alter key
      (fun
        | none => (define path []).map (.table .implicit)
        | some (.table .inline _) => none
        | some (.table origin inner) => (define path inner).map (.table origin)
        | some (.atom _) => none)
      members

/-- Changes the members of a table that headers have defined. -/
def within (change : Members → Option Members) : List String → Members → Option Members
  | [], members => change members
  | key :: path, members =>
    alter key
      (fun
        | some (.table origin inner) => (within change path inner).map (.table origin)
        | _ => none)
      members

/-- One statement of a document. -/
inductive Statement
  | assign (key : List String) (value : Node)
  | header (key : List String)

/-- The tree of statements, the first of which belong to the table under a header. -/
def build (header : List String) : List Statement → Members → Option Members
  | [], members => some members
  | .assign key value :: rest, members => (within (assign value key) header members).bind (build header rest)
  | .header key :: rest, members => (define key members).bind (build key rest)

end StackBytecode.Toml
