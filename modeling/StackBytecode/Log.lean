/-!
# Log records

What the library and its tools report about their work, as values: spans that open, and events with a level, a
message and named fields. The layer that prints chooses which of them to show.
-/

namespace StackBytecode.Log

/-- How much detail an event is. -/
inductive Level
  | debug
  | trace
  deriving DecidableEq, Repr

/-- One record of a log. -/
inductive Record
  /-- A tool with that banner starts. -/
  | started (banner : String)
  /-- The given settings were read from the file of a path. -/
  | settingsLoaded (path settings : String)
  /-- Assembling begins. -/
  | assembling
  /-- A run of a chunk of that many bytes begins. -/
  | interpreting (bytes : Nat)
  | chunkGrown (old new : Nat)
  | poolGrown (old new : Nat)
  | assembled (bytes constants : Nat)
  | chunkFreed (bytes constants : Nat)
  /-- An instruction is about to run, on a stack with the given text. -/
  | instruction (listing stack : String)
  deriving DecidableEq, Repr

/-- The name and the named fields of a record; a span has no level. -/
structure Entry where
  level : Option Level
  text : String
  fields : List (String × String)
  deriving DecidableEq, Repr

/-- The words of a record. -/
def Record.entry : Record → Entry
  | .started banner => ⟨some .debug, banner, []⟩
  | .settingsLoaded path settings =>
    ⟨some .debug, "config loaded", [("path", path), ("cfg", settings)]⟩
  | .assembling => ⟨none, "assemble", []⟩
  | .interpreting bytes => ⟨none, "interpret", [("bytes", bytes.repr)]⟩
  | .chunkGrown old new => ⟨some .trace, "chunk grown", [("old", old.repr), ("new", new.repr)]⟩
  | .poolGrown old new => ⟨some .trace, "value array grown", [("old", old.repr), ("new", new.repr)]⟩
  | .assembled bytes constants =>
    ⟨some .debug, "assembled", [("bytes", bytes.repr), ("constants", constants.repr)]⟩
  | .chunkFreed bytes constants =>
    ⟨some .debug, "chunk freed", [("bytes", bytes.repr), ("constants", constants.repr)]⟩
  | .instruction listing stack => ⟨some .trace, listing, [("stack", stack)]⟩

/-- The name of a level. -/
def Level.name : Level → String
  | .debug => "DEBUG"
  | .trace => "TRACE"

end StackBytecode.Log
