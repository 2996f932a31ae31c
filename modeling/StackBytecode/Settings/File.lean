import StackBytecode.Files
import StackBytecode.Log
import StackBytecode.Settings
import StackBytecode.Toml.Document

/-!
# Configuration files

Settings are read from a file that is named, or else from the nearest configuration file upward of
a directory, or else they are the usual ones. A file may set each of three keys and nothing else.
-/

namespace StackBytecode.Settings

open Toml

/-- The name of a configuration file. -/
def fileName : String := ".loxvm.toml"

/-- Whether a value stands for nothing. -/
def isVoid : Node → Bool
  | .atom .emptyArray => true
  | .table _ [] => true
  | _ => false

/-- Reads a colour mode: its name, or a table whose one member has that name and stands for nothing. -/
def readColor? : Node → Option ColorMode
  | .atom (.string name) => ColorMode.ofName? name
  | .table _ [(name, value)] => if isVoid value then ColorMode.ofName? name else none
  | _ => none

/-- Settings with one member of a document in their place. -/
def withMember? (s : Settings) : String × Node → Option Settings
  | ("stack_max", .atom (.integer (.ofNat n))) => some { s with stackMax := n }
  | ("trace", .atom (.boolean b)) => some { s with trace := b }
  | ("color", value) => (readColor? value).map fun color => { s with color := color }
  | _ => none

/-- Reads settings from the text of a file. -/
def ofText? (text : String) : Option Settings :=
  (document? text).bind fun members => members.foldlM withMember? {}

/-- Why settings cannot be loaded. -/
inductive LoadFault
  /-- The directory is not known from which a file is looked for. -/
  | noDirectory (fault : DirectoryFault)
  | unreadable (path : String) (reason : ReadFault)
  | invalid (path : String)
  deriving DecidableEq, Repr

/-- The texts of a fault, outermost first. The details of an invalid file are left to its reader. -/
def LoadFault.chain : LoadFault → List String
  | .noDirectory fault => fault.chain
  | .unreadable path reason => ["reading " ++ path, reason.message]
  | .invalid path => ["invalid TOML in " ++ path]

/-- Reads the settings of a file. -/
def read (files : Files) (path : String) : Except LoadFault Settings :=
  match files.text path with
  | .error reason => .error (.unreadable path reason)
  | .ok text => ((ofText? text).map .ok).getD (.error (.invalid path))

/-- The paths where a configuration file is looked for, the nearest first. -/
def candidates (start : String) : List String := (Path.ancestors start).map (Path.join · fileName)

/-- The configuration file nearest to a directory, upward. -/
def find? (files : Files) (start : String) : Option String := (candidates start).find? files.hasFile

/-- The file that settings are loaded from: the named one, or else the nearest one upward of a directory. -/
def path? (files : Files) (start : String) (named : Option String) : Option String :=
  named.or (find? files start)

/-- Loads the settings of a named file, or of the nearest one upward of a directory, if there is one. -/
def load (files : Files) (start : String) (named : Option String) : Except LoadFault Settings :=
  match path? files start named with
  | some path => read files path
  | none => .ok {}

/-- What is logged when settings have been loaded: those of a file, with its path. -/
def loadRecords (files : Files) (start : String) (named : Option String) : List Log.Record :=
  match path? files start named, load files start named with
  | some path, .ok settings => [.settingsLoaded path settings.debugText]
  | _, _ => []

end StackBytecode.Settings
