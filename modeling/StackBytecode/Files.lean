import StackBytecode.Text.Split

/-!
# Files

Reading is a function from paths to contents or reasons: all that the tools ask of a file system,
since a reason also tells whether there is a file. Beside it stand the two operations on paths that a search through parent directories needs, and a
directory tree held as data, with the lookup rules of such a file system.
-/

namespace StackBytecode

/-- Why a file cannot be read. -/
inductive ReadFault
  | missing
  | notDirectory
  | isDirectory
  | nameTooLong
  | invalidName
  /-- The contents are no UTF-8 text. -/
  | notText
  /-- There is a file, but its contents are not to be had, for a reason in the words of the system. -/
  | denied (reason : String)
  /-- Any other reason, in the words of the system. -/
  | other (reason : String)
  deriving DecidableEq, Repr

/-- The text of a reason. -/
def ReadFault.message : ReadFault → String
  | .missing => "No such file or directory (os error 2)"
  | .notDirectory => "Not a directory (os error 20)"
  | .isDirectory => "Is a directory (os error 21)"
  | .nameTooLong => "File name too long (os error 36)"
  | .invalidName => "file name contained an unexpected NUL byte"
  | .notText => "stream did not contain valid UTF-8"
  | .denied reason | .other reason => reason

/-- Whether a reason says that there is a file. -/
def ReadFault.isOfFile : ReadFault → Bool
  | .notText | .denied _ => true
  | _ => false

/-- Why the directory of a program is not known. -/
inductive DirectoryFault
  | unreadable (reason : ReadFault)
  /-- Its path is no UTF-8 text; what is shown has replacement characters in it. -/
  | notText (shown : String)
  deriving DecidableEq, Repr

/-- The texts of such a fault, outermost first. -/
def DirectoryFault.chain : DirectoryFault → List String
  | .unreadable reason => ["current directory", reason.message]
  | .notText shown => ["non UTF-8 path: " ++ shown]

/-- What reading the file of a path gives. -/
abbrev Files := String → Except ReadFault ByteArray

/-- The contents of a file as text. -/
def decodeText (bytes : ByteArray) : Except ReadFault String :=
  match String.fromUTF8? bytes with
  | some text => .ok text
  | none => .error .notText

/-- Reads a file as text. -/
def Files.text (files : Files) (path : String) : Except ReadFault String :=
  files path >>= decodeText

/-- Files as they were found when each of some paths was read. -/
def Files.ofReadings (readings : List (String × Except ReadFault ByteArray)) : Files :=
  fun path => (readings.lookup path).getD (.error .missing)

/-- Whether a path leads to a file, also to one that cannot be read. -/
def Files.hasFile (files : Files) (path : String) : Bool :=
  match files path with
  | .ok _ => true
  | .error reason => reason.isOfFile

namespace Path

/-- The parts of a path between slashes; an empty first part stands for the root. -/
def parts (path : String) : List String :=
  (Text.splitWhen (· == '/') path.toList).map String.ofList

/-- A path from its parts. The root alone is one slash. -/
def ofParts : List String → String
  | [""] => "/"
  | parts => "/".intercalate parts

/-- Whether a part that is not the first names nothing: it is empty or a single dot. -/
def isVoid (part : String) : Bool := part = "" || part = "."

/-- Drops void parts, last part first, except for a first one. -/
def dropVoid : List String → List String
  | [] => []
  | [first] => [first]
  | last :: before => if isVoid last then dropVoid before else last :: before

/-- The parents of a path, nearest first, from its parts, last part first. -/
def parents : List String → List String
  | [] => []
  | [""] => []
  | [_] => [""]
  | last :: before =>
    if isVoid last then parents before
    else ofParts (dropVoid before).reverse :: parents before

/-- A path and all of its parents, nearest first. A relative path ends with the empty one. -/
def ancestors (path : String) : List String := path :: parents (parts path).reverse

/-- The names of the place that a part leads to from the place with the given names. Two dots lead
to the directory above, and at the root nowhere else. -/
def step (place : List String) (part : String) : List String :=
  if isVoid part then place else if part = ".." then place.dropLast else place ++ [part]

/-- The places that the parts of a path lead through, the first being where they start. -/
def places (place : List String) : List String → List (List String)
  | [] => [place]
  | part :: rest => place :: places (step place part) rest

/-- The place that a path leads to from a place, when every directory on the way exists. -/
def resolve (place : List String) (path : String) : List String := (parts path).foldl step place

/-- The path of a file in a directory. -/
def join (directory file : String) : String :=
  match directory.toList.getLast? with
  | none => file
  | some last => if last = '/' then directory ++ file else directory ++ "/" ++ file

end Path

/-- A file, or a directory with named files and directories in it. -/
inductive FileTree
  | file (bytes : ByteArray)
  | directory (entries : List (String × FileTree))

namespace FileTree

/-- The directory with nothing in it. -/
def empty : FileTree := .directory []

/-- The entries of a directory; a file has none. -/
def entries : FileTree → List (String × FileTree)
  | .file _ => []
  | .directory entries => entries

/-- Puts what `change` makes of the tree that names lead to in its place. Directories on the way
are made, and take the place of files. -/
def put (change : Option FileTree → FileTree) : List String → Option FileTree → FileTree
  | [], old => change old
  | name :: names, old =>
    let entries := (old.map entries).getD []
    .directory ((name, put change names (entries.lookup name)) :: entries.filter (·.1 ≠ name))

/-- A tree with a directory at some names. -/
def makeDirectory (tree : FileTree) (names : List String) : FileTree :=
  put (fun old => .directory ((old.map entries).getD [])) names (some tree)

/-- A tree with the directories on a path from a place, also those that the path leaves again. -/
def addDirectory (tree : FileTree) (place : List String) (path : String) : FileTree :=
  (Path.places place (Path.parts path)).foldl makeDirectory tree

/-- A tree with a file at a path from a place, and the directories on the way to it. What the file
held before is forgotten. -/
def addFile (tree : FileTree) (place : List String) (path : String) (bytes : ByteArray) : FileTree :=
  let made := (Path.places place (Path.parts path).dropLast).foldl makeDirectory tree
  put (fun _ => .file bytes) (Path.resolve place path) (some made)

/-- What the parts of a path lead to from a tree, which lies in the trees above it, nearest first. -/
def follow (here : FileTree) (above : List FileTree) : List String → Except ReadFault FileTree
  | [] => .ok here
  | part :: rest =>
    match here with
    | .file _ => .error .notDirectory
    | .directory entries =>
      if Path.isVoid part then follow here above rest
      else if part = ".." then follow (above.headD here) above.tail rest
      else if 255 < part.utf8ByteSize then .error .nameTooLong
      else
        match entries.lookup part with
        | none => .error .missing
        | some there => follow there (here :: above) rest

/-- Reads a path as seen from the directory with the given names. -/
def read (tree : FileTree) (directory : List String) : Files := fun path => do
  if path.isEmpty then throw .missing
  if path.toList.contains '\x00' then throw .invalidName
  if 4096 ≤ path.utf8ByteSize then throw .nameTooLong
  let start := if path.toList.head? = some '/' then [] else directory
  match ← tree.follow [] (start ++ Path.parts path) with
  | .file bytes => return bytes
  | .directory _ => throw .isDirectory

end FileTree

end StackBytecode
