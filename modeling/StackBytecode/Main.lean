import StackBytecode.Duration
import StackBytecode.Tool.Command

/-!
# The program

Both commands in one program: the first argument is `disasm` or `run`, and the others are the
command's own. This layer reads the files and the standard input that a command may ask for,
writes the pieces of its output, and measures time. With `-vv` it also writes the log events of
the first level, with `-vvv` those of both.
-/

namespace StackBytecode.Tool

/-- The reason behind a failure of the system. -/
def readFault : IO.Error → ReadFault
  | .noFileOrDirectory _ _ _ => .missing
  | .inappropriateType _ code _ => if code = 21 then .isDirectory else .notDirectory
  | .permissionDenied _ code details => .other (details ++ " (os error " ++ code.toNat.repr ++ ")")
  | e => .other (toString e)

/-- Whether a path leads to a file that cannot be read: then no path leads on from it, and for that
reason. -/
def isFileAt (path : String) : IO Bool := do
  try
    let _ ← IO.FS.readBinFile (path ++ "/.")
    return false
  catch e => return readFault e = .notDirectory

/-- Reads the file of a path. -/
def readPath (path : String) : IO (Except ReadFault ByteArray) := do
  try
    return .ok (← IO.FS.readBinFile path)
  catch e =>
    match readFault e with
    | .other reason => return .error (if ← isFileAt path then .denied reason else .other reason)
    | reason => return .error reason

/-- The directory of the program. A path that was no text has replacement characters instead, and does
not lead to the directory any more. -/
def currentDirectory : IO (Except DirectoryFault String) := do
  try
    let directory := (← IO.currentDir).toString
    if directory.contains '\uFFFD' then
      if let .error .missing ← readPath directory then return .error (.notText directory)
    return .ok directory
  catch e => return .error (.unreadable (readFault e))

/-- Reads a stream to its end. -/
partial def readAll (stream : IO.FS.Stream) (before : ByteArray) : IO ByteArray := do
  let piece ← stream.read 65536
  if piece.isEmpty then return before else readAll stream (before ++ piece)

/-- The line of a log event. -/
def logLine (level : Log.Level) (entry : Log.Entry) : String :=
  " ".intercalate (level.name :: entry.text :: entry.fields.map fun (name, value) => name ++ "=" ++ value)

/-- Whether a level is shown for a number of `-v`. -/
def isShown (verbose : Nat) : Log.Level → Bool
  | .debug => 2 ≤ verbose
  | .trace => 3 ≤ verbose

/-- Writes a piece of output. -/
def writePiece (start verbose : Nat) : Piece → IO Unit
  | .out text => IO.print text
  | .err text => IO.eprint text
  | .elapsed before => do
    let passed := (← IO.monoNanosNow) - start
    IO.eprintln (before ++ (Duration.ofNanoseconds passed.toUInt64).text)
  | .log record =>
    let entry := record.entry
    match entry.level with
    | some level => if isShown verbose level then IO.eprintln (logLine level entry) else pure ()
    | none => pure ()

/-- Performs a command: its inputs and common options say what it may read. -/
def perform (options : CommonOptions) (inputs : List String) (output : Surroundings → Output) :
    IO UInt32 := do
  let start ← IO.monoNanosNow
  let directory ← currentDirectory
  let readings ← (options.paths directory inputs).mapM fun path => return (path, ← readPath path)
  let stdin ← if inputs.contains stdinMark then readAll (← IO.getStdin) .empty else pure .empty
  let result := output { files := .ofReadings readings, stdin := stdin, directory := directory }
  result.pieces.forM (writePiece start options.verbose)
  return result.status.toUInt32

/-- Writes the output of arguments that ask for no work. -/
def stop (tool : String) (reason : Stop) : IO UInt32 := do
  let result := reason.output tool
  result.pieces.forM (writePiece 0 0)
  return result.status.toUInt32

end StackBytecode.Tool

open StackBytecode.Tool in
/-- Runs the program. -/
def main (arguments : List String) : IO UInt32 :=
  match arguments with
  | "disasm" :: rest =>
    match ListCommand.read rest with
    | .ok cmd => perform cmd.common cmd.inputs cmd.output
    | .error reason => stop ListCommand.tool reason
  | "run" :: rest =>
    match RunCommand.read rest with
    | .ok cmd => perform cmd.common [cmd.input] cmd.output
    | .error reason => stop RunCommand.tool reason
  | _ => do
    IO.eprintln "Usage: disasm|run [OPTIONS] <INPUT>"
    return 2
