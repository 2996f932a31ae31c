import StackBytecode.Log
import StackBytecode.Settings
import StackBytecode.Text.Columns

/-!
# Output of the tools

What a tool writes, as a list of pieces in order, and its exit status. A piece may wait for the
time that has passed, and log records are passed on for the outer layer to choose from.
-/

namespace StackBytecode.Tool

/-- The version of the tools. -/
def release : String := "0.1.0"

/-- The banner of a tool, which it logs when it starts. -/
def banner (tool : String) : String := tool ++ " — loxvm-tools " ++ release

/-- A piece of output. -/
inductive Piece
  | out (text : String)
  | err (text : String)
  /-- The time that has passed, on a line of the error output after a text. -/
  | elapsed (before : String)
  | log (record : Log.Record)
  deriving DecidableEq, Repr

/-- What a tool writes, and its exit status. -/
structure Output where
  pieces : List Piece := []
  status : Nat := 0
  deriving DecidableEq, Repr

namespace Output

/-- The text on the standard output. -/
def stdout (o : Output) : String :=
  String.join (o.pieces.map fun
    | .out text => text
    | _ => "")

/-- The text on the error output without log lines, for a given text of the time that has passed. -/
def stderr (o : Output) (time : String) : String :=
  String.join (o.pieces.map fun
    | .err text => text
    | .elapsed before => before ++ time ++ "\n"
    | _ => "")

/-- One output after another, with the second's status; a failure ends the sequence. -/
def andThen (o next : Output) : Output :=
  if o.status = 0 then ⟨o.pieces ++ next.pieces, next.status⟩ else o

/-- Output of pieces that ends well. -/
def of (pieces : List Piece) : Output := ⟨pieces, 0⟩

/-- Output of log records alone. -/
def logs (records : List Log.Record) : Output := of (records.map .log)

/-- Log records add nothing to a text that passes them over. -/
theorem join_map_logs {text : Piece → String} (h : ∀ record, text (.log record) = "")
    (records : List Log.Record) (pieces : List Piece) :
    String.join ((records.map Piece.log ++ pieces).map text) = String.join (pieces.map text) := by
  induction records with
  | nil => rfl
  | cons record rest ih =>
    rw [List.map_cons, List.cons_append, List.map_cons, String.join_cons, h, ih, String.empty_append]

@[simp] theorem status_logs_andThen (records : List Log.Record) (o : Output) :
    ((logs records).andThen o).status = o.status := rfl

@[simp] theorem pieces_logs_andThen (records : List Log.Record) (o : Output) :
    ((logs records).andThen o).pieces = records.map .log ++ o.pieces := rfl

@[simp] theorem stdout_logs_andThen (records : List Log.Record) (o : Output) :
    ((logs records).andThen o).stdout = o.stdout := by
  refine join_map_logs ?_ records o.pieces
  exact fun _ => rfl

@[simp] theorem stderr_logs_andThen (records : List Log.Record) (o : Output) (time : String) :
    ((logs records).andThen o).stderr time = o.stderr time := by
  refine join_map_logs ?_ records o.pieces
  exact fun _ => rfl

end Output

/-- A text in a style of the terminal, when there are colours. -/
def paint (colors : Bool) (style text : String) : String :=
  if colors then "\x1b[" ++ style ++ "m" ++ text ++ "\x1b[0m" else text

/-- Bold red. -/
def errorStyle : String := "1;31"

/-- Green. -/
def successStyle : String := "32"

/-- Dimmed. -/
def dimStyle : String := "2"

/-- Whether a mode shows colours. -/
def showsColors (mode : ColorMode) : Bool := mode ≠ .never

/-- The output of a failure with a chain of messages. -/
def failure (colors : Bool) (chain : List String) : Output :=
  ⟨[.err (paint colors errorStyle "error:" ++ " " ++ Text.chain chain ++ "\n")], 1⟩

/-- The line that tells how long the work on an input took. -/
def timeLine (colors : Bool) (name : String) : Piece :=
  .elapsed (paint colors dimStyle "time" ++ " " ++ name ++ ": ")

end StackBytecode.Tool
