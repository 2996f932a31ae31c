import StackBytecode.Rendering
import StackBytecode.Settings.File
import StackBytecode.Tool.Arguments
import StackBytecode.Tool.Output
import StackBytecode.Tool.Source

/-!
# The commands

Two commands: one lists assembled sources, the other runs one. Each is a function of its arguments
and of what it can read. It logs that it starts and loads its settings, before anything else. Output is
coloured until settings that say otherwise are in force, so a failure to load them is reported in
colour.
-/

namespace StackBytecode.Tool

/-- What a command can read. -/
structure Surroundings where
  files : Files
  stdin : ByteArray
  /-- The directory that the search for a configuration file starts from, if it is known. -/
  directory : Except DirectoryFault String

namespace Surroundings

/-- Loads the settings of a command from a named file, or as its directory has them. Without a directory
there are none, even if a file is named. -/
def load (s : Surroundings) (named : Option String) : Except Settings.LoadFault Settings :=
  match s.directory with
  | .error fault => .error (.noDirectory fault)
  | .ok directory => Settings.load s.files directory named

/-- What a command logs before it works on its inputs: that it starts, and the settings of a file. -/
def opening (s : Surroundings) (tool : String) (named : Option String) : List Log.Record :=
  .started (banner tool) ::
    match s.directory with
    | .error _ => []
    | .ok directory => Settings.loadRecords s.files directory named

end Surroundings

/-- The output of arguments that ask for no work. -/
def Stop.output (tool : String) : Stop → Output
  | .version => .of [.out (tool ++ " " ++ release ++ "\n")]
  | .help => .of [.out ("Usage: " ++ tool ++ " [OPTIONS] <INPUT>\n")]
  | .misuse => ⟨[.err ("Usage: " ++ tool ++ " [OPTIONS] <INPUT>\n")], 2⟩

/-- The options that both commands have. -/
def commonOptions : List OptionSpec :=
  [⟨"stdin-name", none, .value fun _ => true⟩, ⟨"time", none, .switch⟩,
    ⟨"color", none, .value fun text => (ColorMode.ofName? text).isSome⟩,
    ⟨"config", none, .value fun _ => true⟩, ⟨"verbose", some 'v', .counter⟩]

/-- What the options say that both commands have. -/
structure CommonOptions where
  stdinName : String
  time : Bool
  color : Option ColorMode
  config : Option String
  verbose : Nat
  deriving DecidableEq, Repr

/-- The common options among arguments. -/
def CommonOptions.ofArguments (a : Arguments) : CommonOptions where
  stdinName := (a.value? "stdin-name").getD "<stdin>"
  time := a.has "time"
  color := (a.value? "color").bind ColorMode.ofName?
  config := a.value? "config"
  verbose := a.count "verbose"

/-- The paths that a command may read, which looks for its settings from a directory on. -/
def CommonOptions.paths (options : CommonOptions) (directory : Except DirectoryFault String)
    (inputs : List String) : List String :=
  options.config.elim (directory.toOption.elim [] Settings.candidates) ([·]) ++
    inputs.filter (· ≠ stdinMark)

/-! ## Listing -/

/-- A request to list sources. -/
structure ListCommand where
  common : CommonOptions
  render : RenderOptions
  inputs : List String
  deriving DecidableEq, Repr

namespace ListCommand

/-- The name of the command. -/
def tool : String := "loxvm-disasm"

/-- What its command line may hold. -/
def usage : Usage where
  options :=
    commonOptions ++ ["compact", "json", "summary", "verify", "strict"].map fun name => ⟨name, none, .switch⟩
  maxOperands := none

/-- Reads its command line: at least one input, and at most one of the modes. -/
def read (arguments : List String) : Except Stop ListCommand := do
  let a ← Arguments.read usage arguments
  if a.operands.isEmpty || 1 < ["compact", "json", "summary"].countP a.has then throw .misuse
  return {
    common := .ofArguments a
    render :=
      { mode := .ofFlags (a.has "compact") (a.has "summary") (a.has "json")
        verify := a.has "verify"
        strict := a.has "strict" }
    inputs := a.operands }

/-- The output for one input. -/
def outputFor (cmd : ListCommand) (s : Surroundings) (colors : Bool) (input : String) : Output :=
  match readSource s.files s.stdin cmd.common.stdinName input with
  | .error fault => failure colors fault.chain
  | .ok source =>
    let logged : Output := .logs (assemblyRecords source.text)
    match assembleSource source with
    | .error fault => logged.andThen (failure colors fault.chain)
    | .ok c =>
      match c.render source.name cmd.render with
      | .error fault => logged.andThen (failure colors (fault.chain source.name))
      | .ok text =>
        let verified := paint colors successStyle "verified" ++ " " ++ source.name ++ "\n"
        logged.andThen <| .of <|
          (if cmd.render.verify then [.err verified] else []) ++ [.out text] ++
            if cmd.common.time then [timeLine colors source.name] else []

/-- The outputs for inputs in order, up to the first failure. -/
def outputForAll (cmd : ListCommand) (s : Surroundings) (colors : Bool) : List String → Output
  | [] => .of []
  | input :: inputs => (cmd.outputFor s colors input).andThen (outputForAll cmd s colors inputs)

/-- What the command does about its settings and with its inputs. -/
def work (cmd : ListCommand) (s : Surroundings) : Output :=
  match s.load cmd.common.config with
  | .error fault => failure true fault.chain
  | .ok settings =>
    let colors := showsColors (cmd.common.color.getD settings.color)
    if inputsAgree cmd.inputs then cmd.outputForAll s colors cmd.inputs
    else failure colors [mixedInputsMessage]

/-- The output of the command. -/
def output (cmd : ListCommand) (s : Surroundings) : Output :=
  (Output.logs (s.opening tool cmd.common.config)).andThen (cmd.work s)

end ListCommand

/-! ## Running -/

/-- A request to run a source. -/
structure RunCommand where
  common : CommonOptions
  overrides : Settings.Overrides
  input : String
  deriving DecidableEq, Repr

namespace RunCommand

/-- The name of the command. -/
def tool : String := "loxvm-run"

/-- Reads the value of a stack limit: a number that a word can hold. -/
def readStackMax? (text : String) : Option Nat := Number.readBelow? UInt64.size text.toList

/-- What its command line may hold. -/
def usage : Usage where
  options :=
    commonOptions ++
      [⟨"trace", none, .switch⟩, ⟨"stack-max", none, .value fun text => (readStackMax? text).isSome⟩]
  maxOperands := some 1

/-- Reads its command line: exactly one input. -/
def read (arguments : List String) : Except Stop RunCommand := do
  let a ← Arguments.read usage arguments
  match a.operands with
  | [input] =>
    let common := CommonOptions.ofArguments a
    return {
      common := common
      overrides :=
        { stackMax := (a.value? "stack-max").bind readStackMax?
          trace := a.has "trace"
          color := common.color }
      input := input }
  | _ => throw .misuse

/-- The settings that the command runs with. -/
def settings (cmd : RunCommand) (s : Surroundings) : Except (List String) Settings :=
  match s.load cmd.common.config with
  | .error fault => .error fault.chain
  | .ok loaded =>
    match loaded.override? cmd.overrides with
    | none => .error [Settings.emptyStackMessage]
    | some settings => .ok settings

/-- The text of the result of a run. -/
def resultText (colors : Bool) : Option Value → String
  | some v => v.text
  | none => paint colors dimStyle "nil"

/-- The output of running the input with settings. -/
def outputWith (cmd : RunCommand) (s : Surroundings) (settings : Settings) : Output :=
  let colors := showsColors settings.color
  match readSource s.files s.stdin cmd.common.stdinName cmd.input with
  | .error fault => failure colors fault.chain
  | .ok source =>
    let logged : Output := .logs (assemblyRecords source.text)
    match assembleSource source with
    | .error fault => logged.andThen (failure colors fault.chain)
    | .ok c =>
      let logged := logged.andThen (.logs (Machine.records settings.machine c))
      match runChunk settings source.name c with
      | .error fault => logged.andThen (failure colors fault.chain)
      | .ok result =>
        logged.andThen <| .of <|
          .out (resultText colors result ++ "\n") ::
            if cmd.common.time then [timeLine colors source.name] else []

/-- What the command does about its settings and with its input. -/
def work (cmd : RunCommand) (s : Surroundings) : Output :=
  match cmd.settings s with
  | .error chain => failure true chain
  | .ok settings => cmd.outputWith s settings

/-- The output of the command. -/
def output (cmd : RunCommand) (s : Surroundings) : Output :=
  (Output.logs (s.opening tool cmd.common.config)).andThen (cmd.work s)

end RunCommand

/-! ## Command lines -/

/-- The output of a command line of the listing command. -/
def listOutput (arguments : List String) (s : Surroundings) : Output :=
  match ListCommand.read arguments with
  | .error stop => stop.output ListCommand.tool
  | .ok cmd => cmd.output s

/-- The output of a command line of the running command. -/
def runOutput (arguments : List String) (s : Surroundings) : Output :=
  match RunCommand.read arguments with
  | .error stop => stop.output RunCommand.tool
  | .ok cmd => cmd.output s

end StackBytecode.Tool
