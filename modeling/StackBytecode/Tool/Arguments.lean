import StackBytecode.Number.Literal

/-!
# Arguments of a command line

Arguments are read from left to right as options and operands. An option has a long name, and may
have a letter; it is a switch, a counter, or takes a value, in the same argument after an equals
sign or in the next one. Two dashes end the options. Asking for the version or for help ends the
reading at once; whatever is wrong before that is an error of usage.
-/

namespace StackBytecode.Tool

/-- What an option takes. -/
inductive OptionKind
  /-- Nothing, and it is given at most once. -/
  | switch
  /-- Nothing, and it may be given repeatedly. -/
  | counter
  /-- A value that passes a test, and it is given at most once. -/
  | value (valid : String → Bool)

/-- An option of a command. -/
structure OptionSpec where
  name : String
  letter : Option Char := none
  kind : OptionKind

/-- What a command line may hold. -/
structure Usage where
  options : List OptionSpec
  /-- The greatest number of operands, if there is one. -/
  maxOperands : Option Nat

/-- What a command line holds: options with their values in order, and operands. -/
structure Arguments where
  options : List (String × String) := []
  operands : List String := []
  deriving DecidableEq, Repr

/-- Why reading arguments stops. -/
inductive Stop
  | version
  | help
  /-- The arguments are not those of the command. -/
  | misuse
  deriving DecidableEq, Repr

namespace Arguments

/-- Whether an option was given. -/
def has (a : Arguments) (name : String) : Bool := a.options.any (·.1 == name)

/-- The value that an option was given. -/
def value? (a : Arguments) (name : String) : Option String := a.options.lookup name

/-- The number of times that an option was given. -/
def count (a : Arguments) (name : String) : Nat := a.options.countP (·.1 == name)

/-- The arguments with an option added; only counters may repeat. -/
def addOption (a : Arguments) (option : OptionSpec) (value : String) : Except Stop Arguments :=
  let added : Arguments := { a with options := a.options ++ [(option.name, value)] }
  match option.kind with
  | .counter => .ok added
  | .switch => if a.has option.name then .error .misuse else .ok added
  | .value valid => if a.has option.name || !valid value then .error .misuse else .ok added

/-- The arguments with an operand added, unless there are too many. -/
def addOperand (usage : Usage) (a : Arguments) (operand : String) : Except Stop Arguments :=
  match usage.maxOperands with
  | some most => if a.operands.length < most then .ok (add a) else .error .misuse
  | none => .ok (add a)
where
  /-- The arguments with an operand at the end. -/
  add (a : Arguments) : Arguments := { a with operands := a.operands ++ [operand] }

/-- The arguments with a cluster of letters added. -/
def addLetters (usage : Usage) (a : Arguments) : List Char → Except Stop Arguments
  | [] => .ok a
  | 'V' :: _ => .error .version
  | 'h' :: _ => .error .help
  | letter :: letters =>
    match usage.options.find? (·.letter == some letter) with
    | none => .error .misuse
    | some option => do addLetters usage (← a.addOption option "") letters

/-- Whether an argument can be the value of the option before it. -/
def isValue (argument : String) : Bool :=
  match argument.toList with
  | '-' :: _ :: _ => false
  | _ => true

/-- Splits what follows the dashes of a long option at its first equals sign. -/
def splitEquals (text : List Char) : String × Option String :=
  let name := String.ofList (text.takeWhile (· != '='))
  match text.dropWhile (· != '=') with
  | _ :: value => (name, some (String.ofList value))
  | [] => (name, none)

/-- Reads the arguments that follow others. -/
def readOnto (usage : Usage) (a : Arguments) : List String → Except Stop Arguments
  | [] => .ok a
  | argument :: rest =>
    match argument.toList with
    | ['-', '-'] => rest.foldlM (addOperand usage) a
    | '-' :: '-' :: long =>
      let (name, attached) := splitEquals long
      match usage.options.find? (·.name == name), attached, rest with
      | none, attached, _ =>
        .error <|
          if attached.isSome then .misuse
          else if name = "version" then .version
          else if name = "help" then .help
          else .misuse
      | some option, attached, rest =>
        match option.kind, attached, rest with
        | .value _, some value, rest => do readOnto usage (← a.addOption option value) rest
        | .value _, none, value :: rest =>
          if isValue value then do readOnto usage (← a.addOption option value) rest else .error .misuse
        | .value _, none, [] => .error .misuse
        | _, some _, _ => .error .misuse
        | _, none, rest => do readOnto usage (← a.addOption option "") rest
    | '-' :: letter :: letters => do
      readOnto usage (← addLetters usage a (letter :: letters)) rest
    | _ => do readOnto usage (← addOperand usage a argument) rest

/-- Reads a command line. -/
def read (usage : Usage) (arguments : List String) : Except Stop Arguments :=
  readOnto usage {} arguments

end Arguments

end StackBytecode.Tool
