import StackBytecode.Machine

/-!
# Settings

What a configuration file can set, and how the flags of a command line override it.
-/

namespace StackBytecode

/-- When output is coloured. -/
inductive ColorMode
  | auto
  | always
  | never
  deriving DecidableEq, Repr

namespace ColorMode

/-- The name of a mode in files and on the command line. -/
def name : ColorMode → String
  | .auto => "auto"
  | .always => "always"
  | .never => "never"

/-- The name of a mode in a log. -/
def debugName : ColorMode → String
  | .auto => "Auto"
  | .always => "Always"
  | .never => "Never"

/-- The mode of a name. -/
def ofName? (text : String) : Option ColorMode := [auto, always, never].find? (·.name == text)

end ColorMode

/-- The settings of the tools. -/
structure Settings where
  stackMax : Nat := 256
  trace : Bool := false
  color : ColorMode := .auto
  deriving DecidableEq, Repr

namespace Settings

/-- The settings of the machine among those of the tools. -/
def machine (s : Settings) : Machine.Config := ⟨s.stackMax, s.trace⟩

/-- The text of settings in a log. -/
def debugText (s : Settings) : String :=
  "ToolConfig \x7b stack_max: " ++ s.stackMax.repr ++ ", trace: " ++ toString s.trace ++ ", color: " ++
    s.color.debugName ++ " \x7d"

/-- Settings that a command line gives. -/
structure Overrides where
  stackMax : Option Nat := none
  trace : Bool := false
  color : Option ColorMode := none
  deriving DecidableEq, Repr

/-- The text of the refusal of a stack that can hold nothing. -/
def emptyStackMessage : String := "stack_max must be at least 1"

/-- Settings with those of a command line on top; a stack that can hold nothing is refused. -/
def override? (s : Settings) (o : Overrides) : Option Settings :=
  let result : Settings :=
    { stackMax := o.stackMax.getD s.stackMax
      trace := s.trace || o.trace
      color := o.color.getD s.color }
  if result.stackMax = 0 then none else some result

end Settings

end StackBytecode
