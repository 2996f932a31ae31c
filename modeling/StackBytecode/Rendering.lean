import StackBytecode.Listing
import StackBytecode.Report
import StackBytecode.Validation

/-!
# Rendering

The text of a chunk in one of four modes. Before it, an empty chunk can be refused and the chunk
can be validated; a refusal names the chunk.
-/

namespace StackBytecode

/-- What is shown of a chunk. -/
inductive ListingMode
  | full
  | compact
  | summary
  | json
  deriving DecidableEq, Repr

/-- The mode that flags ask for; of several, the most structured one. -/
def ListingMode.ofFlags (compact summary json : Bool) : ListingMode :=
  if json then .json else if summary then .summary else if compact then .compact else .full

/-- How a chunk is rendered. -/
structure RenderOptions where
  mode : ListingMode := .full
  /-- Whether the chunk must be valid. -/
  verify : Bool := false
  /-- Whether the chunk must have code. -/
  strict : Bool := false
  deriving DecidableEq, Repr

/-- Why a chunk is not rendered. -/
inductive RenderFault
  | emptyChunk
  | notValid (fault : ValidationFault)
  deriving DecidableEq, Repr

/-- The texts of a refusal, outermost first. -/
def RenderFault.chain (name : String) : RenderFault → List String
  | .emptyChunk => [name ++ ": empty chunk (--strict)"]
  | .notValid fault => ("verifying " ++ name) :: ValidationFault.chain fault

namespace Chunk

/-- The text of a chunk in a mode. -/
def textIn (c : Chunk) (name : String) : ListingMode → String
  | .full => c.fullListing name
  | .compact => c.compactListing
  | .summary => c.summary name ++ "\n"
  | .json => (Report.ofChunk c name).document.pretty ++ "\n"

/-- Why a chunk is refused under the given options, if it is. -/
def refusal? (c : Chunk) (options : RenderOptions) : Option RenderFault :=
  if options.strict ∧ c.size = 0 then some .emptyChunk
  else if options.verify then c.validationFault?.map .notValid
  else none

/-- The text of a chunk, or why it is refused. -/
def render (c : Chunk) (name : String) (options : RenderOptions) : Except RenderFault String :=
  match c.refusal? options with
  | some fault => .error fault
  | none => .ok (c.textIn name options.mode)

end Chunk

end StackBytecode
