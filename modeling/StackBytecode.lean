import StackBytecode.Assembly.Evaluation
import StackBytecode.Main
import StackBytecode.Proofs.Assembly.Acceptance
import StackBytecode.Proofs.Assembly.Concatenation
import StackBytecode.Proofs.Assembly.FirstFault
import StackBytecode.Proofs.Assembly.GrowthLog
import StackBytecode.Proofs.Assembly.ListedLines
import StackBytecode.Proofs.Assembly.Reassembly
import StackBytecode.Proofs.Assembly.Safety
import StackBytecode.Proofs.Assembly.ShownValues
import StackBytecode.Proofs.Assembly.Spelling
import StackBytecode.Proofs.Buffer.Capacity
import StackBytecode.Proofs.Buffer.GrowthLog
import StackBytecode.Proofs.Chunk.GrowthLog
import StackBytecode.Proofs.Chunk.History
import StackBytecode.Proofs.Chunk.LineRuns
import StackBytecode.Proofs.Chunk.RunLengthForm
import StackBytecode.Proofs.Decoding.Extension
import StackBytecode.Proofs.Decoding.Tiling
import StackBytecode.Proofs.Duration
import StackBytecode.Proofs.Listing.Coverage
import StackBytecode.Proofs.Listing.Diagnosis
import StackBytecode.Proofs.Listing.Lines
import StackBytecode.Proofs.Listing.Progress
import StackBytecode.Proofs.Listing.Reading
import StackBytecode.Proofs.Machine.Atomicity
import StackBytecode.Proofs.Machine.Dispatch
import StackBytecode.Proofs.Machine.Independence
import StackBytecode.Proofs.Machine.Limit
import StackBytecode.Proofs.Machine.Trace
import StackBytecode.Proofs.Number.Exact
import StackBytecode.Proofs.Number.ExactText
import StackBytecode.Proofs.Number.Operations
import StackBytecode.Proofs.Report.Recovery
import StackBytecode.Proofs.SumProgram
import StackBytecode.Proofs.Text.Colorless
import StackBytecode.Proofs.Tool.Color
import StackBytecode.Proofs.Tool.Inputs
import StackBytecode.Settings.Document
import StackBytecode.SumProgram
