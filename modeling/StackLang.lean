import StackLang.Assembly
import StackLang.Compile
import StackLang.CompileError
import StackLang.Decimal
import StackLang.Event
import StackLang.Json
import StackLang.Json.Layout
import StackLang.Json.Lexeme
import StackLang.Json.Reader
import StackLang.Location
import StackLang.Lowering
import StackLang.Lowering.Measure
import StackLang.Lowering.Step
import StackLang.Macro.Body
import StackLang.Macro.Table
import StackLang.Opcode
import StackLang.Operation
import StackLang.Program
import StackLang.Program.Check
import StackLang.Program.Interchange
import StackLang.Program.Listing
import StackLang.Proofs.Assembly
import StackLang.Proofs.Assembly.Blocks
import StackLang.Proofs.Assembly.Relocation
import StackLang.Proofs.Buffer
import StackLang.Proofs.Buffer.Agreement
import StackLang.Proofs.Buffer.Assembling
import StackLang.Proofs.Buffer.Storage
import StackLang.Proofs.Buffer.Valid
import StackLang.Proofs.Code
import StackLang.Proofs.Code.Completion
import StackLang.Proofs.Code.Draft
import StackLang.Proofs.Code.Execution
import StackLang.Proofs.Code.Lowered
import StackLang.Proofs.Compile
import StackLang.Proofs.Compile.Location
import StackLang.Proofs.Compile.OpenRegion
import StackLang.Proofs.Json.Lexeme
import StackLang.Proofs.Json.RoundTrip
import StackLang.Proofs.Lowering.Accounting
import StackLang.Proofs.Lowering.Concatenation
import StackLang.Proofs.Lowering.EarliestError
import StackLang.Proofs.Lowering.Expansion
import StackLang.Proofs.Lowering.Fault
import StackLang.Proofs.Lowering.Frame
import StackLang.Proofs.Lowering.Inlining
import StackLang.Proofs.Lowering.LastKeyword
import StackLang.Proofs.Lowering.Levels
import StackLang.Proofs.Lowering.Limit
import StackLang.Proofs.Lowering.Origin
import StackLang.Proofs.Lowering.Path
import StackLang.Proofs.Lowering.Placements
import StackLang.Proofs.Lowering.Recursion
import StackLang.Proofs.Lowering.Renaming
import StackLang.Proofs.Lowering.Tail
import StackLang.Proofs.Lowering.Termination
import StackLang.Proofs.Lowering.Unchecked
import StackLang.Proofs.Lowering.Unknown
import StackLang.Proofs.Lowering.Unused
import StackLang.Proofs.Macro
import StackLang.Proofs.Macro.History
import StackLang.Proofs.Program.Check
import StackLang.Proofs.Program.Interchange
import StackLang.Proofs.Program.Listing
import StackLang.Proofs.Source.Chunks
import StackLang.Proofs.Source.Line
import StackLang.Proofs.Source.Rendering
import StackLang.Proofs.Source.Runs
import StackLang.Proofs.Source.Unclosed
import StackLang.Proofs.Text.Lines
import StackLang.Proofs.Text.Quoted
import StackLang.Proofs.Word
import StackLang.Proofs.Word.Classification
import StackLang.Queue
import StackLang.Source.Directory
import StackLang.Source.Line
import StackLang.Source.Session
import StackLang.Text.Blank
import StackLang.Text.Lines
import StackLang.Text.Quoted
import StackLang.Text.Unprintable
import StackLang.Token
import StackLang.Word
