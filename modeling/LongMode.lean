import LongMode.Main
import LongMode.Session
import LongMode.Testcase.Report
import LongMode.Text.Utf8
import LongMode.Proofs.Encoding.Reads
import LongMode.Proofs.Encoding.WellFormed
import LongMode.Proofs.Encoding.Opcodes
import LongMode.Proofs.Encoding.Extent
import LongMode.Proofs.Execute.Faults
import LongMode.Proofs.Execute.Updates
import LongMode.Proofs.Run.Step
import LongMode.Proofs.Registers
import LongMode.Proofs.Execute.Unnoticed
import LongMode.Proofs.Run.Fault
import LongMode.Proofs.Run.Iteration
import LongMode.Proofs.Run.Boundary
import LongMode.Proofs.Memory
import LongMode.Proofs.Execute.WriteBack
import LongMode.Proofs.Listing.Decode
import LongMode.Proofs.Listing.Lines
import LongMode.Proofs.Listing.Chain
import LongMode.Proofs.Listing.Redecode
import LongMode.Proofs.Listing.Flash
import LongMode.Proofs.Listing.InStep
import LongMode.Proofs.Run.Unnoticed
import LongMode.Proofs.Run.Strict
import LongMode.Proofs.Run.Breakpoints
import LongMode.Proofs.Testcase.Journey
import LongMode.Proofs.Testcase.Report
import LongMode.Proofs.Json.Number
import LongMode.Proofs.Json.Parse
import LongMode.Proofs.Machine.Saved
import LongMode.Proofs.Json.Record
import LongMode.Proofs.Machine.Shape
import LongMode.Proofs.Host.Restore
import LongMode.Proofs.Listing.Locality
import LongMode.Proofs.Run.Disassembly
import LongMode.Proofs.Instruction.Text
import LongMode.Proofs.Listing.Tiling
import LongMode.Proofs.Listing.Invariant
import LongMode.Proofs.Run.Stability
import LongMode.Proofs.Run.Transparency
import LongMode.Proofs.Testcase.Budget
import LongMode.Proofs.Guarded.Words
import LongMode.Proofs.Guarded.Decode
import LongMode.Proofs.Guarded.Storage
import LongMode.Proofs.Encoding.Named
import LongMode.Proofs.Guarded.Access
import LongMode.Proofs.Guarded.StringOp
import LongMode.Proofs.Guarded.Effects
import LongMode.Proofs.Guarded.Execute
import LongMode.Proofs.Guarded.Opcodes
import LongMode.Proofs.Guarded.Run
import LongMode.Proofs.Run.MemoryMap
import LongMode.Proofs.Memory.Layout
import LongMode.Proofs.Text.Utf8
import LongMode.Proofs.Host.Handle
import LongMode.Proofs.CommandLine.Files
import LongMode.Proofs.CommandLine.Program
import LongMode.Proofs.CommandLine.Run
import LongMode.Proofs.CommandLine.Resume
import LongMode.Proofs.Run.Budget
import LongMode.Proofs.CommandLine.Budget
import LongMode.Proofs.Arithmetic.Wide
import LongMode.Proofs.Execute.Pair
import LongMode.Proofs.Run.Quotient
import LongMode.Proofs.Run.Product
import LongMode.Host.Turns
import LongMode.Proofs.Host.Isolation
import LongMode.Proofs.Text.Numeral
import LongMode.Proofs.Json.Gives
import LongMode.Proofs.Json.Whole
import LongMode.Proofs.Json.Respelled
import LongMode.Proofs.Testcase.Saved
import LongMode.Proofs.Testcase.Respelled
import LongMode.Proofs.Json.Local
import LongMode.Proofs.Json.Requoted
import LongMode.Proofs.Encoding.Addressing
import LongMode.Proofs.Encoding.Operands
import LongMode.Proofs.Run.Addressing
import LongMode.Proofs.Arithmetic.Bits
import LongMode.Proofs.Arithmetic.Total
import LongMode.Proofs.Arithmetic.Comparison
import LongMode.Proofs.Memory.BitString
import LongMode.Proofs.Run.Comparison
import LongMode.Proofs.Run.BitTest
import LongMode.Proofs.Execute.Elements
import LongMode.Proofs.Execute.Footprint
import LongMode.Proofs.Run.Confined
import LongMode.Proofs.Execute.Target
import LongMode.Proofs.Execute.Flags
import LongMode.Proofs.Run.Sum
import LongMode.Proofs.Run.Limbs
import LongMode.Proofs.Arithmetic.Rotation
import LongMode.Proofs.Arithmetic.Shift
import LongMode.Proofs.Run.Shift
import LongMode.Proofs.Memory.Block
import LongMode.Proofs.Execute.Repetition
import LongMode.Proofs.Run.Search
import LongMode.Proofs.Run.Block
import LongMode.Proofs.Execute.Outside
import LongMode.Proofs.Encoding.Prefix
import LongMode.Proofs.Encoding.Segment
import LongMode.Proofs.Run.Outside
import LongMode.Proofs.Run.Prefix
import LongMode.Proofs.Execute.Alike
import LongMode.Proofs.Encoding.Alternative
import LongMode.Proofs.Run.Alternative
import LongMode.Proofs.Registers.Bytes
import LongMode.Proofs.Encoding.Pointer
import LongMode.Proofs.Execute.Stack
import LongMode.Proofs.Run.Stack
import LongMode.Proofs.Run.Flags
import LongMode.Proofs.Encoding.Expression
import LongMode.Proofs.Memory.Image
import LongMode.Proofs.Text.Digits
import LongMode.Proofs.Text.Word
import LongMode.Proofs.Text.Code
import LongMode.Proofs.Registers.Name
import LongMode.Proofs.Memory.ByteMap
import LongMode.Proofs.Encoding.Termination
import LongMode.Proofs.CommandLine.Column
import LongMode.Proofs.CommandLine.Disassembly
