import WindowVm.Text.Hex
import WindowVm.Text.Decimal
import WindowVm.Word
import WindowVm.Span
import WindowVm.Fault
import WindowVm.Instruction.Opcode
import WindowVm.Instruction.Basic
import WindowVm.Bytecode
import WindowVm.Bytecode.Cursor
import WindowVm.Instruction.Decode
import WindowVm.Instruction.Text
import WindowVm.Assembly.Error
import WindowVm.Assembly.Token
import WindowVm.Assembly.Operand
import WindowVm.Assembly.Statement
import WindowVm.Assembly.Layout
import WindowVm.Emitter
import WindowVm.Assembly.Basic
import WindowVm.Assembly.Diagnostic
import WindowVm.Disassembly
import WindowVm.Machine.Stack
import WindowVm.Machine.Basic
import WindowVm.Machine.Step
import WindowVm.Machine.Run
import WindowVm.Machine.Storage
import WindowVm.Machine.Stored
import WindowVm.Text.WhiteSpace
import WindowVm.Log.Calendar
import WindowVm.Log
import WindowVm.CommandLine
import WindowVm.Main
import WindowVm.Proofs.Encoding
import WindowVm.Proofs.Listing
import WindowVm.Proofs.Grammar
import WindowVm.Proofs.Lexing
import WindowVm.Proofs.Operands
import WindowVm.Proofs.Acceptance
import WindowVm.Proofs.Printing
import WindowVm.Proofs.RoundTrip
import WindowVm.Proofs.RegisterStack
import WindowVm.Proofs.Transitions
import WindowVm.Proofs.FrameChain
import WindowVm.Proofs.CallReturn
import WindowVm.Proofs.Relocation
import WindowVm.Proofs.Decoding
import WindowVm.Proofs.Reassembly
import WindowVm.Proofs.StackSafety
import WindowVm.Proofs.Faults
import WindowVm.Proofs.StepLimit
import WindowVm.Proofs.Boundaries
import WindowVm.Proofs.Appending
import WindowVm.Proofs.Inverse
import WindowVm.Proofs.Positions
import WindowVm.Proofs.Diagnostics
import WindowVm.Proofs.Assembler
import WindowVm.Proofs.WideReads
import WindowVm.Proofs.Refusals
import WindowVm.Proofs.Capacity
import WindowVm.Proofs.VectorLength
import WindowVm.Proofs.FrameOperand
import WindowVm.Proofs.Underlines
import WindowVm.Proofs.Gregorian
import WindowVm.Proofs.Placeholders
