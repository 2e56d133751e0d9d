import WordMachine.Word
import WordMachine.Text.Hex
import WordMachine.Fault
import WordMachine.Instruction
import WordMachine.Program.Basic
import WordMachine.Program.Check
import WordMachine.Program.Symbols
import WordMachine.Image.Record
import WordMachine.Image.Header
import WordMachine.Image.Build
import WordMachine.Memory
import WordMachine.Log
import WordMachine.Calendar
import WordMachine.Machine.State
import WordMachine.Machine.Microcode
import WordMachine.Machine.Semantics
import WordMachine.Machine.Dump
import WordMachine.Machine.Step
import WordMachine.Machine.Load
import WordMachine.CommandLine.Options
import WordMachine.CommandLine.Session
import WordMachine.Main
import WordMachine.Proofs.Machine.Actions
import WordMachine.Proofs.Machine.Execution
import WordMachine.Proofs.Machine.Guard
import WordMachine.Proofs.Machine.StepLimit
import WordMachine.Proofs.Machine.Stack
import WordMachine.Proofs.Machine.Calls
import WordMachine.Proofs.Machine.Frame
import WordMachine.Proofs.Machine.Transfers
import WordMachine.Proofs.Machine.CodeIntact
import WordMachine.Proofs.Success
import WordMachine.Proofs.Failure
import WordMachine.Proofs.Program.Checked
import WordMachine.Proofs.Program.Symbols
import WordMachine.Proofs.Program.Sections
import WordMachine.Proofs.Image.Header
import WordMachine.Proofs.Image.Emission
import WordMachine.Proofs.Image.Layout
import WordMachine.Proofs.Machine.Loaded
import WordMachine.Proofs.Machine.Loading
import WordMachine.Proofs.Fidelity
import WordMachine.Proofs.DataSurvival
import WordMachine.Proofs.Agreement
import WordMachine.Proofs.DeclarationOrder
import WordMachine.Proofs.Renaming
import WordMachine.Proofs.Disassembly
import WordMachine.Proofs.Machine.CallFrame
import WordMachine.Proofs.Machine.StackOrder
import WordMachine.Proofs.CommandLine.Options
import WordMachine.Proofs.CommandLine.Outcome
import WordMachine.Proofs.Overlaps
import WordMachine.Proofs.Capacity
import WordMachine.Proofs.Machine.Refusals
import WordMachine.Proofs.Machine.Footprint
import WordMachine.Proofs.Program.Resolution
import WordMachine.Proofs.Image.Records
import WordMachine.Proofs.Machine.StackDump
import WordMachine.Proofs.Calendar.Days
import WordMachine.Proofs.Calendar.Dates
