import WordMachine.CommandLine.Grammar
import WordMachine.CommandLine.Outcome
import WordMachine.CommandLine.Runner
import WordMachine.CommandLine.Solver
import WordMachine.Device.Basic
import WordMachine.Device.Console
import WordMachine.Device.Flaky
import WordMachine.Device.Transcript
import WordMachine.Disassembly.Line
import WordMachine.Disassembly.Listing
import WordMachine.Fault
import WordMachine.Image
import WordMachine.Input.LineBuffer
import WordMachine.Input.Source
import WordMachine.Instruction.Basic
import WordMachine.Instruction.Decode
import WordMachine.Journal
import WordMachine.Machine.Basic
import WordMachine.Machine.Patching
import WordMachine.Machine.Step
import WordMachine.Main
import WordMachine.Memory
import WordMachine.Opcode
import WordMachine.Operand
import WordMachine.ParseError
import WordMachine.Patch
import WordMachine.Processor.Action
import WordMachine.Processor.Basic
import WordMachine.Proofs.CommandLine.Agreement
import WordMachine.Proofs.CommandLine.Launch
import WordMachine.Proofs.CommandLine.Spelling
import WordMachine.Proofs.Disassembly.Fields
import WordMachine.Proofs.Disassembly.Legibility
import WordMachine.Proofs.Disassembly.Relocation
import WordMachine.Proofs.Disassembly.RoundTrip
import WordMachine.Proofs.Disassembly.Tiling
import WordMachine.Proofs.Disassembly.Truncation
import WordMachine.Proofs.Input.Delivery
import WordMachine.Proofs.Input.Failures
import WordMachine.Proofs.Input.Laziness
import WordMachine.Proofs.Input.Lines
import WordMachine.Proofs.Machine.Acts
import WordMachine.Proofs.Machine.Causality
import WordMachine.Proofs.Machine.Chronicle
import WordMachine.Proofs.Machine.Completion
import WordMachine.Proofs.Machine.Echo
import WordMachine.Proofs.Machine.EmptyReturn
import WordMachine.Proofs.Machine.Exchange
import WordMachine.Proofs.Machine.Execution
import WordMachine.Proofs.Machine.FaultAtomicity
import WordMachine.Proofs.Machine.FaultOrder
import WordMachine.Proofs.Machine.FaultPayload
import WordMachine.Proofs.Machine.InstructionTable
import WordMachine.Proofs.Machine.Patches
import WordMachine.Proofs.Machine.Printing
import WordMachine.Proofs.Machine.References
import WordMachine.Proofs.Machine.Runs
import WordMachine.Proofs.Machine.StackDiscipline
import WordMachine.Proofs.Machine.Stepwise
import WordMachine.Proofs.Machine.UnreadMemory
import WordMachine.Proofs.Machine.WordWidth
import WordMachine.Proofs.Memory.History
import WordMachine.Proofs.Memory.Placement
import WordMachine.Proofs.Teleporter.ClosedForms
import WordMachine.Proofs.Teleporter.Handover
import WordMachine.Proofs.Teleporter.Seeds
import WordMachine.Proofs.Teleporter.Tabulation
import WordMachine.Proofs.Text.Numbers
import WordMachine.Proofs.Text.Pairs
import WordMachine.Proofs.Vault.Construction
import WordMachine.Proofs.Vault.Discovery
import WordMachine.Proofs.Vault.Exhaustion
import WordMachine.Proofs.Vault.Notation
import WordMachine.Proofs.Vault.Precedence
import WordMachine.Proofs.Vault.Shortest
import WordMachine.Proofs.Vault.Trail
import WordMachine.Proofs.Vault.Unambiguity
import WordMachine.Proofs.Vault.Visits
import WordMachine.Proofs.Vault.Walk
import WordMachine.Teleporter.Confirmation
import WordMachine.Teleporter.Patches
import WordMachine.Teleporter.Search
import WordMachine.Teleporter.Table
import WordMachine.Text.Blank
import WordMachine.Text.Number
import WordMachine.Text.Numeral
import WordMachine.Text.Utf16
import WordMachine.Text.Utf8
import WordMachine.Vault.Graph
import WordMachine.Vault.Operation
import WordMachine.Vault.Orb
import WordMachine.Vault.Search
import WordMachine.Word
