import ThreeAddress.Asm.Buffer
import ThreeAddress.Asm.Instr
import ThreeAddress.Asm.Listing
import ThreeAddress.Codegen.Allocate
import ThreeAddress.Codegen.Call
import ThreeAddress.Codegen.Compile
import ThreeAddress.Codegen.Liveness
import ThreeAddress.Codegen.Lower
import ThreeAddress.Codegen.Procedure
import ThreeAddress.Codegen.State
import ThreeAddress.Command
import ThreeAddress.Descriptor.Session
import ThreeAddress.Descriptor.Store
import ThreeAddress.Error
import ThreeAddress.Fault
import ThreeAddress.Folder
import ThreeAddress.Frame.Json
import ThreeAddress.Frame.Layout
import ThreeAddress.Frame.Plan
import ThreeAddress.Frame.Report
import ThreeAddress.Instr.Basic
import ThreeAddress.Instr.Decode
import ThreeAddress.KeySet.Basic
import ThreeAddress.KeySet.Bits
import ThreeAddress.KeySet.Session
import ThreeAddress.Main
import ThreeAddress.Operand
import ThreeAddress.Operator
import ThreeAddress.Options
import ThreeAddress.Options.File
import ThreeAddress.Program.Basic
import ThreeAddress.Program.File
import ThreeAddress.Proofs.Descriptor
import ThreeAddress.Proofs.KeySet
import ThreeAddress.Proofs.Moves
import ThreeAddress.Quad.Basic
import ThreeAddress.Quad.Dump
import ThreeAddress.Quad.Reader
import ThreeAddress.Register
import ThreeAddress.Symbol.Basic
import ThreeAddress.Symbol.Scope
import ThreeAddress.Text.Blank
import ThreeAddress.Text.Column
import ThreeAddress.Text.Decimal
import ThreeAddress.Text.Hex
import ThreeAddress.Text.Integer
import ThreeAddress.Text.Printable
import ThreeAddress.Text.Quoted
import ThreeAddress.Text.Template
import ThreeAddress.Text.Utf8
import ThreeAddress.Toml.Document
import ThreeAddress.Toml.Names
import ThreeAddress.Toml.Text
import ThreeAddress.Toml.Value
import ThreeAddress.Wire
import ThreeAddress.Yaml.Cursor
import ThreeAddress.Yaml.Node
import ThreeAddress.Yaml.Scalar
import ThreeAddress.Yaml.Stream
import ThreeAddress.Yaml.Token
import ThreeAddress.Yaml.Value
import ThreeAddress.Proofs.Allocation
import ThreeAddress.Proofs.Lowering
import ThreeAddress.Proofs.Calls
import ThreeAddress.Proofs.Invariant
import ThreeAddress.Proofs.Homes
import ThreeAddress.Proofs.Machine
import ThreeAddress.Proofs.Agreement
import ThreeAddress.Proofs.Execution
import ThreeAddress.Proofs.Positions
import ThreeAddress.Proofs.Frames
import ThreeAddress.Proofs.Simulation
import ThreeAddress.Proofs.Capacity
import ThreeAddress.Proofs.CallBoundary
import ThreeAddress.Proofs.FrameParts
import ThreeAddress.Proofs.Emission
import ThreeAddress.Proofs.CallScan
import ThreeAddress.Proofs.Discipline
import ThreeAddress.Proofs.Faults
import ThreeAddress.Proofs.Paths
import ThreeAddress.Proofs.Temporaries
import ThreeAddress.Proofs.Reads
import ThreeAddress.Proofs.Sessions
import ThreeAddress.Proofs.Coupling
import ThreeAddress.Proofs.Strictness
import ThreeAddress.Proofs.Separation
import ThreeAddress.Proofs.WriteBack
import ThreeAddress.Proofs.DelaySlots
import ThreeAddress.Proofs.Pairing
import ThreeAddress.Proofs.Renaming
import ThreeAddress.Proofs.Spelling
import ThreeAddress.Proofs.Brackets
import ThreeAddress.Proofs.Pressure
import ThreeAddress.Proofs.Fetching
import ThreeAddress.Proofs.Mentions
import ThreeAddress.Proofs.FlushPolicy
import ThreeAddress.Proofs.Bits
import ThreeAddress.Proofs.Reading
import ThreeAddress.Proofs.References
import ThreeAddress.Proofs.Leniency
import ThreeAddress.Proofs.Survival
import ThreeAddress.Proofs.Choice
import ThreeAddress.Proofs.Endings
import ThreeAddress.Proofs.Elements
import ThreeAddress.Proofs.Denotation
import ThreeAddress.Proofs.Hiding
import ThreeAddress.Proofs.Shadowing
import ThreeAddress.Proofs.Arguments
import ThreeAddress.Proofs.Dumping
import ThreeAddress.Proofs.Insertions
import ThreeAddress.Proofs.Operators
import ThreeAddress.Proofs.Storage
import ThreeAddress.Proofs.Numerals
