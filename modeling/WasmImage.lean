import WasmImage.Binary.Cursor
import WasmImage.Binary.Leb128
import WasmImage.Binary.Writer
import WasmImage.Command
import WasmImage.Command.Directory
import WasmImage.Command.Flags
import WasmImage.Command.Loaded
import WasmImage.Command.Summary
import WasmImage.Engine.Code
import WasmImage.Engine.Decode
import WasmImage.Engine.Instance
import WasmImage.Engine.Instantiate
import WasmImage.Engine.Module
import WasmImage.Engine.Numeric
import WasmImage.Engine.Opcode
import WasmImage.Engine.Operands
import WasmImage.Engine.Run
import WasmImage.Engine.Scan
import WasmImage.Engine.Validate
import WasmImage.Engine.Vector
import WasmImage.Fault
import WasmImage.Hook
import WasmImage.Image.Basic
import WasmImage.Image.Build
import WasmImage.Image.Memory
import WasmImage.Image.Value
import WasmImage.Log
import WasmImage.Main
import WasmImage.Proofs.Build
import WasmImage.Proofs.Entries
import WasmImage.Proofs.Leb128
import WasmImage.Proofs.Loops
import WasmImage.Proofs.LowerLocals
import WasmImage.Proofs.LowerSteps
import WasmImage.Proofs.Memory
import WasmImage.Proofs.Overlay
import WasmImage.Proofs.Reading
import WasmImage.Proofs.Regroup
import WasmImage.Proofs.Resolution
import WasmImage.Proofs.Rewrite
import WasmImage.Proofs.RoundTrip
import WasmImage.Proofs.Sections
import WasmImage.Proofs.Segments
import WasmImage.Proofs.WriteBack
import WasmImage.Proofs.Writing
import WasmImage.Ssa.Basic
import WasmImage.Ssa.Check
import WasmImage.Ssa.Effect
import WasmImage.Ssa.Lower
import WasmImage.Ssa.Text
import WasmImage.Text.Hex
import WasmImage.Text.Printable
import WasmImage.Text.Quote
import WasmImage.Text.Shortest
import WasmImage.Verify
import WasmImage.View.Basic
import WasmImage.View.Constant
import WasmImage.View.Encode
import WasmImage.View.Lookup
import WasmImage.View.Resolve
import WasmImage.Wasm.ConstExpr
import WasmImage.Wasm.Decode
import WasmImage.Wasm.Encode
import WasmImage.Wasm.Instr
import WasmImage.Wasm.Module
import WasmImage.Wasm.Types
import WasmImage.Proofs.LowerBlocks
import WasmImage.Proofs.Tables
import WasmImage.Proofs.ConstExpr
import WasmImage.Proofs.Constants
import WasmImage.Proofs.Leb128Groups
import WasmImage.Proofs.Globals
import WasmImage.Proofs.Strings
import WasmImage.Proofs.Roles
import WasmImage.Proofs.Hooks
import WasmImage.Proofs.MemoryCompare
import WasmImage.Proofs.LowerNesting
import WasmImage.Proofs.InstrDecoding
import WasmImage.Proofs.LowerLookup
import WasmImage.Proofs.LowerRanking
import WasmImage.Proofs.Instantiation
import WasmImage.Proofs.InitialState
import WasmImage.Proofs.LowerInvariant
