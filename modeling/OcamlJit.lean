import OcamlJit.Lib.Rust
import OcamlJit.Instructions.Opcode
import OcamlJit.Instructions.Types
import OcamlJit.Instructions.Parse
import OcamlJit.Instructions.ClosureScan
import OcamlJit.Instructions.Decode
import OcamlJit.Instructions.ScanAgree
import OcamlJit.BasicBlocks.Types
import OcamlJit.BasicBlocks.Conversion
import OcamlJit.BasicBlocks.Search
import OcamlJit.BasicBlocks.ControlFlow
import OcamlJit.BasicBlocks.Termination
import OcamlJit.BasicBlocks.Reach
import OcamlJit.BasicBlocks.BlockStarts
import OcamlJit.BasicBlocks.SearchRule
import OcamlJit.BasicBlocks.Acceptance
import OcamlJit.Lib.Checks
import OcamlJit.BasicBlocks.SearchOrder
import OcamlJit.BasicBlocks.StackSizes
import OcamlJit.Lib.Effects
import OcamlJit.Lib.BigEndian
import OcamlJit.Lib.Transition
import OcamlJit.Lib.Tagged
import OcamlJit.Lib.Flags
import OcamlJit.Lib.DepthFirst
import OcamlJit.Lib.Worklist
import OcamlJit.Interp.Values
import OcamlJit.Interp.Machine
import OcamlJit.Interp.Linear
import OcamlJit.Interp.OcamlInts
import OcamlJit.BasicBlocks.Machine
import OcamlJit.BasicBlocks.Simulation
import OcamlJit.Cranelift.Ir
import OcamlJit.Cranelift.Translate
import OcamlJit.Cranelift.Emits
import OcamlJit.Cranelift.StackDepth
import OcamlJit.Cranelift.Reference
import OcamlJit.Cranelift.Words
import OcamlJit.Cranelift.Logic
import OcamlJit.Cranelift.Instructions
import OcamlJit.Cranelift.Applications
import OcamlJit.Cranelift.Simulation
import OcamlJit.Cranelift.Succeeds
import OcamlJit.Baseline.Closures
import OcamlJit.Baseline.HotClosures
import OcamlJit.Baseline.Sections
import OcamlJit.Baseline.Assembly
import OcamlJit.Baseline.EmitInstruction
import OcamlJit.Baseline.Arithmetic
import OcamlJit.Baseline.Indexing
import OcamlJit.Baseline.MakeBlock
import OcamlJit.Baseline.Switch
import OcamlJit.Interp.ClosureLayout
import OcamlJit.Cranelift.Closures
import OcamlJit.BasicBlocks.Sealing
import OcamlJit.Cranelift.Sealing
import OcamlJit.CleverDis.Parsing
import OcamlJit.CleverDis.Scan
import OcamlJit.CleverDis.Walk
import OcamlJit.CleverDis.Ssa
import OcamlJit.CleverDis.SsaTranslate
import OcamlJit.CleverDis.SsaMachine
import OcamlJit.CleverDis.SsaBlocks
import OcamlJit.CleverDis.SsaOrder
import OcamlJit.CleverDis.SsaAgree
import OcamlJit.Lib.Propagation
import OcamlJit.CleverDis.SsaUses
import OcamlJit.Marshal.Extern
import OcamlJit.Marshal.MlData
import OcamlJit.Marshal.Traversal
import OcamlJit.Marshal.Loop
import OcamlJit.Marshal.Graph
import OcamlJit.Marshal.Items
import OcamlJit.Marshal.Sync
import OcamlJit.Marshal.RoundTrip
import OcamlJit.Marshal.Trees
import OcamlJit.Marshal.Sharing
import OcamlJit.Marshal.Numbers
import OcamlJit.Lib.BinarySearch
import OcamlJit.Interp.DynMet
import OcamlJit.CleverDis.SsaStack
import OcamlJit.Marshal.Recursive
import OcamlJit.Lib.Logged
import OcamlJit.BasicBlocks.Scans
import OcamlJit.Traces.Compare
import OcamlJit.Lib.Readers
import OcamlJit.BytecodeFiles.Trailer
import OcamlJit.Marshal.SmallInts
import OcamlJit.Lib.Walk
import OcamlJit.BytecodeFiles.SymbolTable
import OcamlJit.BytecodeFiles.DebugEvents
import OcamlJit.BytecodeFiles.Cycles
import OcamlJit.Lib.Buckets
import OcamlJit.Typing.IdentTable
import OcamlJit.BytecodeFiles.EnvTable
import OcamlJit.Bytecode.Registers
import OcamlJit.Bytecode.Cases
import OcamlJit.Bytecode.Interpreter
import OcamlJit.Bytecode.CodeLayout
import OcamlJit.Bytecode.DecoderAgrees
import OcamlJit.Bytecode.Runs
import OcamlJit.Lib.Along
import OcamlJit.Lib.Across
import OcamlJit.Bytecode.MachineAgrees
import OcamlJit.Bytecode.ActivationRuns
import OcamlJit.CleverDis.SsaWords
import OcamlJit.CleverDis.SsaWordRuns
import OcamlJit.Lib.Backpatch
import OcamlJit.Bytecomp.Instruct
import OcamlJit.Bytecomp.Emitcode
import OcamlJit.Bytecomp.Emitted
import OcamlJit.Bytecomp.Objects
import OcamlJit.Bytecomp.Decoded
import OcamlJit.Bytecomp.Symtable
import OcamlJit.Bytecomp.Bytelink
import OcamlJit.Bytecomp.Program
import OcamlJit.Bytecode.Fusion
import OcamlJit.Bytecomp.Operands
import OcamlJit.Bytecomp.Peephole
