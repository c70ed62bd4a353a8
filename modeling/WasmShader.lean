import WasmShader.Binary.Instr
import WasmShader.Binary.Leb128
import WasmShader.Binary.Module
import WasmShader.Binary.Opcode
import WasmShader.Binary.Reader
import WasmShader.Binary.Writer
import WasmShader.CallGraph.Analysis
import WasmShader.CallGraph.Basic
import WasmShader.CallGraph.Components
import WasmShader.CallGraph.Condensation
import WasmShader.Compile.Basic
import WasmShader.Compile.Config
import WasmShader.Compile.Executable
import WasmShader.Emit.Abi
import WasmShader.Emit.Block
import WasmShader.Emit.Body
import WasmShader.Emit.Direct
import WasmShader.Emit.Dispatch
import WasmShader.Emit.Emitter
import WasmShader.Emit.Numeric
import WasmShader.Execution.Datum
import WasmShader.Execution.Eval
import WasmShader.Execution.Exec
import WasmShader.Execution.Executor
import WasmShader.Execution.Intrinsic
import WasmShader.Execution.Invocation
import WasmShader.Execution.Lane
import WasmShader.Execution.Operator
import WasmShader.Failure
import WasmShader.Host.BlockId
import WasmShader.Host.Stack
import WasmShader.Host.Table
import WasmShader.Host.Trap
import WasmShader.Machine.BitSet
import WasmShader.Machine.Block
import WasmShader.Machine.Frame
import WasmShader.Machine.Liveness
import WasmShader.Machine.Split
import WasmShader.Main
import WasmShader.Program.Basic
import WasmShader.Program.Body
import WasmShader.Program.Check
import WasmShader.Program.Effect
import WasmShader.Program.OfModule
import WasmShader.Program.Symbol
import WasmShader.Proofs.BodyCode
import WasmShader.Proofs.CallOrder
import WasmShader.Proofs.Carrier
import WasmShader.Proofs.DirectForm
import WasmShader.Proofs.EmitterRuns
import WasmShader.Proofs.EvalTyping
import WasmShader.Proofs.FormedProgram
import WasmShader.Proofs.GlobalWords
import WasmShader.Proofs.InstrCode
import WasmShader.Proofs.Meaning
import WasmShader.Proofs.NumericCode
import WasmShader.Proofs.Partiality
import WasmShader.Proofs.Reference
import WasmShader.Proofs.ShaderTyping
import WasmShader.Proofs.Structured
import WasmShader.Proofs.Typing
import WasmShader.Proofs.Variables
import WasmShader.Proofs.WordCode
import WasmShader.Proofs.WorkState
import WasmShader.Session.Args
import WasmShader.Session.CommandLine
import WasmShader.Session.Compare
import WasmShader.Session.Field
import WasmShader.Session.Interactive
import WasmShader.Session.Report
import WasmShader.Session.Run
import WasmShader.Shader.Expr
import WasmShader.Shader.Module
import WasmShader.Shader.Printer
import WasmShader.Shader.Stmt
import WasmShader.Shader.Ty
import WasmShader.Text.Blank
import WasmShader.Text.Digit
import WasmShader.Text.Hex
import WasmShader.Text.Integer
import WasmShader.Text.Place
import WasmShader.Text.Printable
import WasmShader.Text.Quoted
import WasmShader.Text.Real
import WasmShader.Text.Shortest
import WasmShader.Text.Template
import WasmShader.Text.Utf8
import WasmShader.Value.Basic
import WasmShader.Value.Bits
import WasmShader.Value.FloatFormat
import WasmShader.Value.Layout
import WasmShader.Value.Rounding
import WasmShader.Value.Triple
import WasmShader.Value.Type
import WasmShader.Value.WordPair
import WasmShader.Proofs.BlockCode
import WasmShader.Proofs.BlockRun
import WasmShader.Proofs.SplitTyping
import WasmShader.Proofs.TreeCode
import WasmShader.Proofs.SplitWalk
import WasmShader.Proofs.Closure
import WasmShader.Proofs.Splitting
import WasmShader.Proofs.LiveLocals
import WasmShader.Proofs.FrameLayout
import WasmShader.Proofs.FramePassing
import WasmShader.Proofs.HostAnswer
import WasmShader.Proofs.CallComponents
import WasmShader.Proofs.ComponentSearch
import WasmShader.Proofs.ComponentOrder
import WasmShader.Proofs.DirectSafety
import WasmShader.Proofs.RecursionGroups
import WasmShader.Proofs.TypedEmission
import WasmShader.Proofs.LaneCode
import WasmShader.Proofs.ModulePlan
import WasmShader.Proofs.ModuleCode
import WasmShader.Proofs.LegalModule
import WasmShader.Proofs.EmittedCalls
import WasmShader.Proofs.CompiledModule
import WasmShader.Proofs.PushedNumbers
import WasmShader.Proofs.BlockNumbers
import WasmShader.Proofs.VariantDecisions
import WasmShader.Proofs.Coverage
import WasmShader.Proofs.EntryNames
import WasmShader.Proofs.DeclaredTypes
import WasmShader.Proofs.MachineForm
import WasmShader.Proofs.MachineRun
import WasmShader.Proofs.TreeRun
import WasmShader.Proofs.SplitMeaning
import WasmShader.Proofs.Codec
import WasmShader.Proofs.ModuleCodec
import WasmShader.Proofs.CanonicalForm
import WasmShader.Proofs.AddressSpace
import WasmShader.Proofs.Answers
import WasmShader.Proofs.Lockstep
import WasmShader.Proofs.RunnableModule
import WasmShader.Proofs.Invocations
import WasmShader.Proofs.Polling
import WasmShader.Proofs.Yield
import WasmShader.Proofs.Suspension
import WasmShader.Proofs.Isolation
import WasmShader.Proofs.LivePaths
import WasmShader.Proofs.DeadLocals
import WasmShader.Proofs.IntegerMeaning
import WasmShader.Proofs.IntegerCode
import WasmShader.Proofs.Abreast
import WasmShader.Proofs.DispatchAbreast
import WasmShader.Proofs.InstructionCodec
import WasmShader.Proofs.Nesting
import WasmShader.Proofs.StackTyping
import WasmShader.Proofs.Watching
import WasmShader.Proofs.StepLimit
import WasmShader.Proofs.FrameTurns
import WasmShader.Proofs.FrameWords
import WasmShader.Proofs.SharedFrames
import WasmShader.Proofs.StackFree
import WasmShader.Proofs.EntriesAbreast
import WasmShader.Proofs.LanesInStep
import WasmShader.Proofs.Reuse
import WasmShader.Proofs.NumberReaders
import WasmShader.Proofs.LayoutAgreement
import WasmShader.Proofs.CallNesting
import WasmShader.Proofs.Returnless
import WasmShader.Proofs.FramePiles
import WasmShader.Proofs.StackTurns
import WasmShader.Proofs.StackStages
import WasmShader.Proofs.StackEntries
import WasmShader.Proofs.StackDiscipline
import WasmShader.Proofs.FiniteSets
import WasmShader.Proofs.AddressArithmetic
import WasmShader.Proofs.CallStack
import WasmShader.Proofs.CompiledCalls
import WasmShader.Proofs.HostMemory
import WasmShader.Proofs.CompiledSetting
import WasmShader.Proofs.SituationWords
import WasmShader.Proofs.Pauses
import WasmShader.Proofs.DispatcherTurns
import WasmShader.Proofs.DispatcherRuns
import WasmShader.Proofs.FirstFrame
import WasmShader.Proofs.EntryRuns
import WasmShader.Proofs.RunMeanings
import WasmShader.Proofs.SettledLanes
import WasmShader.Proofs.ServedRuns
import WasmShader.Proofs.RegionSizes
import WasmShader.Proofs.CallSemantics
import WasmShader.Proofs.Limits
import WasmShader.Proofs.DirectEntries
import WasmShader.Proofs.LaneAnswers
import WasmShader.Proofs.Sessions
