import WasmShader.Compile.Executable
import WasmShader.Emit.Dispatch
import WasmShader.Machine.Frame
import WasmShader.Machine.Split
import WasmShader.Program.Check
import WasmShader.Program.OfModule
import WasmShader.Binary.Reader
import WasmShader.Text.Quoted

/-!
# Compilation

`compile` checks every function, splits those that need the stack machine into
blocks, numbers the blocks, and emits one shader module: the direct form of every
function, the function of every block, the dispatcher and the entry points, each
behind what it calls.
-/

namespace WasmShader.Compile

open Emit

/-! ## Functions left out -/

/-- A function that is checked, or why it is left out. -/
def checkFunction (c : Config) (p : Program) (f : Function) :
    Except Abort (Option (Nat × Failure)) :=
  match p.check f with
  | .ok _ => .ok none
  | .error (.failed e) =>
    if e.isUnsupported && c.skipUnsupported then .ok (some (f.index, e)) else .error (.failed e)
  | .error e => .error e

/-- The functions that themselves use something unsupported. -/
def unsupportedFunctions (c : Config) (p : Program) : Except Abort (List (Nat × Failure)) := do
  return (← p.funcs.mapM (checkFunction c p)).filterMap id

/-- Why a function is left out that calls one that is. -/
def callsSkipped (p : Program) (fn : Nat) : Failure :=
  .unsupported .analyze (((p.func? fn).map (·.name)).getD "") "calls a skipped function"

/-- The functions left out: those with something unsupported, and those that can
reach one by calls. -/
def skippedFunctions (g : CallGraph) (unsupported : List (Nat × Failure)) : List (Nat × Failure) :=
  (g.transitiveCallers (unsupported.map (·.1))).map fun fn =>
    (fn, (unsupported.lookup fn).getD (callsSkipped g.program fn))

/-! ## Machines and their numbers -/

def funcAt (p : Program) (fn : Nat) : Except Abort Function :=
  match p.func? fn with
  | some f => .ok f
  | none => .error .outOfBounds

/-- Splits functions into blocks and lays out their frames. -/
def buildFrames (c : Config) (p : Program) (a : Analysis) :
    HostTable → List Nat → Except Abort (List Frames × HostTable)
  | hosts, [] => return ([], hosts)
  | hosts, fn :: rest => do
    let (m, hosts) ← Machine.split p a hosts (← funcAt p fn)
    let fr ← Frames.build m c.layout c.stackWords.toNat
    let (frs, hosts) ← buildFrames c p a hosts rest
    return (fr :: frs, hosts)

/-- Computations that number blocks. -/
abbrev Numbering := StateT Allocator (Except Abort)

def takeNumber : Numbering BlockId := fun a => liftFailure a.take

def numberBlock (fr : Frames) (b : Block) : Numbering BlockInfo := do
  let id ← takeNumber
  let payload ← entry fr.payloads b.index
  return { id, name := blockName id, func := fr.machine.func.index, index := some b.index
           term := b.term.kindName, payload := payload.types, frameWords := payload.frameWords }

def numberMachine (fr : Frames) : Numbering (List BlockInfo) :=
  fr.machine.blocks.mapM (numberBlock fr)

def numberExit (l : Layout) (f : Function) : Numbering BlockInfo := do
  let id ← takeNumber
  return { id, name := blockName id, func := f.index, term := "exit"
           payload := f.type.results, frameWords := (← l.size f.type.results) + 1 }

/-! ## Entry points -/

/-- A character that a name in the shader can have. -/
def isNameChar (c : Char) : Bool := c.isAlphanum || c = '_'

def entryName (symbol : Symbol) : String :=
  "entry_" ++ String.ofList (symbol.text.toList.map fun c => if isNameChar c then c else '_')

/-- A function with the exports to make entry points for. -/
structure Exported where
  func : Function
  symbols : List Symbol
  exit : Option BlockInfo

/-- Numbers the exit block of a function that gets one. -/
def exportFunction (c : Config) (a : Analysis) (f : Function) : Numbering Exported := do
  let symbols := f.exports.filter c.wants
  if symbols.isEmpty || !a.needsMachine f.index then return ⟨f, symbols, none⟩
  else return ⟨f, symbols, some (← numberExit c.layout f)⟩

def Exported.entries (x : Exported) : List Entry :=
  x.symbols.map fun symbol =>
    ⟨symbol, entryName symbol, x.func.type, x.func.index, x.exit.map (·.id)⟩

/-- The last entry point for each export, sorted by symbol. -/
def sortEntries (entries : List Entry) : List Entry :=
  (entries.foldr (fun e later =>
    if later.any (·.symbol == e.symbol) then later else e :: later) []).mergeSort
    fun a b => a.symbol.isBefore b.symbol

/-- The words that the arguments and the results of entry points need. -/
def ioWords (l : Layout) (entries : List Entry) : Nat :=
  entries.foldl (fun n e => max n (max (l.sizeOf e.sig.params) (l.sizeOf e.sig.results))) 0

/-- Every export asked for has an entry point. -/
def requireExports (c : Config) (entries : List Entry) : Except Failure Unit :=
  match c.exports.find? fun name => !entries.any (·.symbol == .ofText name) with
  | none => .ok ()
  | some name => .error (.notFound .emit "export" (Text.quote name))

/-! ## The shader module -/

/-- Everything that is known before code is emitted. -/
structure Plan where
  context : Context
  config : Config
  skipped : List Nat
  frames : List Frames
  machines : List (List BlockInfo)
  exported : List Exported
  entries : List Entry
  lane : LaneWords

namespace Plan

/-- The numbers of the blocks of each machine. -/
def ids (plan : Plan) : BlockNumbers :=
  (plan.frames.zip plan.machines).map fun (fr, infos) => (fr.machine.func.index, infos.map (·.id))

def exits (plan : Plan) : List BlockInfo := plan.exported.filterMap (·.exit)

/-- The blocks in the order of their numbers. -/
def blocks (plan : Plan) : List BlockInfo := plan.machines.flatten ++ plan.exits

/-- The direct forms of the functions, callees first. -/
def directFunctions (plan : Plan) : Except Abort (List Shader.Function) :=
  (plan.context.analysis.order.filter fun fn => !plan.skipped.contains fn).mapM fun fn => do
    directFunction plan.context (← funcAt plan.context.program fn)

def machineFunctions (plan : Plan) (fr : Frames) : Except Abort (List Shader.Function) :=
  let bc : BlockContext := { plan.context with frames := fr, ids := plan.ids }
  fr.machine.blocks.mapM bc.blockFunction

def entryFunction (plan : Plan) (e : Entry) : Except Abort Shader.Function := do
  let l := plan.context.layout
  Layout.requireKnown (e.sig.params ++ e.sig.results)
  match e.exit with
  | none => return directEntry l e.shader (directName e.func) e.sig
  | some exit =>
    let first ← plan.ids.get e.func 0
    return machineEntry l e.shader e.sig first exit plan.context.stackWords

def exitFunction (plan : Plan) (b : BlockInfo) : Except Abort Shader.Function := do
  Layout.requireKnown b.payload
  return exitBlock plan.context.layout b.name b.payload

/-- The functions behind those for the exports: one to go on with suspended lanes
if there are machines, and one that does nothing if there is nothing to run. -/
def otherEntries (plan : Plan) : List Shader.Function :=
  if !plan.frames.isEmpty then [resumeEntry]
  else if plan.entries.isEmpty then [emptyEntry] else []

def module (plan : Plan) : Except Abort Shader.Module := do
  let direct ← plan.directFunctions
  let machine ← plan.frames.mapM plan.machineFunctions
  let exits ← plan.exits.mapM plan.exitFunction
  let fixed := [setupFunction plan.lane, dispatcher (plan.blocks.map fun b => (b.id, b.name))]
  let entries := (← plan.entries.mapM plan.entryFunction) ++ plan.otherEntries
  return {
    buffers := Emit.buffers
    privates := Emit.privates
    functions := numericFunctions ++ direct ++ machine.flatten ++ exits ++ fixed ++ entries
    entryPoints := entries.map fun f => ⟨f.name, f.name, plan.config.workgroup⟩ }

end Plan

/-! ## The whole -/

/-- Numbers all blocks: those of the machines, then the exit blocks. -/
def numberAll (c : Config) (a : Analysis) (frames : List Frames) (funcs : List Function) :
    Except Abort (List (List BlockInfo) × List Exported) := do
  let (machines, alloc) ← (frames.mapM numberMachine).run (Allocator.new c.maxBlocks)
  let (exported, _) ← (funcs.mapM (exportFunction c a)).run alloc
  return (machines, exported)

/-- Plans the module of a program. The settings are complete. -/
def plan (c : Config) (p : Program) (a : Analysis) (skipped : List Nat) :
    Except Abort (Plan × HostTable) := do
  let isKept (fn : Nat) : Bool := !skipped.contains fn
  let (frames, hosts) ← buildFrames c p a { layout := c.layout } (a.machineSet.filter isKept)
  let kept := p.funcs.filter fun f => isKept f.index
  let (machines, exported) ← numberAll c a frames kept
  let all := exported.flatMap Exported.entries
  Layout.requireKnown (all.flatMap fun e => e.sig.params ++ e.sig.results)
  liftFailure (requireExports c all)
  Layout.requireKnown ((p.globals.filter (·.isMutable)).flatMap fun g => [g.type, g.init.type])
  let globals := GlobalLayout.ofProgram p c.layout
  return ({
    context := ⟨p, a, c.layout, globals, c.stackWords⟩
    config := c, skipped, frames, machines, exported
    entries := sortEntries all
    lane := ⟨c.stackWords, (ioWords c.layout all).toUInt32, globals.words.toUInt32⟩ }, hosts)

def compile (config : Config) (p : Program) : Except Abort Compiled := do
  let c := config.withDefaults
  let unsupported ← unsupportedFunctions c p
  let g ← liftFailure (CallGraph.build p)
  let a ← g.analysis
  let skipped := skippedFunctions g unsupported
  let (plan, hosts) ← plan c p a (skipped.map (·.1))
  let module ← plan.module
  match module.validate with
  | .error e => Failure.raise (.wrap .emit .malformed e "emitted module")
  | .ok _ =>
    return {
      module, hosts, layout := c.layout
      entries := plan.entries
      blocks := plan.blocks
      stackWords := c.stackWords
      ioWords := plan.lane.io
      globalWords := plan.lane.globals
      globalInit := plan.context.globals.init
      config := c, program := p, analysis := a
      machines := plan.ids
      skipped }

def readProgram (data : Bytes) : Except Abort Program := do
  match Binary.Module.parse data with
  | .error e => Failure.raise (.parseFailed "module" e)
  | .ok m => Program.ofModule m

def compileBinary (config : Config) (data : Bytes) : Except Abort Compiled := do
  compile config (← readProgram data)

end WasmShader.Compile
