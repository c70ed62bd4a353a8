import WasmShader.Execution.Executor
import WasmShader.Session.Args
import WasmShader.Session.Report
import WasmShader.Shader.Printer

/-!
# Running from the command line

A session compiles a module, lists its entry points, and on request reports on
it, prints its shader text and calls an export.
-/

namespace WasmShader.Session

open Compile Execution Text

/-- What the command line asks for. -/
structure Options where
  /-- The file of the module. -/
  file : String
  /-- The exports to compile, apart by commas; all if empty. -/
  exports : String := ""
  /-- The export to call; none if empty. -/
  call : String := ""
  args : String := ""
  stackWords : UInt32 := 65536
  maxSteps : Nat := 0
  dump : Bool := false
  report : Bool := false
  nativeF64 : Bool := false
  skip : Bool := false
  /-- Requests to the host are answered with zeros. -/
  hostZero : Bool := false
  deriving Repr, Inhabited

namespace Options

def config (o : Options) : Config :=
  { stackWords := o.stackWords
    nativeF64 := o.nativeF64
    skipUnsupported := o.skip
    exports := if o.exports = "" then [] else (fields o.exports.toList).map String.ofList }

/-- A host that answers every request with zeros, or refuses it. -/
def host (o : Options) : Host Unit where
  call _ _ func _ :=
    if o.hostZero then (.ok (func.results.map .zero), ())
    else (.error (.plain ("no host binding for " ++ func.name ++ " (use -host-zero)")), ())

def settings (o : Options) (tracing : Bool) : Settings :=
  { lanes := 1, maxSteps := o.maxSteps, tracing }

end Options

/-- Notes in front of a failure what was being done. -/
def noting (note : String) (r : Except Abort α) : Except Abort α :=
  r.mapError fun
    | .failed e => .failed (.noted note e)
    | e => e

/-- Compiles the module in a file whose content, or why it cannot be read, is
given. -/
def load (o : Options) (data : Except Failure Bytes) : Except Abort Compiled := do
  let bytes ← noting "read file" (liftFailure data)
  noting "compile" (compileBinary o.config bytes)

/-- An invocation on a single lane, with the blocks it ran in order. -/
def callExport (o : Options) (c : Compiled) (symbol : Symbol) (args : List Value) (tracing : Bool) :
    Except Abort (List Value) × List BlockId :=
  match Executor.new (some c.toExecutable) (o.settings tracing) with
  | .error e => (Failure.raise e, [])
  | .ok x =>
    match x.run (some o.host) false 0 symbol args () with
    | none => (Failure.raise (.plain "the call did not end"), [])
    | some (r, x, _) =>
      (r, x.lanes.flatMap fun ln => (ln.trace.map (·.1)).reverse)

/-- Computations that print, and may end badly. -/
abbrev Printing := ExceptT Abort (StateM String)

def print (s : String) : Printing Unit := modify (· ++ s)

/-- The lines of the functions left out, in the order of their texts. -/
def skippedLines (c : Compiled) : List String :=
  (c.skipped.map fun (fn, e) =>
    "  " ++ shown ("skipped func " ++ toString fn ++ ": " ++ e.message)).mergeSort (· ≤ ·)

/-- What is said of every module. -/
def summary (o : Options) (c : Compiled) : String :=
  "Module: " ++ o.file ++ "\n"
    ++ "Functions: " ++ toString c.program.funcs.length
    ++ ", recursion groups: " ++ toString c.analysis.groups.length
    ++ ", machines: " ++ toString c.machines.length
    ++ ", blocks: " ++ toString c.blocks.length ++ "\n"
    ++ "\nEntry points:\n"
    ++ unlines ((c.entries.map fun e => "  " ++ entryLine e) ++ skippedLines c)

/-- Calls the export that the options name. -/
def runCall (o : Options) (c : Compiled) : Printing Unit := do
  match c.entryFor? o.call with
  | none => throw (.failed (.plain ("export " ++ quote o.call ++ " has no entry point")))
  | some e =>
    let args ← liftExcept (liftFailure (readArgs o.args e.sig.params))
    print ("\nCalling " ++ o.call ++ "(" ++ Value.listText args ++ ")...\n")
    let values ← liftExcept (noting ("call " ++ o.call) (callExport o c o.call args false).1)
    print ("Result: " ++ shown (Value.listText values) ++ "\n")
where
  liftExcept {α : Type} (r : Except Abort α) : Printing α :=
    match r with
    | .ok v => return v
    | .error e => throw e

def session (o : Options) (data : Except Failure Bytes) : Printing Unit := do
  match load o data with
  | .error e => throw e
  | .ok c =>
    print (summary o c)
    if o.report then print ("\n" ++ Session.report c)
    if o.dump then
      match c.module.text with
      | .ok text => print ("\n" ++ text)
      | .error e => throw e
    if o.call ≠ "" then runCall o c

/-- Runs a session: how it ends and what it prints. -/
def run (o : Options) (data : Except Failure Bytes) : Except Abort Unit × String :=
  (session o data).run.run ""

end WasmShader.Session
