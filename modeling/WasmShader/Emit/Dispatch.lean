import WasmShader.Emit.Block
import WasmShader.Emit.Direct

/-!
# The dispatcher and the entry points

The dispatcher runs the block whose number is on top of the lane's stack, again
and again, until the stack is empty, the number on top is that of a host
function, or a trap is recorded. Entry points set up the lane's regions, and
either call a direct form or push a first frame and start the dispatcher.
-/

namespace WasmShader.Emit

open Shader

def dispatcherName : String := "brain"
def setupName : String := "setup"
def resumeName : String := "resume"
def emptyEntryName : String := "dud"

/-- The label of the dispatcher's loop and the variable with the block number. -/
def dispatchLabel : String := "dispatch"
def numberVar : String := "bid"

/-- The words each lane has in the buffers. -/
structure LaneWords where
  stack : UInt32
  io : UInt32
  globals : UInt32
  deriving DecidableEq, Repr, Inhabited

/-- Calls a function without arguments and results. -/
def callOnly (name : String) : Stmt := .call name [] []

/-- The function that computes where the lane's regions start. -/
def setupFunction (w : LaneWords) : Shader.Function :=
  let start (n : UInt32) : Expr := .binary .mul .laneIndex (.u32 n)
  let header := LaneStack.headerWords.toUInt32
  { name := setupName
    body :=
      [.assign headerBase (start (header + w.stack)),
       .assign dataBase (offset (.var headerBase) header),
       .assign ioBase (start w.io),
       .assign globalBase (start w.globals)] }

def trapPlace : Expr := offset (.var headerBase) LaneStack.trapWord.toUInt32

/-- Leaves the dispatcher's loop. -/
def stopIf (cond : Expr) : Stmt := .ifElse cond [.leave dispatchLabel] []

/-- The dispatcher of blocks, each with the name of its function. -/
def dispatcher (blocks : List (BlockId × String)) : Shader.Function :=
  let cases := blocks.map fun (id, name) => Case.mk [id.val] [callOnly name]
  { name := dispatcherName
    locals := [⟨spVar, .u32⟩, ⟨numberVar, .u32⟩]
    body :=
      [.loop dispatchLabel
        [stopIf (Expr.isNonzero (.load stackBuffer trapPlace)),
         readSp,
         stopIf (.binary .eq (.var spVar) (.u32 0)),
         .assign numberVar (.load stackBuffer (dataAt 0xffffffff)),
         stopIf (.binary .ge (.var numberVar) (.u32 BlockId.hostBit)),
         .switch (.var numberVar) cases (trapStmts .invalidBlock)]] }

/-- Starts an entry point: finds the regions and clears the header. -/
def entryStart : List Stmt :=
  [callOnly setupName,
   .store stackBuffer (.var headerBase) (.u32 0),
   .store stackBuffer trapPlace (.u32 0)]

/-- The arguments of a call, read from the io words. -/
def ioArgs (l : Layout) (params : List ValueType) : List (ValueType × Expr) :=
  (params.zip (l.offsetsFrom 0 params)).map fun (t, off) =>
    (t, loadValue l ioBuffer (baseWord ioBase off) t)

/-- The entry point that runs a function through the dispatcher. -/
def machineEntry (l : Layout) (name : String) (sig : Signature) (first exit : BlockId)
    (stackWords : UInt32) : Shader.Function :=
  let below := (Push.reserve {} (l.sizeOf sig.results)).blockId exit
  let frame := (ioArgs l sig.params).foldl (fun p (t, x) => p.value l x t) below
  { name
    locals := [⟨spVar, .u32⟩]
    body :=
      entryStart ++ [.assign spVar (.u32 0)] ++ (frame.blockId first).finish stackWords
        ++ [writeSp, callOnly dispatcherName] }

/-- The block that a function run through the dispatcher comes back to: it copies
the results to the io words and leaves the stack empty. -/
def exitBlock (l : Layout) (name : String) (results : List ValueType) : Shader.Function :=
  let n := l.sizeOf results
  let copies := (List.range n).map fun k =>
    Stmt.store ioBuffer (baseWord ioBase 0 k) (.load stackBuffer (dataWord 0 k))
  { name
    locals := [⟨spVar, .u32⟩]
    body := [readSp, lowerSp (n + 1)] ++ copies ++ [writeSp] }

def resultName (i : Nat) : String := "r" ++ toString i

/-- The entry point that calls a direct form. -/
def directEntry (l : Layout) (name callee : String) (sig : Signature) : Shader.Function :=
  let places := sig.results.zip (l.offsetsFrom 0 sig.results)
  let stores := places.mapIdx fun i (t, off) =>
    storeValue l ioBuffer (baseWord ioBase off) (.var (resultName i)) t
  { name
    locals := sig.results.mapIdx fun i t => ⟨resultName i, Ty.carrier l t⟩
    body :=
      entryStart
        ++ [.call callee ((ioArgs l sig.params).map (·.2))
          (sig.results.mapIdx fun i _ => resultName i)]
        ++ stores.flatten }

def resumeEntry : Shader.Function :=
  { name := resumeName, body := [callOnly setupName, callOnly dispatcherName] }

/-- The entry point of a module with nothing to run. -/
def emptyEntry : Shader.Function := { name := emptyEntryName }

end WasmShader.Emit
