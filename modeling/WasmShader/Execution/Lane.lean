import WasmShader.Compile.Executable
import WasmShader.Emit.Abi
import WasmShader.Execution.Datum
import WasmShader.Host.Stack
import WasmShader.Text.Quoted

/-!
# Lanes

A lane is one invocation's part of the buffers: its region of the stack, its io
words and its globals. The stack region is all that has to be kept of a suspended
call, next to the entry point that was called and the number of blocks run so
far.
-/

namespace WasmShader.Execution

open Compile (Entry)

/-- The parts of the buffers that a lane has. -/
inductive Region
  | stack
  | io
  | globals
  deriving DecidableEq, Repr, Inhabited

/-- The region that a buffer name stands for. -/
def Region.ofBuffer? (buffer : String) : Option Region :=
  if buffer = Emit.stackBuffer then some .stack
  else if buffer = Emit.ioBuffer then some .io
  else if buffer = Emit.globalsBuffer then some .globals
  else none

structure Lane where
  index : Nat
  stack : LaneStack
  io : Array UInt32
  globals : Array UInt32
  /-- The entry point of the invocation under way. -/
  entry : Option Entry := none
  /-- The blocks run so far in this invocation. -/
  steps : Nat := 0
  /-- The blocks run and the stack pointer in front of each, last first. -/
  trace : List (BlockId × UInt32) := []
  deriving Inhabited

namespace Lane

def new (x : Compile.Executable) (index : Nat) : Lane :=
  let size := x.globalWords.toNat
  let unset := List.replicate (size - x.globalInit.length) 0
  { index
    stack := .new x.stackWords.toNat
    io := Array.replicate x.ioWords.toNat 0
    globals := (x.globalInit.take size ++ unset).toArray }

/-- The lane waits for the host. -/
def isSuspended (ln : Lane) : Bool := ln.entry.isSome && ln.stack.sp ≠ 0

def words (ln : Lane) : Region → Array UInt32
  | .stack => ln.stack.words
  | .io => ln.io
  | .globals => ln.globals

def setWord (ln : Lane) (r : Region) (i : Nat) (v : UInt32) : Lane :=
  match r with
  | .stack => { ln with stack := ⟨ln.stack.words.setIfInBounds i v⟩ }
  | .io => { ln with io := ln.io.setIfInBounds i v }
  | .globals => { ln with globals := ln.globals.setIfInBounds i v }

/-- Where a lane's part of a buffer starts. The parts of all lanes have one
length, and the lanes follow each other. -/
def base (ln : Lane) (r : Region) : UInt32 := ln.index.toUInt32 * (ln.words r).size.toUInt32

/-- The place in the lane's own region of a word of a buffer. -/
def locate (ln : Lane) (buffer : String) (idx : UInt32) : Except Stop (Region × Nat) :=
  match Region.ofBuffer? buffer with
  | none => .error (.fault ("unknown buffer " ++ Text.quote buffer))
  | some r =>
    let start := ln.base r
    if idx < start || (ln.words r).size.toUInt32 ≤ idx - start then
      .error (.abort (.failed (.invalidInput .runtime
        ("lane " ++ toString ln.index ++ ": " ++ buffer ++ "[" ++ toString idx.toNat
          ++ "] outside its region"))))
    else .ok (r, (idx - start).toNat)

/-- Writes words over the front of an array, as many as fit. -/
def overwrite (target source : Array UInt32) : Array UInt32 :=
  source.extract 0 target.size ++ target.extract source.size target.size

/-- Takes over the state of another lane, with as many words as there is room
for. -/
def restore (ln saved : Lane) : Lane :=
  { ln with
    stack := ⟨overwrite ln.stack.words saved.stack.words⟩
    io := overwrite ln.io saved.io
    globals := overwrite ln.globals saved.globals
    entry := saved.entry
    steps := saved.steps }

end Lane

end WasmShader.Execution
