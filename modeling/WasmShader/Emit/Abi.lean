import WasmShader.Host.Stack
import WasmShader.Machine.Frame
import WasmShader.Shader.Module

/-!
# Frame code

The shader code that moves frames: where the buffers and the bases of a lane's
regions are, how values are read from and written to words, and how a frame is
pushed and popped. The stack pointer is kept in a local variable while a function
runs and written back to the lane's header at its end.
-/

namespace WasmShader.Emit

open Shader

/-! ## Names -/

def stackBuffer : String := "stack"
def ioBuffer : String := "io"
def globalsBuffer : String := "globals"

/-- The bases of the lane's header, data words, io words and globals. -/
def headerBase : String := "hbase"
def dataBase : String := "sbase"
def ioBase : String := "iobase"
def globalBase : String := "gbase"

/-- The local variable that holds the stack pointer. -/
def spVar : String := "sp"

def buffers : List Buffer := [⟨stackBuffer, 0⟩, ⟨ioBuffer, 1⟩, ⟨globalsBuffer, 2⟩]

def privates : List Variable :=
  [⟨headerBase, .u32⟩, ⟨dataBase, .u32⟩, ⟨ioBase, .u32⟩, ⟨globalBase, .u32⟩]

/-! ## Addresses -/

/-- A place a number of words behind a base. -/
def offset (base : Expr) (off : UInt32) : Expr :=
  if off = 0 then base else .binary .add base (.u32 off)

/-- The data word `off` words above the stack pointer. -/
def dataAt (off : UInt32) : Expr :=
  offset (.binary .add (.var dataBase) (.var spVar)) off

/-- Word `k` of a value that starts `off` words above the stack pointer. -/
def dataWord (off k : Nat) : Expr := dataAt (off + k).toUInt32

/-- Word `k` of a value that starts `off` words behind a base. -/
def baseWord (base : String) (off k : Nat) : Expr := offset (.var base) (off + k).toUInt32

/-! ## The stack pointer -/

def readSp : Stmt := .assign spVar (.load stackBuffer (.var headerBase))

def writeSp : Stmt := .store stackBuffer (.var headerBase) (.var spVar)

def raiseSp (n : Nat) : Stmt := .assign spVar (.binary .add (.var spVar) (.count n))

def lowerSp (n : Nat) : Stmt := .assign spVar (.binary .sub (.var spVar) (.count n))

/-! ## Values in words -/

/-- Reads a value whose word `k` is at `place k`. -/
def loadValue (l : Layout) (buffer : String) (place : Nat → Expr) (t : ValueType) : Expr :=
  let word (k : Nat) : Expr := .load buffer (place k)
  let carrier := Ty.carrier l t
  match carrier with
  | .u32 => word 0
  | .f32 => .bitcast .f32 (word 0)
  | .f64 => .bitcast .f64 (.compose .vec2 [word 0, word 1])
  | _ => .compose carrier ((List.range carrier.components).map word)

/-- Writes a value word by word to `place k`. -/
def storeValue (l : Layout) (buffer : String) (place : Nat → Expr) (v : Expr) (t : ValueType) :
    List Stmt :=
  let store (k : Nat) (x : Expr) : Stmt := .store buffer (place k) x
  let carrier := Ty.carrier l t
  match carrier with
  | .u32 => [store 0 v]
  | .f32 => [store 0 (.bitcast .u32 v)]
  | .f64 =>
    let bits : Expr := .bitcast .vec2 v
    [store 0 (.extract bits 0), store 1 (.extract bits 1)]
  | _ => (List.range carrier.components).map fun k => store k (.extract v k)

/-! ## Pushing and popping -/

/-- Words written above the stack pointer, which is moved only at the end. -/
structure Push where
  stmts : List Stmt := []
  size : Nat := 0
  deriving Inhabited

namespace Push

def value (p : Push) (l : Layout) (v : Expr) (t : ValueType) : Push :=
  ⟨p.stmts ++ storeValue l stackBuffer (dataWord p.size) v t, p.size + l.words t⟩

def word (p : Push) (v : Expr) : Push :=
  ⟨p.stmts ++ [.store stackBuffer (dataAt p.size.toUInt32) v], p.size + 1⟩

def blockId (p : Push) (id : BlockId) : Push := p.word (.u32 id.val)

/-- Leaves room for words that are written later. -/
def reserve (p : Push) (n : Nat) : Push := { p with size := p.size + n }

/-- The whole push: a check that the words fit, the words, and the new stack
pointer. -/
def finish (p : Push) (stackWords : UInt32) : List Stmt :=
  let tooMuch : Expr :=
    .binary .gt (.binary .add (.var spVar) (.count p.size)) (.u32 stackWords)
  .ifElse tooMuch [.trap TrapCode.stackOverflow.code] [] :: p.stmts ++ [raiseSp p.size]

end Push

/-- Pops the frame of a block into variables, one for each value of its
payload. -/
def popFrame (l : Layout) (p : Payload) (vars : List String) : List Stmt :=
  lowerSp p.frameWords
    :: (vars.zip (p.types.zip p.offsets)).map fun (name, t, off) =>
      .assign name (loadValue l stackBuffer (dataWord off) t)

end WasmShader.Emit
