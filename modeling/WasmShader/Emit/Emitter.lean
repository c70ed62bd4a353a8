import WasmShader.CallGraph.Analysis
import WasmShader.Emit.Abi
import WasmShader.Program.Effect

/-!
# The state of emission

Emitting a function names its values: the operand at a place of the stack is a
variable named for the place and its type, local `n` is `ln`. Variables are
declared when they are first named, in that order. Labels are numbered.
-/

namespace WasmShader.Emit

open Shader

/-- Where the mutable globals are in a lane's globals. Immutable ones have no
place; they are written as constants. -/
structure GlobalLayout where
  offsets : List (Option Nat)
  words : Nat
  init : List UInt32
  deriving Inhabited

namespace GlobalLayout

/-- The places of globals, the first free word being `next`. -/
def offsetsFrom (l : Layout) : (next : Nat) → List Global → List (Option Nat)
  | _, [] => []
  | next, g :: gs =>
    if g.isMutable then some next :: offsetsFrom l (next + l.words g.type) gs
    else none :: offsetsFrom l next gs

def ofProgram (p : Program) (l : Layout) : GlobalLayout :=
  let isMutable := p.globals.filter (·.isMutable)
  ⟨offsetsFrom l 0 p.globals, l.sizeOf (isMutable.map (·.type)),
    isMutable.flatMap fun g => l.encode g.init⟩

end GlobalLayout

/-- What the functions of one module share. -/
structure Context where
  program : Program
  analysis : Analysis
  layout : Layout
  globals : GlobalLayout
  stackWords : UInt32

def directName (fn : Nat) : String := "f" ++ toString fn ++ "_direct"

/-- What a branch to a label does. -/
inductive LabelKind
  /-- Leaves the function. -/
  | func
  /-- Leaves a block. -/
  | block
  /-- Starts a loop over. -/
  | loop
  deriving DecidableEq, Repr, Inhabited

/-- A label: its name, what it carries, and the place on the stack where that
goes. -/
structure Label where
  kind : LabelKind
  name : String := ""
  types : List ValueType
  height : Nat := 0
  deriving Inhabited

structure State where
  declared : List Variable := []
  stack : TypeStack := []
  labels : Nat := 0
  deriving Inhabited

abbrev Emitter := StateT State (Except Abort)

namespace Emitter

def crash : Emitter α := throw .outOfBounds

/-- Declares a variable the first time it is named. -/
def declare (name : String) (t : Ty) : Emitter String := do
  modify fun s =>
    if s.declared.any (·.name == name) then s
    else { s with declared := s.declared ++ [⟨name, t⟩] }
  return name

def localVar (ctx : Context) (f : Function) (i : Nat) : Emitter String := do
  let t ← entry f.locals i
  declare ("l" ++ toString i) (← Ty.carrierOf ctx.layout t)

/-- The variable of the operand at a place. -/
def slot (ctx : Context) (place : Nat) (t : ValueType) : Emitter String := do
  declare ("s" ++ toString place ++ "_" ++ t.name) (← Ty.carrierOf ctx.layout t)

/-- Puts an operand on the stack and gives its variable. -/
def push (ctx : Context) (t : ValueType) : Emitter String := do
  let place := (← get).stack.length
  modify fun s => { s with stack := s.stack ++ [t] }
  slot ctx place t

/-- The variables of the operands at places `base`, `base + 1`, ... -/
def slots (ctx : Context) : (base : Nat) → List ValueType → Emitter (List Expr)
  | _, [] => return []
  | base, t :: ts => do
    let name ← slot ctx base t
    return .var name :: (← slots ctx (base + 1) ts)

def top (ctx : Context) (n : Nat) : Emitter (List Expr) := do
  let stack := (← get).stack
  if stack.length < n then crash
  else slots ctx (stack.length - n) (stack.top n)

/-- Takes the top `n` operands off the stack and gives their variables. -/
def pop (ctx : Context) (n : Nat) : Emitter (List Expr) := do
  let vars ← top ctx n
  modify fun s => { s with stack := s.stack.below n }
  return vars

def pop1 (ctx : Context) : Emitter Expr := do
  match ← pop ctx 1 with
  | [x] => return x
  | _ => crash

def newLabel : Emitter String := do
  let n := (← get).labels + 1
  modify fun s => { s with labels := n }
  return "L" ++ toString n

end Emitter

end WasmShader.Emit
