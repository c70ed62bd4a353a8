import WasmShader.Execution.Intrinsic
import WasmShader.Execution.Lane
import WasmShader.Execution.Operator
import WasmShader.Shader.Module

/-!
# Evaluation of expressions

An expression reads variables and the words of its lane and changes nothing.
-/

namespace WasmShader.Execution

open Shader

/-- Variables and their values; of several with one name, the first counts. -/
abbrev Vars := List (String × Datum)

/-- Gives a variable a new value, if it is there. -/
def Vars.set? : Vars → String → Datum → Option Vars
  | [], _, _ => none
  | (n, old) :: rest, name, v =>
    if n = name then some ((n, v) :: rest) else (set? rest name v).map ((n, old) :: ·)

structure State where
  lane : Lane
  /-- The parameters and locals of the running function. -/
  vars : Vars := []
  /-- The private variables of the module. -/
  privates : Vars := []
  deriving Inhabited

def State.lookup (s : State) (name : String) : Except Stop Datum :=
  match s.vars.lookup name with
  | some v => .ok v
  | none =>
    match s.privates.lookup name with
    | some v => .ok v
    | none => .error (.fault ("undefined variable " ++ Text.quote name))

def State.load (s : State) (buffer : String) (idx : UInt32) : Except Stop Datum := do
  let (r, i) ← s.lane.locate buffer idx
  return .ofU32 ((s.lane.words r).getD i 0)

/-- The values that arguments carry. -/
def operands (l : Layout) : List ValueType → List Datum → Except Stop (List Value)
  | _, [] => return []
  | [], _ :: _ => throw .crash
  | t :: ts, d :: ds => do
    if !t.isKnown then throw (.abort (Layout.unknownType t))
    return d.toValue l t :: (← operands l ts ds)

mutual

def eval (l : Layout) (s : State) : Expr → Except Stop Datum
  | .lit type words => return .ofWords type words
  | .var name => s.lookup name
  | .laneIndex => return .ofU32 s.lane.index.toUInt32
  | .load buffer index => do
    let i ← eval l s index
    s.load buffer i.x
  | .binary op left right => do
    let a ← eval l s left
    let b ← eval l s right
    binary op a b
  | .unary op x => do unary op (← eval l s x)
  | .select cond onTrue onFalse => do
    let c ← eval l s cond
    if c.truth then eval l s onTrue else eval l s onFalse
  | .compose type parts => do
    let ds ← evalAll l s parts
    if 4 < ds.length then throw .crash
    return .ofWords type (ds.map (·.x))
  | .extract x index => do
    let d ← eval l s x
    match d.component index with
    | .ok w => return .ofU32 w
    | .error e => throw (.abort e)
  | .bitcast type x => do return { ← eval l s x with type }
  | .convert type x => do convert (← eval l s x) type
  | .intrinsic op args params _ => do
    let ds ← evalAll l s args
    let values ← operands l params ds
    return .ofValue l (← evalNumeric l op values)
  | .absent => throw (.fault "unknown expression <nil>")

/-- The values of expressions, from left to right. -/
def evalAll (l : Layout) (s : State) : List Expr → Except Stop (List Datum)
  | [] => return []
  | e :: es => do
    let d ← eval l s e
    return d :: (← evalAll l s es)

end

end WasmShader.Execution
