import WasmShader.Emit.Numeric

/-!
# Structured code in the shader

Blocks, loops and conditionals become labelled statements. A branch moves the
values it carries to where the label expects them and leaves or restarts the
labelled statement. A call of another function's direct form is an ordinary
call; a call that would need the machine or the host traps, which only happens in
the direct form of a function that is never run.
-/

namespace WasmShader.Emit

open Shader

/-- The constant that carries a value. -/
def valueLiteral (l : Layout) (v : Value) : Expr := .lit (Ty.carrier l v.type) (l.encode v)

def emitConstant (ctx : Context) (v : Value) : Emitter (List Stmt) := do
  let dst ← Emitter.push ctx v.type
  return [.assign dst (valueLiteral ctx.layout v)]

/-- Moves carried values from place `src` to place `dst` of the stack, the lowest
first. -/
def moveSlots (ctx : Context) : (dst src : Nat) → List ValueType → Emitter (List Stmt)
  | _, _, [] => return []
  | dst, src, t :: ts => do
    if dst = src then moveSlots ctx (dst + 1) (src + 1) ts
    else
      let target ← Emitter.slot ctx dst t
      let source ← Emitter.slot ctx src t
      return .assign target (.var source) :: (← moveSlots ctx (dst + 1) (src + 1) ts)

def emitBranch (ctx : Context) (labels : List Label) (depth : UInt32) : Emitter (List Stmt) := do
  match labels[depth.toNat]? with
  | none => Emitter.crash
  | some l =>
    let n := l.types.length
    let height := (← get).stack.length
    match l.kind with
    | .func => return [.ret (← Emitter.top ctx n)]
    | .block =>
      if height < n then Emitter.crash
      return (← moveSlots ctx l.height (height - n) l.types) ++ [.leave l.name]
    | .loop =>
      if height < n then Emitter.crash
      return (← moveSlots ctx l.height (height - n) l.types) ++ [.again l.name]

/-- The cases of a table branch, numbered from `i`. -/
def emitCases (ctx : Context) (labels : List Label) : (i : Nat) → List UInt32 → Emitter (List Case)
  | _, [] => return []
  | i, depth :: rest => do
    let body ← emitBranch ctx labels depth
    return .mk [i.toUInt32] body :: (← emitCases ctx labels (i + 1) rest)

/-- Takes operands and puts others without computing anything. -/
def emitSkip (ctx : Context) (pops : Nat) (pushes : List ValueType) : Emitter Unit := do
  let _ ← Emitter.pop ctx pops
  for t in pushes do
    let _ ← Emitter.push ctx t

/-- An operation that cannot run here. -/
def trapStmts (code : TrapCode) : List Stmt := [.trap code.code]

/-- Pushes operands one after the other and gives their variables. -/
def pushAll (ctx : Context) : List ValueType → Emitter (List String)
  | [] => return []
  | t :: ts => do
    let name ← Emitter.push ctx t
    return name :: (← pushAll ctx ts)

def emitCall (ctx : Context) (f : Function) (target : Nat) : Emitter (List Stmt) := do
  let p := ctx.program
  let sig := (p.signature? target).getD ⟨[], []⟩
  if p.isImport target then
    emitSkip ctx sig.params.length sig.results
    return trapStmts .unsupported
  else if !ctx.analysis.canCallDirect f.index target then
    emitSkip ctx sig.params.length sig.results
    return trapStmts .recursionUnavailable
  else
    let args ← Emitter.pop ctx sig.params.length
    let results ← pushAll ctx sig.results
    return [.call (directName target) args results]

/-- The global an instruction names and its place. -/
def globalPlace (ctx : Context) (idx : UInt32) : Emitter (Global × Option Nat) := do
  let g ← entry ctx.program.globals idx.toNat
  return (g, (ctx.globals.offsets.getD idx.toNat none))

def emitInstr (ctx : Context) (f : Function) (labels : List Label) (i : Instr) :
    Emitter (List Stmt) := do
  let l := ctx.layout
  match i.operation, i.imm with
  | .numeric op, _ => emitNumeric ctx op
  | .nop, _ => return []
  | .unreachable, _ => return trapStmts .unreachable
  | .br, .branch depth => emitBranch ctx labels depth
  | .brIf, .branch depth =>
    let cond ← Emitter.pop1 ctx
    return [.ifElse cond.isNonzero (← emitBranch ctx labels depth) []]
  | .brTable, .branchTable depths fallback =>
    let selector ← Emitter.pop1 ctx
    let last ← emitBranch ctx labels fallback
    return [.switch selector (← emitCases ctx labels 0 depths) last]
  | .ret, _ => return [.ret (← Emitter.top ctx f.type.results.length)]
  | .i32Const, .i32 v => emitConstant ctx (.ofI32 v)
  | .i64Const, .i64 v => emitConstant ctx (.ofI64 v)
  | .f32Const, .f32 bits => emitConstant ctx (.ofBits32 bits)
  | .f64Const, .f64 bits => emitConstant ctx (.ofBits64 bits)
  | .vector, .v128 lo hi => emitConstant ctx (.ofV128 lo hi)
  | .drop, _ =>
    let _ ← Emitter.pop1 ctx
    return []
  | .select, _ =>
    let stack := (← get).stack
    if stack.length < 3 then Emitter.crash
    let t ← entry stack (stack.length - 3)
    match ← Emitter.pop ctx 3 with
    | [a, b, c] =>
      let dst ← Emitter.push ctx t
      return [.assign dst (.select c.isNonzero a b)]
    | _ => Emitter.crash
  | .localGet, .localVar idx =>
    let dst ← Emitter.push ctx (← entry f.locals idx.toNat)
    return [.assign dst (.var (← Emitter.localVar ctx f idx.toNat))]
  | .localSet, .localVar idx =>
    let v ← Emitter.pop1 ctx
    return [.assign (← Emitter.localVar ctx f idx.toNat) v]
  | .localTee, .localVar idx =>
    let stack := (← get).stack
    match stack.getLast? with
    | none => Emitter.crash
    | some t =>
      let name ← Emitter.localVar ctx f idx.toNat
      return [.assign name (.var (← Emitter.slot ctx (stack.length - 1) t))]
  | .globalGet, .globalVar idx =>
    let (g, place) ← globalPlace ctx idx
    match place with
    | none => emitConstant ctx g.init
    | some off =>
      let dst ← Emitter.push ctx g.type
      return [.assign dst (loadValue l globalsBuffer (baseWord globalBase off) g.type)]
  | .globalSet, .globalVar idx =>
    let (g, place) ← globalPlace ctx idx
    match place with
    | none => Emitter.crash
    | some off =>
      let v ← Emitter.pop1 ctx
      let _ ← Ty.carrierOf l g.type
      return storeValue l globalsBuffer (baseWord globalBase off) v g.type
  | .call, .call target => emitCall ctx f target.toNat
  | .callIndirect, .callIndirect typeIdx _ =>
    let t ← entry ctx.program.types typeIdx.toNat
    emitSkip ctx (t.sig.params.length + 1) t.sig.results
    return trapStmts .unsupported
  | .memorySize, _ =>
    let _ ← Emitter.push ctx .i32
    return trapStmts .unsupported
  | .memoryGrow, _ =>
    emitSkip ctx 1 [.i32]
    return trapStmts .unsupported
  | .block, _ | .loop, _ | .ifElse, _ | .elseMark, _ | .endMark, _ | .memoryAccess, _
  | .unknown, _ =>
    throw (.crashed (some ("lower: opcode " ++ Text.hexLiteral 2 i.opcode.toNat
      ++ " reached emission")))
  | _, _ => Emitter.crash

/-- The operands below the top `n`. -/
def outerStack (n : Nat) : Emitter TypeStack := do
  let stack := (← get).stack
  if stack.length < n then Emitter.crash else return stack.below n

def setStack (stack : TypeStack) : Emitter Unit := modify fun s => { s with stack }

mutual

def emitNode (ctx : Context) (f : Function) (labels : List Label) : Node → Emitter (List Stmt)
  | .instr i => emitInstr ctx f labels i
  | .block loop sig body => do
    let outer ← outerStack sig.params.length
    let name ← Emitter.newLabel
    let label : Label :=
      ⟨if loop then .loop else .block, name, labelTypes loop sig, outer.length⟩
    let inner ← emitSeq ctx f (label :: labels) body
    setStack (outer ++ sig.results)
    return if loop then [.loop name (inner ++ [.leave name])] else [.block name inner]
  | .ifThen sig body => do
    let cond ← Emitter.pop1 ctx
    let outer ← outerStack sig.params.length
    let name ← Emitter.newLabel
    let inner ← emitSeq ctx f (⟨.block, name, sig.results, outer.length⟩ :: labels) body
    setStack (outer ++ sig.results)
    return [.block name [.ifElse cond.isNonzero inner []]]
  | .ifElse sig body alternative => do
    let cond ← Emitter.pop1 ctx
    let start := (← get).stack
    let outer ← outerStack sig.params.length
    let name ← Emitter.newLabel
    let inner ← emitSeq ctx f (⟨.block, name, sig.results, outer.length⟩ :: labels) body
    setStack start
    let other ← emitSeq ctx f (⟨.block, name, sig.results, outer.length⟩ :: labels) alternative
    setStack (outer ++ sig.results)
    return [.block name [.ifElse cond.isNonzero inner other]]

def emitSeq (ctx : Context) (f : Function) (labels : List Label) :
    List Node → Emitter (List Stmt)
  | [] => return []
  | n :: ns => do
    let first ← emitNode ctx f labels n
    return first ++ (← emitSeq ctx f labels ns)

end

end WasmShader.Emit
