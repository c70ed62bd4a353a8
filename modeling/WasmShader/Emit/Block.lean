import WasmShader.Emit.Body

/-!
# Blocks in the shader

The function of a block pops the block's frame into variables, runs the code of
the block, and does what its terminator says: it pushes the frame of the next
block, of a callee or of a request to the host, or writes the results into the
room that the caller left below its own frame.
-/

namespace WasmShader.Emit

open Shader

/-- The numbers of the blocks of each machine, in order. -/
abbrev BlockNumbers := List (Nat × List BlockId)

def BlockNumbers.get (ids : BlockNumbers) (fn block : Nat) : Except Abort BlockId :=
  entry ((ids.lookup fn).getD []) block

def blockName (id : BlockId) : String := "blk_" ++ toString id.val.toNat

/-- What the code of a block refers to. -/
structure BlockContext extends Context where
  frames : Frames
  ids : BlockNumbers

namespace BlockContext

def func (bc : BlockContext) : WasmShader.Function := bc.frames.machine.func

def blockId (bc : BlockContext) (block : Nat) : Except Abort BlockId :=
  bc.ids.get bc.func.index block

/-- The locals that the frame of a block saves, added to a push. -/
def pushLocals (bc : BlockContext) (p : Push) (target : Payload) : Emitter Push :=
  target.locals.foldlM (fun p i => do
    let name ← Emitter.localVar bc.toContext bc.func i
    return p.value bc.layout (.var name) (← entry bc.func.locals i)) p

/-- The operands from place `start` on, added to a push. -/
def pushSlots (bc : BlockContext) : Push → (start : Nat) → List ValueType → Emitter Push
  | p, _, [] => return p
  | p, start, t :: ts => do
    let name ← Emitter.slot bc.toContext start t
    pushSlots bc (p.value bc.layout (.var name) t) (start + 1) ts

/-- Pushes the frame of the block that an edge leads to. -/
def emitEdge (bc : BlockContext) (e : Edge) (stack : TypeStack) : Emitter (List Stmt) := do
  if stack.length < e.keep || stack.length < e.carry then Emitter.crash
  let p ← bc.pushLocals {} (← entry bc.frames.payloads e.target)
  let p ← bc.pushSlots p 0 (stack.take e.keep)
  let p ← bc.pushSlots p (stack.length - e.carry) (stack.top e.carry)
  return (p.blockId (← bc.blockId e.target)).finish bc.stackWords

/-- The cases of a switch, numbered from `i`. -/
def emitEdges (bc : BlockContext) (stack : TypeStack) : (i : Nat) → List Edge → Emitter (List Case)
  | _, [] => return []
  | i, e :: es => do
    let body ← bc.emitEdge e stack
    return .mk [i.toUInt32] body :: (← bc.emitEdges stack (i + 1) es)

/-- Pushes the frame of the block to come back to, with room for the results, and
on top of it the frame of what is called. -/
def emitTransfer (bc : BlockContext) (stack : TypeStack) (args : Nat) (results : List ValueType)
    (next : Nat) (callee : BlockId) : Emitter (List Stmt) := do
  if stack.length < args then Emitter.crash
  let base := stack.length - args
  let p ← bc.pushLocals {} (← entry bc.frames.payloads next)
  let p ← bc.pushSlots p 0 (stack.below args)
  let p := (p.reserve (← bc.layout.size results)).blockId (← bc.blockId next)
  let p ← bc.pushSlots p base (stack.top args)
  return (p.blockId callee).finish bc.stackWords

/-- The place of a word of the room that the caller left for results of `room`
words. -/
def resultWord (room : Nat) (off k : Nat) : Expr :=
  offset (.binary .sub (.binary .add (.var dataBase) (.var spVar)) (.count (1 + room)))
    (off + k).toUInt32

/-- Writes results from place `start` of the stack on into the room for them. -/
def emitResults (bc : BlockContext) (room : Nat) :
    (start off : Nat) → List ValueType → Emitter (List Stmt)
  | _, _, [] => return []
  | start, off, t :: ts => do
    let name ← Emitter.slot bc.toContext start t
    let stores := storeValue bc.layout stackBuffer (resultWord room off) (.var name) t
    return stores ++ (← bc.emitResults room (start + 1) (off + bc.layout.words t) ts)

/-- The operand that a branch or switch decides on, and the operands below it. -/
def decision (bc : BlockContext) (stack : TypeStack) : Emitter (Expr × TypeStack) := do
  match stack.getLast? with
  | none => Emitter.crash
  | some t => return (.var (← Emitter.slot bc.toContext (stack.length - 1) t), stack.below 1)

def emitTerminator (bc : BlockContext) (b : Block) : Emitter (List Stmt) := do
  match b.term with
  | .goto e => bc.emitEdge e b.stack
  | .branch taken notTaken =>
    let (cond, stack) ← bc.decision b.stack
    let body ← bc.emitEdge taken stack
    return [.ifElse cond.isNonzero body (← bc.emitEdge notTaken stack)]
  | .switch cases fallback =>
    let (selector, stack) ← bc.decision b.stack
    let last ← bc.emitEdge fallback stack
    return [.switch selector (← bc.emitEdges stack 0 cases) last]
  | .call callee args results next =>
    bc.emitTransfer b.stack args.length results next (← bc.ids.get callee 0)
  | .host func args results next => bc.emitTransfer b.stack args.length results next func.id
  | .ret _ =>
    let results := bc.func.type.results
    if b.stack.length < results.length then Emitter.crash
    bc.emitResults (← bc.layout.size results) (b.stack.length - results.length) 0 results
  | .trap code => return trapStmts code

/-- The variables that the frame of a block is popped into. -/
def frameVars (bc : BlockContext) (b : Block) (p : Payload) : Emitter (List String) := do
  let locals ← p.locals.mapM (Emitter.localVar bc.toContext bc.func)
  let operands ← b.entry.mapIdxM fun i t => Emitter.slot bc.toContext i t
  return locals ++ operands

def emitBlockBody (bc : BlockContext) (b : Block) : Emitter (List Stmt) := do
  let _ ← Emitter.declare spVar .u32
  let payload ← entry bc.frames.payloads b.index
  let vars ← bc.frameVars b payload
  setStack b.entry
  let inner ← emitSeq bc.toContext bc.func [] b.body
  let last ← bc.emitTerminator b
  return readSp :: popFrame bc.layout payload vars ++ inner ++ last ++ [writeSp]

def blockFunction (bc : BlockContext) (b : Block) : Except Abort Shader.Function := do
  let (body, state) ← (bc.emitBlockBody b).run {}
  return { name := blockName (← bc.blockId b.index), locals := state.declared, body }

end BlockContext

end WasmShader.Emit
