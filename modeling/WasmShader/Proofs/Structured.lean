import WasmShader.Emit.Numeric
import WasmShader.Execution.Invocation
import WasmShader.Proofs.Partiality

/-!
# Evaluation of structured bodies

The ordinary meaning of a program, next to which its compiled forms are set. A body is
evaluated as the tree it is: a block is left or a loop started over by a branch, and a
call evaluates the body of the callee with locals of its own. Imports, indirect calls and
questions about the memory ask the host. Operands and locals are the shader values that
carry them, since a numeric instruction means what its own code computes.

Calls are answered by an `Oracle`, so that a body can be evaluated whatever answers them.
`none` stands for an evaluation that does not end. `stuck` stands for code that has not been
checked.
-/

namespace WasmShader.Structured

open Execution (Datum Host)

/-! ## Numeric instructions -/

/-- The variables of a numeric instruction on its own. -/
def operandVar (i : Nat) : String := "x" ++ toString i

def resultVar : String := "y"

/-- A module with nothing but the functions that numeric instructions call. -/
def numericEnv (l : Layout) : Execution.Env where
  exe :=
    { module := { functions := Emit.numericFunctions }
      layout := l
      hosts := { layout := l }
      entries := []
      blocks := []
      stackWords := 0
      ioWords := 0
      globalWords := 0
      globalInit := [] }

/-- The state in which a numeric instruction runs on its own. -/
def numericState (args : List Datum) : Execution.State where
  lane := default
  vars := (resultVar, .zero .u32) :: args.mapIdx fun i d => (operandVar i, d)

/-- What the code of a numeric instruction computes. -/
def numericResult (l : Layout) (op : NumericOp) (args : List Datum) :
    Except Execution.Stop Datum :=
  let operands := (List.range args.length).map fun i => Shader.Expr.var (operandVar i)
  let code := Emit.numericStmts l op operands resultVar
  match (Execution.Exec.stmts (numericEnv l) 16 code).run.run (numericState args) with
  | (.error e, _) => .error e
  | (.ok _, s) => s.lookup resultVar

/-! ## States and results -/

/-- Why an evaluation stops before its end. -/
inductive Stop
  | trap (code : TrapCode)
  | hostFailed (func : HostFunc) (cause : Failure)
  | stuck
  deriving DecidableEq, Repr, Inhabited

/-- How evaluation goes on behind a piece of code, with the operands there. -/
inductive Flow
  | next (stack : List Datum)
  /-- To the label at a depth. -/
  | branch (depth : Nat) (stack : List Datum)
  | ret (stack : List Datum)
  deriving DecidableEq, Repr, Inhabited

/-- What all functions share: the globals and the memory of the host. -/
structure Shared (σ : Type) where
  globals : List Datum
  host : σ

/-- The state of a running function. -/
structure Store (σ : Type) where
  locals : List Datum
  shared : Shared σ

variable {σ : Type}

/-- The end of an evaluation and the state behind it. -/
abbrev Ending (τ α : Type) := Except Stop α × τ

abbrev Eval (σ : Type) := ExceptT Stop (StateT (Store σ) Option)

/-- What code asks others for. -/
inductive Request
  | call (fn : Nat)
  | host (key : HostKey)
  deriving DecidableEq, Repr, Inhabited

/-- Answers requests. -/
abbrev Oracle (σ : Type) :=
  Request → List Datum → Shared σ → Option (Ending (Shared σ) (List Datum))

/-- The top `n` operands. -/
def top (n : Nat) (stack : List Datum) : List Datum := stack.drop (stack.length - n)

/-- The operands below the top `n`, and these. -/
def split (n : Nat) (stack : List Datum) : Eval σ (List Datum × List Datum) :=
  if stack.length < n then throw .stuck
  else return (stack.take (stack.length - n), top n stack)

/-- The operands below the top one, and that one. -/
def popOne (stack : List Datum) : Eval σ (List Datum × Datum) := do
  match ← split 1 stack with
  | (rest, [d]) => return (rest, d)
  | _ => throw .stuck

/-- Asks for something. -/
def ask (oracle : Oracle σ) (r : Request) (args : List Datum) : Eval σ (List Datum) := fun st =>
  (oracle r args st.shared).map fun (answer, shared) => (answer, { st with shared })

/-- A local. -/
def getLocal (idx : Nat) : Eval σ Datum := do
  match (← get).locals[idx]? with
  | some d => return d
  | none => throw .stuck

def setLocal (idx : Nat) (d : Datum) : Eval σ Unit :=
  modify fun st => { st with locals := st.locals.set idx d }

/-- A global. -/
def getGlobal (idx : Nat) : Eval σ Datum := do
  match (← get).shared.globals[idx]? with
  | some d => return d
  | none => throw .stuck

def setGlobal (idx : Nat) (d : Datum) : Eval σ Unit :=
  modify fun st =>
    { st with shared := { st.shared with globals := st.shared.globals.set idx d } }

/-! ## Instructions -/

/-- What a call of a function asks for: the host if it is imported. -/
def callRequest (p : Program) (target : Nat) : Request :=
  match p.imports[target]? with
  | some i => .host (.importCall i.index)
  | none => .call target

/-- Asks for something that takes the top `n` operands. -/
def askTop (oracle : Oracle σ) (r : Request) (n : Nat) (stack : List Datum) : Eval σ Flow := do
  let (rest, args) ← split n stack
  return .next (rest ++ (← ask oracle r args))

/-- Evaluates an instruction on a stack of operands, bottom first. -/
def evalInstr (p : Program) (l : Layout) (oracle : Oracle σ) (i : Instr) (stack : List Datum) :
    Eval σ Flow := do
  let push (v : Value) : Eval σ Flow := return .next (stack ++ [.ofValue l v])
  match i.operation, i.imm with
  | .numeric op, _ =>
    let (rest, args) ← split op.signature.params.length stack
    match numericResult l op args with
    | .ok d => return .next (rest ++ [d])
    | .error (.trap code) => throw (.trap code)
    | .error _ => throw .stuck
  | .nop, _ => return .next stack
  | .unreachable, _ => throw (.trap .unreachable)
  | .br, .branch depth => return .branch depth.toNat stack
  | .brIf, .branch depth =>
    let (rest, c) ← popOne stack
    return if c.truth then .branch depth.toNat rest else .next rest
  | .brTable, .branchTable depths fallback =>
    let (rest, c) ← popOne stack
    return .branch (depths.getD c.x.toNat fallback).toNat rest
  | .ret, _ => return .ret stack
  | .i32Const, .i32 v => push (.ofI32 v)
  | .i64Const, .i64 v => push (.ofI64 v)
  | .f32Const, .f32 bits => push (.ofBits32 bits)
  | .f64Const, .f64 bits => push (.ofBits64 bits)
  | .vector, .v128 lo hi => push (.ofV128 lo hi)
  | .drop, _ =>
    let (rest, _) ← popOne stack
    return .next rest
  | .select, _ =>
    match ← split 3 stack with
    | (rest, [a, b, c]) => return .next (rest ++ [if c.truth then a else b])
    | _ => throw .stuck
  | .localGet, .localVar idx => return .next (stack ++ [← getLocal idx.toNat])
  | .localSet, .localVar idx =>
    let (rest, d) ← popOne stack
    setLocal idx.toNat d
    return .next rest
  | .localTee, .localVar idx =>
    let (_, d) ← popOne stack
    setLocal idx.toNat d
    return .next stack
  | .globalGet, .globalVar idx => return .next (stack ++ [← getGlobal idx.toNat])
  | .globalSet, .globalVar idx =>
    let (rest, d) ← popOne stack
    setGlobal idx.toNat d
    return .next rest
  | .call, .call target =>
    match p.signature? target.toNat with
    | some sig => askTop oracle (callRequest p target.toNat) sig.params.length stack
    | none => throw .stuck
  | .callIndirect, .callIndirect typeIdx _ =>
    match p.types[typeIdx.toNat]? with
    | some t =>
      askTop oracle (.host (.callIndirect typeIdx.toNat)) (t.sig.params.length + 1) stack
    | none => throw .stuck
  | .memorySize, _ => askTop oracle (.host (.memory .memorySize)) 0 stack
  | .memoryGrow, _ => askTop oracle (.host (.memory .memoryGrow)) 1 stack
  | _, _ => throw .stuck

/-! ## Bodies -/

/-- Behind a construct whose label carries `n` operands, with the operands below it. -/
def Flow.leave (outer : List Datum) (n : Nat) : Flow → Flow
  | .next stack => .next (outer ++ stack)
  | .branch 0 stack => .next (outer ++ top n stack)
  | .branch (depth + 1) stack => .branch depth stack
  | .ret stack => .ret stack

/-- What the end of a loop's body means for a loop that takes `n` operands. -/
def roundEnd (n : Nat) :
    Ending (Store σ) Flow → (List Datum × Store σ) ⊕ Ending (Store σ) Flow
  | (.ok (.branch 0 stack), st) => .inl (top n stack, st)
  | r => .inr r

/-- Evaluates a body again and again as long as it branches to its own label, which
carries `n` operands. -/
noncomputable def evalLoop (n : Nat) (body : List Datum → Eval σ Flow) (args : List Datum) : Eval σ Flow :=
  fun st => untilDone (fun (args, st) => (body args st).map (roundEnd n)) (args, st)

mutual

/-- Evaluates a node. -/
noncomputable def evalNode (p : Program) (l : Layout) (oracle : Oracle σ) : Node → List Datum → Eval σ Flow
  | .instr i, stack => evalInstr p l oracle i stack
  | .block loop sig body, stack => do
    let (outer, args) ← split sig.params.length stack
    let flow ←
      (if loop then evalLoop sig.params.length (evalSeq p l oracle body) args
      else evalSeq p l oracle body args)
    return flow.leave outer sig.results.length
  | .ifThen sig body, stack => do
    let (stack, c) ← popOne stack
    let (outer, args) ← split sig.params.length stack
    let flow ← (if c.truth then evalSeq p l oracle body args else pure (.next args))
    return flow.leave outer sig.results.length
  | .ifElse sig body alternative, stack => do
    let (stack, c) ← popOne stack
    let (outer, args) ← split sig.params.length stack
    let flow ←
      (if c.truth then evalSeq p l oracle body args else evalSeq p l oracle alternative args)
    return flow.leave outer sig.results.length

/-- Evaluates a sequence. -/
noncomputable def evalSeq (p : Program) (l : Layout) (oracle : Oracle σ) :
    List Node → List Datum → Eval σ Flow
  | [], stack => return .next stack
  | n :: ns, stack => do
    match ← evalNode p l oracle n stack with
    | .next stack => evalSeq p l oracle ns stack
    | flow => return flow

end

/-! ## Functions -/

/-- The operands that a function is left with. -/
def Flow.stack : Flow → List Datum
  | .next stack | .branch _ stack | .ret stack => stack

/-- The locals that a function starts with: its arguments, and zeros. -/
def initialLocals (l : Layout) (f : Function) (args : List Datum) : List Datum :=
  args ++ (f.locals.drop f.type.params.length).map fun t => .zero (Shader.Ty.carrier l t)

/-- Evaluates a function on arguments. -/
noncomputable def evalFunction (p : Program) (l : Layout) (oracle : Oracle σ) (f : Function)
    (args : List Datum) (shared : Shared σ) : Option (Ending (Shared σ) (List Datum)) :=
  match f.body with
  | .error _ => some (.error .stuck, shared)
  | .ok body =>
    (evalSeq p l oracle body [] ⟨initialLocals l f args, shared⟩).map fun (r, st) =>
      (r.map fun flow => top f.type.results.length flow.stack, st.shared)

/-- A program with its host. -/
structure World (σ : Type) where
  program : Program
  layout : Layout
  /-- What the host is told about a request. -/
  describe : HostKey → HostFunc
  host : Host σ
  /-- The lane that the host is told. -/
  lane : Nat

/-- The answer of the host. -/
def World.askHost (w : World σ) (key : HostKey) (args : List Datum) (shared : Shared σ) :
    Ending (Shared σ) (List Datum) :=
  let h := w.describe key
  let values := (h.params.zip args).map fun (t, d) => d.toValue w.layout t
  match w.host.call shared.host w.lane h values with
  | (.error e, host) => (.error (.hostFailed h e), { shared with host })
  | (.ok results, host) => (.ok (results.map (.ofValue w.layout)), { shared with host })

end WasmShader.Structured
