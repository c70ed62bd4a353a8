import WasmShader.Execution.Eval

/-!
# Execution of statements

Statements change the variables and the words of a lane. What they did to the
lane stays even where they stop with a trap or a failure. Loops and calls need a
bound: `fuel` limits the depth of the evaluation, and a run that reaches its end
has the same end with more fuel.
-/

namespace WasmShader.Execution

open Shader

/-- How execution goes on behind a statement. -/
inductive Flow
  | next
  /-- Leaves the statement with a label. -/
  | leave (label : String)
  /-- Starts the loop with a label over. -/
  | again (label : String)
  | ret (values : List Datum)
  deriving DecidableEq, Repr, Inhabited

/-- What execution refers to and does not change. -/
structure Env where
  exe : Compile.Executable
  /-- How many blocks an invocation may run; zero stands for any number. -/
  maxSteps : Nat := 0
  /-- The caller has given up. -/
  cancelled : Bool := false
  /-- Blocks are recorded as they run. -/
  tracing : Bool := false
  deriving Inhabited

/-- Computations on the state of a running shader that may stop. -/
abbrev Exec := ExceptT Stop (StateM State)

namespace Exec

def fault (message : String) : Exec α := throw (.fault message)

/-- Records a trap and stops. -/
def trap (code : TrapCode) : Exec α := do
  modify fun s => { s with lane := { s.lane with stack := s.lane.stack.setTrap code } }
  throw (.trap code)

/-- The outcome of evaluation; a trap is recorded. -/
def ofExcept : Except Stop α → Exec α
  | .ok v => return v
  | .error (.trap code) => trap code
  | .error e => throw e

def value (env : Env) (e : Expr) : Exec Datum := do
  ofExcept (eval env.exe.layout (← get) e)

def values (env : Env) (es : List Expr) : Exec (List Datum) := do
  ofExcept (evalAll env.exe.layout (← get) es)

def assign (name : String) (v : Datum) : Exec Unit := do
  let s ← get
  match s.vars.set? name v with
  | some vars => set { s with vars }
  | none =>
    match s.privates.set? name v with
    | some privates => set { s with privates }
    | none => fault ("assignment to undefined variable " ++ Text.quote name)

def assignAll : List String → List Datum → Exec Unit
  | name :: names, v :: vs => do
    assign name v
    assignAll names vs
  | _, _ => return

def store (buffer : String) (idx v : UInt32) : Exec Unit := do
  let (r, i) ← ofExcept ((← get).lane.locate buffer idx)
  modify fun s => { s with lane := s.lane.setWord r i v }

/-- Stops if the caller has given up. -/
def checkCancelled (env : Env) : Exec Unit :=
  if env.cancelled then fault "context canceled" else return

/-- Accounts for a block that is about to run. -/
def dispatch (env : Env) (id : BlockId) : Exec Unit := do
  checkCancelled env
  modify fun s => { s with lane := { s.lane with steps := s.lane.steps + 1 } }
  let ln := (← get).lane
  if 0 < env.maxSteps && env.maxSteps < ln.steps then
    throw (.abort (.failed (.report
      { phase := .runtime, kind := .stepLimit
        detail := "lane " ++ toString ln.index ++ " exceeded " ++ toString env.maxSteps
          ++ " dispatches"
        value := some (toString env.maxSteps) })))
  if env.tracing then
    modify fun s =>
      { s with lane := { s.lane with trace := (id, s.lane.stack.sp) :: s.lane.trace } }

/-- The variables that a function starts with. -/
def frame (f : Shader.Function) (args : List Datum) : Vars :=
  (((f.params.map (·.name)).zip args) ++ f.locals.map fun v => (v.name, Datum.zero v.type)).reverse

/-- The results of a function that ended with a given flow. -/
def resultsOf (f : Shader.Function) : Flow → Exec (List Datum)
  | .ret values => return values
  | .next =>
    if f.results.isEmpty then return []
    else fault (f.name ++ ": fell off the end without returning")
  | .leave label => fault (f.name ++ ": 1 " ++ Text.quote label ++ " escaped the function")
  | .again label => fault (f.name ++ ": 2 " ++ Text.quote label ++ " escaped the function")

mutual

/-- Runs statements one after the other until one changes the flow. -/
def stmts (env : Env) : (fuel : Nat) → List Stmt → Exec Flow
  | 0, _ => throw .outOfFuel
  | _ + 1, [] => return .next
  | fuel + 1, s :: rest => do
    match ← stmt env fuel s with
    | .next => stmts env fuel rest
    | flow => return flow

def stmt (env : Env) : (fuel : Nat) → Stmt → Exec Flow
  | 0, _ => throw .outOfFuel
  | fuel + 1, s =>
    match s with
    | .assign name e => do
      assign name (← value env e)
      return .next
    | .store buffer index e => do
      let i ← value env index
      let v ← value env e
      store buffer i.x v.x
      return .next
    | .ifElse cond body alternative => do
      let c ← value env cond
      if c.truth then stmts env fuel body else stmts env fuel alternative
    | .block label body => do
      match ← stmts env fuel body with
      | .leave l => return if l = label then .next else .leave l
      | flow => return flow
    | .loop label body => loop env fuel label body
    | .leave label => return .leave label
    | .again label => return .again label
    | .switch selector cases fallback => do
      let v ← value env selector
      match cases.find? (·.values.contains v.x) with
      | some c => stmts env fuel c.body
      | none => stmts env fuel fallback
    | .ret es => return .ret (← values env es)
    | .call name args results => do
      match env.exe.module.function? name with
      | none => fault ("call to undefined function " ++ Text.quote name)
      | some f =>
        if let some id := env.exe.blockNamed? name then dispatch env id
        let got ← call env fuel f (← values env args)
        if got.length ≠ results.length then
          fault (name ++ " returned " ++ toString got.length ++ " values, want "
            ++ toString results.length)
        assignAll results got
        return .next
    | .trap code => trap ⟨code⟩
    | .absent => fault "unknown statement <nil>"

/-- Runs the body of a loop until it is left. -/
def loop (env : Env) : (fuel : Nat) → String → List Stmt → Exec Flow
  | 0, _, _ => throw .outOfFuel
  | fuel + 1, label, body => do
    match ← stmts env fuel body with
    | .leave l => if l = label then return .next else return .leave l
    | .again l =>
      if l = label then
        checkCancelled env
        loop env fuel label body
      else return .again l
    | .next =>
      checkCancelled env
      loop env fuel label body
    | .ret vs => return .ret vs

/-- Runs a function on arguments, with variables of its own. -/
def call (env : Env) : (fuel : Nat) → Shader.Function → List Datum → Exec (List Datum)
  | 0, _, _ => throw .outOfFuel
  | fuel + 1, f, args => do
    if args.length ≠ f.params.length then
      fault (f.name ++ ": " ++ toString args.length ++ " arguments, want "
        ++ toString f.params.length)
    let outer := (← get).vars
    modify fun s => { s with vars := frame f args }
    let flow ← stmts env fuel f.body
    modify fun s => { s with vars := outer }
    resultsOf f flow

end

end Exec

end WasmShader.Execution
