import WasmShader.Execution.Invocation

/-!
# Executors

An executor holds the lanes of a compiled module and runs invocations on them. No
lane sees the words of another.
-/

namespace WasmShader.Execution

structure Settings where
  /-- The number of lanes; zero stands for one. -/
  lanes : Nat := 1
  /-- How many blocks an invocation may run; zero stands for any number. -/
  maxSteps : Nat := 0
  /-- Blocks are recorded as they run. -/
  tracing : Bool := false
  deriving DecidableEq, Repr, Inhabited

structure Executor where
  exe : Compile.Executable
  settings : Settings
  lanes : List Lane
  deriving Inhabited

namespace Executor

/-- A bound on the evaluation of an invocation that none in practice reaches. -/
def ampleFuel : Nat := 0x1000000000000

def new (exe? : Option Compile.Executable) (settings : Settings) : Except Failure Executor :=
  match exe? with
  | none => .error (.invalidInput .runtime "no compiled module")
  | some exe => .ok ⟨exe, settings, (List.range (max 1 settings.lanes)).map (Lane.new exe)⟩

/-- What invocations refer to; a caller that has given up cancels them. -/
def env (x : Executor) (cancelled : Bool) : Env :=
  { exe := x.exe, maxSteps := x.settings.maxSteps, cancelled, tracing := x.settings.tracing }

def lane (x : Executor) (i : Int) : Except Failure Lane :=
  match if i < 0 then none else x.lanes[i.toNat]? with
  | some ln => .ok ln
  | none =>
    .error (.invalidInput .runtime
      ("lane " ++ toString i ++ " of " ++ toString x.lanes.length))

def putLane (x : Executor) (ln : Lane) : Executor := { x with lanes := x.lanes.set ln.index ln }

/-- Runs an operation on a lane. -/
def onLane (x : Executor) (i : Int) (op : Lane → OnLane α) :
    Option (Except Abort α × Executor) :=
  match x.lane i with
  | .error e => some (Failure.raise e, x)
  | .ok ln => (op ln).map fun (r, ln) => (r, x.putLane ln)

/-- Starts an export on a lane. -/
def invoke (x : Executor) (cancelled : Bool) (i : Int) (symbol : Symbol) (args : List Value) :
    Option (Except Abort Outcome × Executor) :=
  x.onLane i fun ln => ln.invoke (x.env cancelled) ampleFuel symbol args

def resume (x : Executor) (cancelled : Bool) (i : Int) : Option (Except Abort Outcome × Executor) :=
  x.onLane i fun ln => ln.resume (x.env cancelled) ampleFuel

def complete (x : Executor) (i : Int) (p : Pending) (results : List Value) :
    Option (Except Abort Unit × Executor) :=
  x.onLane i fun ln => some (ln.complete x.exe p results)

/-- Invokes an export on a lane and answers its requests until it ends. -/
def run (x : Executor) (host? : Option (Host σ)) (cancelled : Bool) (i : Int) (symbol : Symbol)
    (args : List Value) (h : σ) : Option (Except Abort (List Value) × Executor × σ) :=
  match x.lane i with
  | .error e => some (Failure.raise e, x, h)
  | .ok ln =>
    (ln.run (x.env cancelled) host? ampleFuel symbol args h).map fun (r, ln, h) =>
      (r, x.putLane ln, h)

/-- Runs an export on the lanes from number `i` on, one for each list of
arguments. -/
def runFrom (host? : Option (Host σ)) (cancelled : Bool) (symbol : Symbol) :
    (x : Executor) → (i : Nat) → List (List Value) → σ →
    Option (List (Except Abort (List Value)) × Executor × σ)
  | x, _, [], h => some ([], x, h)
  | x, i, args :: rest, h => do
    let (r, x, h) ← x.run host? cancelled i symbol args h
    let (rs, x, h) ← runFrom host? cancelled symbol x (i + 1) rest h
    return (r :: rs, x, h)

/-- Runs an export on the first lanes, one for each list of arguments. -/
def runLanes (x : Executor) (host? : Option (Host σ)) (cancelled : Bool) (symbol : Symbol)
    (lists : List (List Value)) (h : σ) :
    Option (Except Failure (List (Except Abort (List Value))) × Executor × σ) :=
  if x.lanes.length < lists.length then
    some (.error (.invalidInput .runtime
      (toString lists.length ++ " argument lists for " ++ toString x.lanes.length ++ " lanes")),
      x, h)
  else (runFrom host? cancelled symbol x 0 lists h).map fun (rs, x, h) => (.ok rs, x, h)

/-- Drops the records of the blocks run so far. -/
def clearTraces (x : Executor) : Executor :=
  { x with lanes := x.lanes.map fun ln => { ln with trace := [] } }

end Executor

end WasmShader.Execution
