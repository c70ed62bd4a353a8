import WasmShader.Emit.Dispatch
import WasmShader.Execution.Exec

/-!
# Invocations

An invocation calls an entry point on one lane. It ends with the values of the
results, with a trap or a failure, or with a request to the host; the lane is then
suspended, and goes on when the request has been answered. `none` stands for a
run that did not end within its fuel.
-/

namespace WasmShader.Execution

open Compile (Entry)

/-- How a run of a lane ended without a failure. -/
inductive Outcome
  | finished (values : List Value) (steps : Nat)
  /-- The lane waits for the host. -/
  | yielded (request : Pending) (steps : Nat)
  deriving DecidableEq, Repr, Inhabited

/-- The result of an operation on a lane, and the lane behind it. -/
abbrev OnLane (α : Type) := Option (Except Abort α × Lane)

namespace Lane

/-- The lane without the invocation that was under way. -/
def abandon (ln : Lane) : Lane := { ln with entry := none }

/-- The export that was called. -/
def exportName (ln : Lane) : String := (ln.entry.map (·.name)).getD ""

/-- The kind of failure that a trap is. -/
def trapKind (code : TrapCode) : Kind :=
  if code = .stackOverflow then .stackOverflow
  else if code = .invalidBlock then .invalidBlock
  else .trap

/-- The failure of an invocation that trapped. -/
def trapFailure (ln : Lane) (code : TrapCode) : Failure :=
  .report
    { phase := .runtime, kind := trapKind code, func := ln.exportName
      detail := "lane " ++ toString ln.index ++ ": " ++ code.text
      value := some (toString code.code.toNat) }

/-- Ends an invocation with a failure. A crash leaves everything as it is. -/
def failWith (ln : Lane) : Abort → Except Abort α × Lane
  | .failed e => (.error (.failed e), ln.abandon)
  | .crashed message => (.error (.crashed message), ln)

/-- Ends an invocation that stopped. -/
def stopWith (ln : Lane) : Stop → OnLane α
  | .trap code => some (ln.failWith (.failed (ln.trapFailure code)))
  | .abort e => some (ln.failWith e)
  | .outOfFuel => none

/-- Ends an invocation whose code has ended: a recorded trap, a request, or
results in the io words. -/
def settle (x : Compile.Executable) (ln : Lane) : Except Abort Outcome × Lane :=
  if ln.stack.trap ≠ .none then ln.failWith (.failed (ln.trapFailure ln.stack.trap))
  else match x.hosts.pending ln.stack with
    | .error e => ln.failWith e
    | .ok (some p) => (.ok (.yielded p ln.steps), ln)
    | .ok none =>
      match ln.entry with
      | none => (.error .outOfBounds, ln)
      | some e =>
        match x.layout.decodeAll e.sig.results ln.io.toList with
        | .error e => ln.failWith e
        | .ok values => (.ok (.finished values ln.steps), ln.abandon)

/-- Runs a function of the module. -/
def enter (env : Env) (fuel : Nat) (ln : Lane) (name : String) : OnLane Outcome :=
  match env.exe.module.function? name with
  | none => some (Failure.raise (.notFound .runtime "function" (Text.quote name)), ln)
  | some f =>
    let privates := (env.exe.module.privates.map fun v => (v.name, Datum.zero v.type)).reverse
    match (Exec.call env fuel f []).run.run { lane := ln, privates } with
    | (.error stop, s) => s.lane.stopWith stop
    | (.ok _, s) => some (settle env.exe s.lane)

/-- The arguments have the number and types that an entry point takes. -/
def checkArgs (e : Entry) (args : List Value) : Except Failure Unit :=
  let params := e.sig.params
  if args.length ≠ params.length then
    .error (.report
      { phase := .runtime, kind := .invalidInput, func := e.name
        detail := toString args.length ++ " arguments, want " ++ toString params.length })
  else match (params.zip args).find? fun (t, v) => v.type ≠ t with
    | some (t, v) => .error (.typeMismatch .runtime e.name t.name v.type.name)
    | none => .ok ()

/-- Starts an export on arguments, whatever the lane did before. -/
def invoke (env : Env) (fuel : Nat) (ln : Lane) (symbol : Symbol) (args : List Value) :
    OnLane Outcome :=
  match env.exe.entryFor? symbol with
  | none => some (Failure.raise (.notFound .runtime "export" (Text.quote symbol.text)), ln)
  | some e =>
    match checkArgs e args with
    | .error e => some (Failure.raise e, ln)
    | .ok _ =>
      let cleared := Array.replicate ln.io.size 0
      match env.exe.layout.encodeAll args with
      | .error e => some (.error e, { ln with io := cleared })
      | .ok words =>
        let io := overwrite cleared words.toArray
        { ln with io, entry := some e, steps := 0 }.enter env fuel e.shader

def resume (env : Env) (fuel : Nat) (ln : Lane) : OnLane Outcome :=
  if ln.isSuspended then ln.enter env fuel Emit.resumeName
  else some (Failure.raise (.invalidInput .runtime
    ("lane " ++ toString ln.index ++ " has no suspended invocation")), ln)

def complete (x : Compile.Executable) (ln : Lane) (p : Pending) (results : List Value) :
    Except Abort Unit × Lane :=
  let (outcome, stack) := x.hosts.complete p results ln.stack
  (outcome, { ln with stack })

end Lane

/-- A host: what it answers a lane that asks for a function, and what it
remembers. -/
structure Host (σ : Type) where
  call : σ → (lane : Nat) → HostFunc → List Value → Except Failure (List Value) × σ

namespace Lane

/-- The failure of a request with no host to answer it. -/
def noHost (name : String) (p : Pending) : Failure :=
  .report
    { phase := .runtime, kind := .host, func := name
      detail := "no host to run " ++ p.func.name }

/-- Answers the requests of an invocation of an export until it ends. -/
def serve (env : Env) (host? : Option (Host σ)) (name : String) :
    (fuel : Nat) → Except Abort Outcome → Lane → σ → Option (Except Abort (List Value) × Lane × σ)
  | 0, _, _, _ => none
  | _ + 1, .error e, ln, h => some (.error e, ln, h)
  | _ + 1, .ok (.finished values _), ln, h => some (.ok values, ln, h)
  | fuel + 1, .ok (.yielded p _), ln, h =>
    match host? with
    | none => some (Failure.raise (noHost name p), ln, h)
    | some host =>
      match host.call h ln.index p.func p.args with
      | (.error e, h) =>
        some (Failure.raise (.wrap .runtime .host e p.func.name), ln.abandon, h)
      | (.ok results, h) =>
        match ln.complete env.exe p results with
        | (.error e, ln) => some (.error e, ln, h)
        | (.ok _, ln) => do
          let (outcome, ln) ← ln.resume env fuel
          serve env host? name fuel outcome ln h

/-- Invokes an export and answers its requests until it ends. -/
def run (env : Env) (host? : Option (Host σ)) (fuel : Nat) (ln : Lane) (symbol : Symbol)
    (args : List Value) (h : σ) : Option (Except Abort (List Value) × Lane × σ) := do
  let (outcome, ln) ← ln.invoke env fuel symbol args
  serve env host? symbol.text fuel outcome ln h

end Lane

end WasmShader.Execution
