/-!
# Failures

What every stage reports when it cannot go on. A `Report` is a structured
failure: the phase of the pipeline it arose in, its kind, and where it applies
the function, the path inside the module, a sentence of detail and the
offending quantity. A `Failure` is a report or a bare message, possibly with
the failure that caused it. `Failure.message` is the one place that writes
failures as text.

An `Abort` adds the second way a computation can end badly: a `crashed`
computation broke an assumption of its own (an operand stack with too few
entries, an immediate of the wrong kind), which is never the answer to a
well-formed request.
-/

namespace WasmShader

/-- The stage of the pipeline a failure arose in. -/
inductive Phase
  | parse
  | program
  | graph
  | analyze
  | split
  | layout
  | emit
  | runtime
  /-- A phase named by the caller; the empty name stands for any phase. -/
  | other (name : String)
  deriving DecidableEq, Repr, Inhabited

def Phase.name : Phase → String
  | .parse => "parse"
  | .program => "program"
  | .graph => "graph"
  | .analyze => "analyze"
  | .split => "split"
  | .layout => "layout"
  | .emit => "emit"
  | .runtime => "runtime"
  | .other name => name

def Phase.ofName : String → Phase
  | "parse" => .parse
  | "program" => .program
  | "graph" => .graph
  | "analyze" => .analyze
  | "split" => .split
  | "layout" => .layout
  | "emit" => .emit
  | "runtime" => .runtime
  | name => .other name

/-- What went wrong, as a category callers can match on. -/
inductive Kind
  | malformed
  | typeMismatch
  | unsupported
  | capacity
  | notFound
  | invalidInput
  | trap
  | stackOverflow
  | invalidBlock
  | host
  | stepLimit
  /-- A category named by the caller. -/
  | other (name : String)
  deriving DecidableEq, Repr, Inhabited

def Kind.name : Kind → String
  | .malformed => "malformed"
  | .typeMismatch => "type_mismatch"
  | .unsupported => "unsupported"
  | .capacity => "capacity"
  | .notFound => "not_found"
  | .invalidInput => "invalid_input"
  | .trap => "trap"
  | .stackOverflow => "stack_overflow"
  | .invalidBlock => "invalid_block"
  | .host => "host"
  | .stepLimit => "step_limit"
  | .other name => name

def Kind.ofName : String → Kind
  | "malformed" => .malformed
  | "type_mismatch" => .typeMismatch
  | "unsupported" => .unsupported
  | "capacity" => .capacity
  | "not_found" => .notFound
  | "invalid_input" => .invalidInput
  | "trap" => .trap
  | "stack_overflow" => .stackOverflow
  | "invalid_block" => .invalidBlock
  | "host" => .host
  | "step_limit" => .stepLimit
  | name => .other name

/-- A structured failure. Empty texts and an empty path are absent. -/
structure Report where
  phase : Phase
  kind : Kind
  /-- The offending function. -/
  func : String := ""
  /-- The location inside the module, outermost first. -/
  path : List String := []
  detail : String := ""
  /-- The offending quantity, as text. -/
  value : Option String := none
  deriving DecidableEq, Repr, Inhabited

namespace Report

/-- The text of a report without its cause. -/
def message (r : Report) : String :=
  "[" ++ r.phase.name ++ "] " ++ r.kind.name
    ++ (if r.func = "" then "" else " in " ++ r.func)
    ++ (if r.path.isEmpty then "" else " at " ++ ".".intercalate r.path)
    ++ (if r.detail = "" then "" else ": " ++ r.detail)

/-- A report matches a target of the same kind, in the target's phase if it
names one. -/
def matchesTarget (r target : Report) : Bool :=
  (target.phase == .other "" || target.phase == r.phase) && r.kind == target.kind

/-- All but unsupported constructs abort the whole module; those are confined
to one function and can be skipped. -/
def fatal (r : Report) : Bool :=
  r.kind != .unsupported

/-- A target that matches its kind in every phase. -/
def anyPhase (kind : Kind) : Report :=
  { phase := .other "", kind }

end Report

/-- Why a computation has no result. -/
inductive Failure
  /-- A bare message. -/
  | plain (text : String)
  /-- A note on where `cause` arose, written in front of it. -/
  | noted (note : String) (cause : Failure)
  | report (r : Report)
  | caused (r : Report) (cause : Failure)
  deriving DecidableEq, Repr, Inhabited

namespace Failure

/-- The text of a failure: notes in front of their cause, causes of a report
behind it in brackets. -/
def message : Failure → String
  | .plain text => text
  | .noted note cause => note ++ ": " ++ cause.message
  | .report r => r.message
  | .caused r cause => r.message ++ " (caused by: " ++ cause.message ++ ")"

/-- The outermost report, if the failure is one. -/
def report? : Failure → Option Report
  | .report r | .caused r _ => some r
  | .plain _ | .noted _ _ => none

/-- The failure directly behind this one. -/
def cause? : Failure → Option Failure
  | .noted _ cause | .caused _ cause => some cause
  | .plain _ | .report _ => none

/-- Some report along the chain of causes has the given kind. -/
def hasKind (kind : Kind) : Failure → Bool
  | .plain _ => false
  | .noted _ cause => cause.hasKind kind
  | .report r => r.kind == kind
  | .caused r cause => r.kind == kind || cause.hasKind kind

/-- The module itself is at fault: it is malformed or ill-typed. -/
def isMalformed (f : Failure) : Bool :=
  f.hasKind .malformed || f.hasKind .typeMismatch

/-- A construct outside the supported subset is involved. -/
def isUnsupported (f : Failure) : Bool :=
  f.hasKind .unsupported

/-- A resource limit was exceeded. -/
def isCapacity (f : Failure) : Bool :=
  f.hasKind .capacity

/-! ## Common reports -/

def malformed (phase : Phase) (detail : String) : Failure :=
  .report { phase, kind := .malformed, detail }

/-- A value of type `got` stands where one of type `want` is needed. -/
def typeMismatch (phase : Phase) (func want got : String) : Failure :=
  .report { phase, kind := .typeMismatch, func, detail := "expected " ++ want ++ ", got " ++ got }

/-- A call to a function index outside the `count` functions of the module. -/
def danglingCall (func : String) (target : Nat) (count : Int) : Failure :=
  .report
    { phase := .graph, kind := .malformed, func,
      detail := s!"call target {target} out of range ({count} functions)",
      value := some (toString target) }

/-- A construct outside the supported subset, confined to `func`. -/
def unsupported (phase : Phase) (func what : String) : Failure :=
  .report { phase, kind := .unsupported, func, detail := what }

/-- `what` needs more than its limit allows. -/
def capacity (phase : Phase) (what : String) (need limit : Nat) : Failure :=
  .report
    { phase, kind := .capacity, detail := s!"{what} requires {need}, limit {limit}",
      value := some (toString need) }

/-- There is no `what` with a name; the name is given quoted. -/
def notFound (phase : Phase) (what quoted : String) : Failure :=
  .report { phase, kind := .notFound, detail := what ++ " " ++ quoted ++ " not found" }

def invalidInput (phase : Phase) (detail : String) : Failure :=
  .report { phase, kind := .invalidInput, detail }

/-- Puts a report in front of a failure. -/
def wrap (phase : Phase) (kind : Kind) (cause : Failure) (detail : String) : Failure :=
  .caused { phase, kind, detail } cause

/-- Reading `what` failed with `cause`. -/
def parseFailed (what : String) (cause : Failure) : Failure :=
  .caused { phase := .parse, kind := .malformed, detail := "parse " ++ what } cause

end Failure

/-- How a computation without a result ended. -/
inductive Abort
  | failed (cause : Failure)
  /-- An assumption of the computation itself was broken. -/
  | crashed (message : Option String)
  deriving DecidableEq, Repr, Inhabited

namespace Abort

/-- A crash without a message of its own: an access outside a list or an
immediate of the wrong kind. -/
def outOfBounds : Abort := .crashed none

end Abort

/-- A failure as the outcome of a computation that may also crash. -/
def Failure.raise (f : Failure) : Except Abort α :=
  .error (.failed f)

/-- A computation that can only fail, as one that may also crash. -/
def liftFailure (x : Except Failure α) : Except Abort α :=
  x.mapError .failed

/-- The entry of a list at an index, or a crash. -/
def entry (xs : List α) (i : Nat) : Except Abort α :=
  match xs[i]? with
  | some x => .ok x
  | none => .error .outOfBounds

end WasmShader
