import WasmShader.Proofs.LaneAnswers
import WasmShader.Proofs.Isolation

/-!
# Sessions

A caller starts exports on lanes of an executor, goes on with what is suspended, answers requests, saves
lanes and restores them, on others too, and has hosts serve whole runs. Whatever the calls and their order,
each is answered in one of a few ways (`Executor.Answers`): the generated code never goes wrong
(`compile_never_goes_wrong`).
-/

namespace WasmShader

namespace Execution

/-! ## Calls and answers -/

/-- A call of an executor: of an operation on a lane, or of an export that a host serves to its end. -/
inductive Call : Type 1
  | perform (i : Int) (op : LaneOp)
  | run {σ : Type} (host? : Option (Host σ)) (memory : σ) (cancelled : Bool) (fuel : Nat) (i : Int)
      (symbol : Symbol) (args : List Value)

/-- What the caller sees of a call that does not fail. -/
inductive Shown
  | seen (s : Seen)
  | values (values : List Value)

theorem exists_entry_of_suspended {ln : Lane} (h : ln.isSuspended = true) : ∃ e, ln.entry = some e :=
  Option.isSome_iff_exists.mp (Bool.and_eq_true_iff.mp h).1

/-- The lane is suspended, and this is what it asks for. -/
def Lane.AsksFor (ln : Lane) (x : Compile.Executable) (request : Pending) : Prop :=
  ln.isSuspended = true ∧ x.hosts.pending ln.stack = .ok (some request)

namespace Call

/-- The number of the lane that is called. -/
def lane : Call → Int
  | .perform i _ => i
  | .run _ _ _ _ i _ _ => i

/-- What a call makes of its lane. -/
def on (x : Executor) : Call → Lane → OnLane Shown
  | .perform _ op, ln => (op.on x ln).map fun y => (y.1.map .seen, y.2)
  | .run host? memory cancelled fuel _ symbol args, ln =>
    (ln.run (x.env cancelled) host? fuel symbol args memory).map fun z => (z.1.map .values, z.2.1)

/-- A caller answers what the lane asks for while it is suspended, and restores what has been saved. -/
def Allowed (x : Executor) (saved : List Lane) : Call → Prop
  | .perform i (.complete request _) => ∀ ln, x.lane i = .ok ln → ln.AsksFor x.exe request
  | .perform _ (.restore state) => state ∈ saved
  | _ => True

end Call

/-- Makes a call. -/
def Executor.call (x : Executor) (c : Call) : Option (Except Abort Shown × Executor) :=
  x.onLane c.lane (c.on x)

theorem Executor.onLane_map {α β : Type} (x : Executor) (i : Int) (op : Lane → OnLane α) (view : α → β) :
    x.onLane i (fun ln => (op ln).map fun y => (y.1.map view, y.2))
      = (x.onLane i op).map fun y => (y.1.map view, y.2) := by
  rw [onLane, onLane]
  cases x.lane i with
  | error failure => rfl
  | ok ln =>
      dsimp only
      rw [Option.map_map, Option.map_map]
      rfl

theorem Executor.call_perform (x : Executor) (i : Int) (op : LaneOp) :
    x.call (.perform i op) = (x.perform i op).map fun y => (y.1.map .seen, y.2) :=
  x.onLane_map i (op.on x) Shown.seen

/-- Calls with ample fuel are the operations of executors. -/
theorem Executor.call_eq (x : Executor) (i : Int) (cancelled : Bool) :
    (∀ symbol args, x.call (.perform i (.invoke cancelled ampleFuel symbol args))
        = (x.invoke cancelled i symbol args).map fun y => ((y.1.map .outcome).map .seen, y.2))
      ∧ x.call (.perform i (.resume cancelled ampleFuel))
        = (x.resume cancelled i).map (fun y => ((y.1.map .outcome).map .seen, y.2))
      ∧ (∀ request results, x.call (.perform i (.complete request results))
        = (x.complete i request results).map fun y => ((y.1.map fun _ => .done).map .seen, y.2))
      ∧ ∀ {σ : Type} (host? : Option (Host σ)) memory symbol args,
        x.call (.run host? memory cancelled ampleFuel i symbol args)
          = (x.run host? cancelled i symbol args memory).map fun z => (z.1.map .values, z.2.1) := by
  refine ⟨fun symbol args => ?_, ?_, fun request results => ?_, fun host? memory symbol args => ?_⟩
  · rw [call_perform, perform]
    exact (congrArg _ (x.onLane_map i _ Seen.outcome)).trans (Option.map_map ..)
  · rw [call_perform, perform]
    exact (congrArg _ (x.onLane_map i _ Seen.outcome)).trans (Option.map_map ..)
  · rw [call_perform, perform]
    exact (congrArg _ (x.onLane_map i (fun ln => some (ln.complete x.exe request results))
      fun _ => Seen.done)).trans (Option.map_map ..)
  · rw [call, onLane, run]
    dsimp only [Call.lane]
    cases x.lane i with
    | error failure => rfl
    | ok ln =>
        dsimp only [Call.on]
        rw [Option.map_map, Option.map_map]
        rfl

/-- The states of lanes that an answer saves. -/
def statesIn : Except Abort Shown → List Lane
  | .ok (.seen (.state saved)) => [saved]
  | _ => []

/-- What an executor has come to by calls that are allowed, and the states that have been saved. -/
inductive Session (start : Executor) : Executor → List Lane → Prop
  | start : Session start start []
  | call {x x' : Executor} {saved : List Lane} {c : Call} {r : Except Abort Shown} :
      Session start x saved → c.Allowed x saved → x.call c = some (r, x') →
      Session start x' (statesIn r ++ saved)

/-- There is no such export, or it does not take such arguments. -/
inductive Refuses (x : Compile.Executable) (symbol : Symbol) (args : List Value) : Failure → Prop
  | unknown : x.entryFor? symbol = none →
      Refuses x symbol args (.notFound .runtime "export" (Text.quote symbol.text))
  | arguments {e : Compile.Entry} {failure : Failure} : x.entryFor? symbol = some e →
      Lane.checkArgs e args = .error failure → Refuses x symbol args failure

/-- How a call of an export is answered: it is refused, or it ends as its entry point does. -/
inductive CallsExport (x : Compile.Executable) (symbol : Symbol) (args : List Value) {α : Type}
    (Ends : Compile.Entry → Except Abort α → Prop) : Except Abort α → Prop
  | refused {failure : Failure} : Refuses x symbol args failure →
      CallsExport x symbol args Ends (Failure.raise failure)
  | ended {e : Compile.Entry} {r : Except Abort α} : x.entryFor? symbol = some e →
      Lane.checkArgs e args = .ok () → Ends e r → CallsExport x symbol args Ends r

/-- How a call of a lane is answered. -/
inductive Call.Answers (x : Executor) (ln : Lane) : Call → Except Abort Shown → Prop
  | invoke {i : Int} {cancelled : Bool} {fuel : Nat} {symbol : Symbol} {args : List Value}
      {r : Except Abort Outcome} : CallsExport x.exe symbol args ((x.env cancelled).Ends ln) r →
      Answers x ln (.perform i (.invoke cancelled fuel symbol args)) (r.map fun o => .seen (.outcome o))
  | resume {i : Int} {cancelled : Bool} {fuel : Nat} {e : Compile.Entry} {r : Except Abort Outcome} :
      ln.isSuspended = true → ln.entry = some e → (x.env cancelled).Ends ln e r →
      Answers x ln (.perform i (.resume cancelled fuel)) (r.map fun o => .seen (.outcome o))
  | idle {i : Int} {cancelled : Bool} {fuel : Nat} : ln.isSuspended = false →
      Answers x ln (.perform i (.resume cancelled fuel)) (Failure.raise (.invalidInput .runtime
        ("lane " ++ toString ln.index ++ " has no suspended invocation")))
  | complete {i : Int} {request : Pending} {results : List Value} :
      results.map (·.type) = request.func.results →
      Answers x ln (.perform i (.complete request results)) (.ok (.seen .done))
  | reject {i : Int} {request : Pending} {results : List Value} {failure : Failure} :
      HostTable.checkResults request.func results = .error failure →
      Answers x ln (.perform i (.complete request results)) (Failure.raise failure)
  | snapshot {i : Int} : Answers x ln (.perform i .snapshot) (.ok (.seen (.state ln.snapshot)))
  | restore {i : Int} {saved : Lane} : Answers x ln (.perform i (.restore saved)) (.ok (.seen .done))
  | run {σ : Type} {host? : Option (Host σ)} {memory : σ} {cancelled : Bool} {fuel : Nat} {i : Int}
      {symbol : Symbol} {args : List Value} {r : Except Abort (List Value)} :
      CallsExport x.exe symbol args ((x.env cancelled).ServedEnds host? symbol.text ln) r →
      Answers x ln (.run host? memory cancelled fuel i symbol args) (r.map .values)

/-- How a call is answered: there is no lane with the number, or as the lane answers. -/
def Executor.Answers (x : Executor) (c : Call) (r : Except Abort Shown) : Prop :=
  match x.lane c.lane with
  | .error failure => r = Failure.raise failure
  | .ok ln => c.Answers x ln r

/-! ## Calls without an answer -/

/-- A call of an export is refused, and then the lane stays as it is. -/
theorem refuses_or_takes (env : Env) (symbol : Symbol) (args : List Value) :
    (∃ failure, Refuses env.exe symbol args failure
      ∧ ∀ (n : Nat) (ln : Lane), ln.invoke env n symbol args = some (Failure.raise failure, ln))
    ∨ ∃ e, env.exe.entryFor? symbol = some e ∧ Lane.checkArgs e args = .ok () := by
  cases he : env.exe.entryFor? symbol with
  | none => exact .inl ⟨_, .unknown he, fun n ln => by rw [Lane.invoke, he]⟩
  | some e =>
      cases hargs : Lane.checkArgs e args with
      | error failure =>
          refine .inl ⟨failure, .arguments he hargs, fun n ln => ?_⟩
          rw [Lane.invoke, he]
          dsimp only
          rw [hargs]
      | ok u => exact .inr ⟨e, rfl, hargs⟩

/-- The result is not that of code that has gone wrong: it is no crash, and does not report a number on the
stack that is not that of a block. -/
def Faultless {α : Type} (r : Except Abort α) : Prop :=
  ∀ cause, r = .error cause →
    ∃ failure, cause = .failed failure ∧ failure.report?.map (·.kind) ≠ some .invalidBlock

section Faultless

variable {α β : Type} {x : Executor} {env : Env} {ln : Lane} {e : Compile.Entry} {failure : Failure}
  {c : Call} {r : Except Abort Shown}

theorem faultless_ok (a : α) : Faultless (.ok a : Except Abort α) := nofun

theorem faultless_raise (h : failure.report?.map (·.kind) ≠ some .invalidBlock) :
    Faultless (Failure.raise failure : Except Abort α) := by
  intro cause hcause
  cases hcause
  exact ⟨failure, rfl, h⟩

theorem Faultless.map {r : Except Abort α} (h : Faultless r) (view : α → β) : Faultless (r.map view) := by
  cases r with
  | ok a => exact faultless_ok _
  | error cause =>
      intro cause' hcause'
      cases hcause'
      exact h cause rfl

theorem Env.Ends.faultless {r : Except Abort Outcome} (h : env.Ends ln e r) : Faultless r := by
  cases h with
  | finished => exact faultless_ok _
  | yielded => exact faultless_ok _
  | @trapped code hcode =>
      have hkind : ∀ code ∈ TrapCode.lawful, some (Lane.trapKind code) ≠ some .invalidBlock := by decide
      exact faultless_raise (hkind code hcode)
  | limited hlimits => cases hlimits <;> exact faultless_raise nofun

theorem kind_of_checkArgs {args : List Value} (h : Lane.checkArgs e args = .error failure) :
    failure.report?.map (·.kind) ≠ some .invalidBlock := by
  unfold Lane.checkArgs at h
  dsimp only at h
  split at h
  · cases h
    exact nofun
  · split at h
    · cases h
      exact nofun
    · cases h

theorem kind_of_checkResults {func : HostFunc} {results : List Value}
    (h : HostTable.checkResults func results = .error failure) :
    failure.report?.map (·.kind) ≠ some .invalidBlock := by
  unfold HostTable.checkResults at h
  split at h
  · cases h
    exact nofun
  · split at h
    · cases h
      exact nofun
    · cases h

theorem Env.ServedEnds.faultless {σ : Type} {host? : Option (Host σ)} {name : String}
    {r : Except Abort (List Value)} (h : env.ServedEnds host? name ln e r) : Faultless r := by
  cases h with
  | values => exact faultless_ok _
  | failed hends =>
      intro cause hcause
      cases hcause
      exact hends.faultless _ rfl
  | unserved => exact faultless_raise nofun
  | hostFailed => exact faultless_raise nofun
  | refused _ _ _ hcheck => exact faultless_raise (kind_of_checkResults hcheck)

theorem CallsExport.faultless {exe : Compile.Executable} {symbol : Symbol} {args : List Value}
    {Ends : Compile.Entry → Except Abort α → Prop} {r : Except Abort α}
    (h : CallsExport exe symbol args Ends r) (hends : ∀ e r, Ends e r → Faultless r) :
    Faultless r := by
  cases h with
  | refused hrefuses =>
      cases hrefuses with
      | unknown => exact faultless_raise nofun
      | arguments _ hargs => exact faultless_raise (kind_of_checkArgs hargs)
  | ended _ _ hr => exact hends _ _ hr

theorem Call.Answers.faultless (h : c.Answers x ln r) : Faultless r := by
  cases h with
  | invoke hexport => exact (hexport.faultless fun _ _ => Env.Ends.faultless).map _
  | resume _ _ hends => exact hends.faultless.map _
  | idle => exact faultless_raise nofun
  | complete => exact faultless_ok _
  | reject hcheck => exact faultless_raise (kind_of_checkResults hcheck)
  | snapshot => exact faultless_ok _
  | restore => exact faultless_ok _
  | run hexport => exact (hexport.faultless fun _ _ => Env.ServedEnds.faultless).map _

/-- Every answer is without fault. -/
theorem Executor.Answers.faultless (h : x.Answers c r) : Faultless r := by
  unfold Executor.Answers Executor.lane at h
  split at h
  · next hlane =>
    subst h
    split at hlane
    · cases hlane
    · cases hlane
      exact faultless_raise nofun
  · exact Call.Answers.faultless h

end Faultless

end Execution

namespace Compile

open Execution

section Lanes

variable {p : Program} {plan : Plan} {out : Compiled} {x : Executor} {ln : Lane} {c : Call}

/-- What a call makes of a steady lane: it is answered as it may be, and the lane is steady again, as is what
has been saved. A request that is told is what the lane asks for. -/
structure Compiled.Answered (out : Compiled) (frames : List Frames) (x : Executor) (ln : Lane) (c : Call)
    (y : Except Abort Shown × Lane) : Prop where
  answers : c.Answers x ln y.1
  steady : out.Steady frames y.2
  index : y.2.index = ln.index
  saved : ∀ state ∈ statesIn y.1, out.Steady frames state
  asks : ∀ request steps, y.1 = .ok (.seen (.outcome (.yielded request steps))) →
    y.2.AsksFor out.toExecutable request

theorem Compiled.Ran.asksFor {frames : List Frames} {env : Env} {e : Entry}
    {y : Except Abort Outcome × Lane} (h : out.Ran frames env e ln y) {request : Pending} {steps : Nat}
    (hresult : y.1 = .ok (.yielded request steps)) : y.2.AsksFor out.toExecutable request := by
  obtain ⟨hentry, hpending⟩ := h.waits request steps hresult
  refine ⟨?_, hpending⟩
  rw [Lane.isSuspended, hentry]
  exact decide_eq_true (sp_of_pending hpending)

/-- A call of an export on a steady lane is refused, or ends as the entry point may. -/
theorem IsBuild.invoke_exported (h : IsBuild p plan out) {env : Env} (henv : env.exe = out.toExecutable)
    (hsteady : out.Steady plan.frames ln) (hplace : Fits out.toExecutable ln.index) {n : Nat}
    {symbol : Symbol} {args : List Value} {y : Except Abort Outcome × Lane}
    (hy : ln.invoke env n symbol args = some y) :
    CallsExport env.exe symbol args (env.Ends ln) y.1 ∧ out.Steady plan.frames y.2
      ∧ y.2.index = ln.index ∧ ∀ request steps, y.1 = .ok (.yielded request steps) →
        y.2.AsksFor out.toExecutable request := by
  rcases refuses_or_takes env symbol args with ⟨failure, hrefuses, hinvoke⟩ | ⟨e, he, hargs⟩
  · rw [hinvoke] at hy
    cases hy
    exact ⟨.refused hrefuses, hsteady, rfl, nofun⟩
  · have hran := h.invoke henv hsteady hplace (by rw [← henv]; exact he) hargs hy
    exact ⟨.ended he hargs hran.ends, hran.steady, hran.index, fun _ _ => hran.asksFor⟩

/-- A run of an export on a steady lane is refused, or ends as one that is served may. -/
theorem IsBuild.run_exported (h : IsBuild p plan out) {env : Env} (henv : env.exe = out.toExecutable)
    (hsteady : out.Steady plan.frames ln) (hplace : Fits out.toExecutable ln.index) {n : Nat}
    {symbol : Symbol} {args : List Value} {σ : Type} {host? : Option (Host σ)} {memory : σ}
    {z : Except Abort (List Value) × Lane × σ} (hz : ln.run env host? n symbol args memory = some z) :
    CallsExport env.exe symbol args (env.ServedEnds host? symbol.text ln) z.1
      ∧ out.Steady plan.frames z.2.1 ∧ z.2.1.index = ln.index := by
  rcases refuses_or_takes env symbol args with ⟨failure, hrefuses, hinvoke⟩ | ⟨e, he, hargs⟩
  · rw [Lane.run, hinvoke] at hz
    cases n with
    | zero => cases hz
    | succ n =>
        cases hz
        exact ⟨.refused hrefuses, hsteady, rfl⟩
  · obtain ⟨hends, hsteady', hindex⟩ :=
      h.run henv hsteady hplace (by rw [← henv]; exact he) hargs hz
    exact ⟨.ended he hargs hends, hsteady', hindex⟩

theorem answered_of_outcome {frames : List Frames} {r : Except Abort Outcome} {ln' : Lane}
    (hanswers : c.Answers x ln (r.map fun o => .seen (.outcome o))) (hsteady : out.Steady frames ln')
    (hindex : ln'.index = ln.index) (hasks : ∀ request steps, r = .ok (.yielded request steps) →
      ln'.AsksFor out.toExecutable request) :
    out.Answered frames x ln c ((r.map Seen.outcome).map .seen, ln') where
  answers := by cases r <;> exact hanswers
  steady := hsteady
  index := hindex
  saved := by cases r <;> exact List.forall_mem_nil _
  asks request steps hresult := by
    cases r with
    | error cause => cases hresult
    | ok o =>
        cases hresult
        exact hasks request steps rfl

/-- A steady lane answers every call that is allowed. -/
theorem IsBuild.answered (h : IsBuild p plan out) (hexe : x.exe = out.toExecutable)
    (hsteady : out.Steady plan.frames ln) (hplace : Fits out.toExecutable ln.index)
    {saved : List Lane} (hsaved : ∀ state ∈ saved, out.Steady plan.frames state)
    (hlane : x.lane c.lane = .ok ln) (hallowed : c.Allowed x saved) {y : Except Abort Shown × Lane}
    (hy : c.on x ln = some y) : out.Answered plan.frames x ln c y := by
  have henv (cancelled : Bool) : (x.env cancelled).exe = out.toExecutable := hexe
  cases c with
  | run host? memory cancelled fuel i symbol args =>
      obtain ⟨⟨r, ln', memory'⟩, hz, rfl⟩ := Option.map_eq_some_iff.mp hy
      obtain ⟨hexport, hsteady', hindex⟩ := h.run_exported (henv cancelled) hsteady hplace hz
      exact ⟨.run hexport, hsteady', hindex, by cases r <;> exact List.forall_mem_nil _,
        fun _ _ hresult => by cases r <;> cases hresult⟩
  | perform i op =>
      obtain ⟨z, hz, rfl⟩ := Option.map_eq_some_iff.mp hy
      cases op with
      | invoke cancelled fuel symbol args =>
          obtain ⟨⟨r, ln'⟩, hinvoke, rfl⟩ := Option.map_eq_some_iff.mp hz
          obtain ⟨hexport, hsteady', hindex, hasks⟩ :=
            h.invoke_exported (henv cancelled) hsteady hplace hinvoke
          exact answered_of_outcome (.invoke hexport) hsteady' hindex hasks
      | resume cancelled fuel =>
          obtain ⟨⟨r, ln'⟩, hresume, rfl⟩ := Option.map_eq_some_iff.mp hz
          cases hsuspended : ln.isSuspended with
          | false =>
              rw [Lane.resume, hsuspended] at hresume
              cases hresume
              exact ⟨.idle hsuspended, hsteady, rfl, List.forall_mem_nil _,
                fun _ _ hresult => by cases hresult⟩
          | true =>
              obtain ⟨e, hentry⟩ := exists_entry_of_suspended hsuspended
              have hran := h.resume (henv cancelled) hsteady hplace hentry hsuspended hresume
              exact answered_of_outcome (.resume hsuspended hentry hran.ends) hran.steady hran.index
                fun _ _ => hran.asksFor
      | complete request results =>
          obtain ⟨hsuspended, hpending⟩ := hallowed ln hlane
          rw [hexe] at hpending
          rw [LaneOp.on, hexe, Option.some.injEq] at hz
          subst hz
          cases hcheck : HostTable.checkResults request.func results with
          | error failure =>
              rw [complete_of_refused hcheck]
              exact ⟨.reject hcheck, hsteady, rfl, List.forall_mem_nil _,
                fun _ _ hresult => by cases hresult⟩
          | ok u =>
              have htypes := HostTable.checkResults_eq_ok_iff.mp hcheck
              obtain ⟨e, hentry⟩ := exists_entry_of_suspended hsuspended
              obtain ⟨ln', hcomplete, hsteady', hindex, -⟩ :=
                h.complete hsteady hentry hpending htypes
              rw [hcomplete]
              exact ⟨.complete htypes, hsteady', hindex, List.forall_mem_nil _,
                fun _ _ hresult => by cases hresult⟩
      | snapshot =>
          cases hz
          exact ⟨.snapshot, hsteady, rfl, List.forall_mem_singleton.mpr (hsteady.moved 0 []),
            fun _ _ hresult => by cases hresult⟩
      | restore state =>
          cases hz
          exact ⟨.restore, hsteady.restore (hsaved state hallowed), rfl, List.forall_mem_nil _,
            fun _ _ hresult => by cases hresult⟩

end Lanes

/-! ## Executors -/

/-- An executor of a compiled module in a session: its lanes are steady, and so is what has been saved. -/
structure Compiled.Serving (out : Compiled) (frames : List Frames) (x : Executor) (saved : List Lane) :
    Prop where
  exe : x.exe = out.toExecutable
  ready : x.Ready
  addressed : x.Addressed
  lanes : ∀ ln ∈ x.lanes, out.Steady frames ln
  saved : ∀ state ∈ saved, out.Steady frames state

section Executors

variable {config : Config} {p : Program} {plan : Plan} {out : Compiled} {frames : List Frames}
  {x x' : Executor} {saved : List Lane} {c : Call} {r : Except Abort Shown}

theorem exists_of_lane {i : Int} {ln : Lane} (h : x.lane i = .ok ln) :
    ∃ k : Nat, x.lanes[k]? = some ln ∧ i = k := by
  unfold Executor.lane at h
  split at h
  · next hfound =>
    cases h
    split at hfound
    · cases hfound
    · exact ⟨i.toNat, hfound, by omega⟩
  · cases h

/-- All lanes can be addressed: one alone because the sizes of its regions are numbers of 32 bits. -/
theorem IsBuild.fits (h : IsBuild p plan out) (hexe : x.exe = out.toExecutable)
    (haddressed : x.Addressed) {k : Nat} (hk : k < x.lanes.length) : Fits out.toExecutable k := by
  by_cases hfirst : k = 0
  · rw [hfirst]
    exact fits_first h.limit
  · rw [← hexe]
    exact haddressed.fits hk (Nat.zero_lt_of_lt hk) hfirst

/-- A call is answered as it may be, and the session goes on. -/
theorem IsBuild.call (h : IsBuild p plan out) (hserving : out.Serving plan.frames x saved)
    (hallowed : c.Allowed x saved) (hcall : x.call c = some (r, x')) :
    x.Answers c r ∧ out.Serving plan.frames x' (statesIn r ++ saved)
      ∧ ∀ request steps, r = .ok (.seen (.outcome (.yielded request steps))) → ∀ ln,
        x'.lane c.lane = .ok ln → ln.AsksFor out.toExecutable request := by
  rw [Executor.call, Executor.onLane] at hcall
  rw [Executor.Answers]
  cases hlane : x.lane c.lane with
  | error failure =>
      rw [hlane] at hcall
      cases hcall
      exact ⟨rfl, hserving, fun _ _ hresult => by cases hresult⟩
  | ok ln =>
      rw [hlane] at hcall
      obtain ⟨y, hy, heq⟩ := Option.map_eq_some_iff.mp hcall
      cases heq
      obtain ⟨k, hk, hcalled⟩ := exists_of_lane hlane
      obtain ⟨hindex, hsized⟩ := hserving.ready k ln hk
      have hsteady := hserving.lanes ln (List.mem_of_getElem? hk)
      have hplace := h.fits hserving.exe hserving.addressed (List.getElem?_eq_some_iff.mp hk).1
      obtain ⟨hanswers, hsteady', hindex', hstates, hasks⟩ := h.answered hserving.exe hsteady
        (by rw [hindex]; exact hplace) hserving.saved hlane hallowed hy
      have hkeeps := hserving.ready.putLane (hindex'.trans hindex) (by
        rw [hserving.exe]
        exact hsteady'.sized)
      refine ⟨hanswers, ⟨hkeeps.exe.trans hserving.exe, hkeeps.ready,
        hkeeps.toFollows.addressed hserving.addressed, fun ln' hln' => ?_, fun state hstate => ?_⟩,
        fun request steps hresult ln' hln' => ?_⟩
      · rcases List.mem_or_eq_of_mem_set hln' with hother | rfl
        · exact hserving.lanes ln' hother
        · exact hsteady'
      · rcases List.mem_append.mp hstate with hnew | hold
        · exact hstates state hnew
        · exact hserving.saved state hold
      · have hput := (Executor.lanes_putLane x y.2 (hindex'.trans hindex)).1
          (List.getElem?_eq_some_iff.mp hk).1
        rw [hcalled, Executor.lane_eq hput] at hln'
        cases hln'
        exact hasks request steps hresult

/-- Every executor that a session comes to serves. -/
theorem IsBuild.session (h : IsBuild p plan out) {start : Executor}
    (hserving : out.Serving plan.frames start []) (hsession : Session start x saved) :
    out.Serving plan.frames x saved := by
  induction hsession with
  | start => exact hserving
  | call _ hallowed hcall ih => exact (h.call ih hallowed hcall).2.1

def answering (request : Pending) : Call := .perform 0 (.complete request [.ofI32 5])

end Executors

end Compile

end WasmShader
