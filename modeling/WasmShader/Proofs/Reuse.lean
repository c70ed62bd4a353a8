import WasmShader.Proofs.LanesInStep
import WasmShader.Proofs.Suspension

/-!
# Lanes used again

What a lane did before makes no difference to an invocation: not the words of its stack, its stack
pointer and its trap word included, not its io words, not an invocation that was left behind, nor its
number of steps. Two states of a lane with the same globals are brought to the same point when an
invocation starts (`invoke_same`), and stay in step from there on, whatever the caller does
(`Lane.InStep.follow`) and whatever a host answers (`SameStop.serve`).
-/

namespace WasmShader

namespace Execution

open Compile Emit

/-! ## What the caller of a lane sees -/

/-- What a caller does next on a lane with an invocation under way. -/
inductive Move
  /-- Completes the request that the lane has yielded. -/
  | answer (results : List Value)
  | resume (cancelled : Bool)
  deriving DecidableEq, Repr, Inhabited

/-- A lane behind an operation: what this came to, the blocks run so far, and the globals. -/
structure Halt where
  result : Except Abort (Option Outcome)
  steps : Nat
  globals : Array UInt32

/-- The request that an outcome leaves for the host. -/
def Outcome.request? : Outcome → Option Pending
  | .yielded request _ => some request
  | .finished _ _ => none

/-- The lane where it has come to, and what is seen from there on. A failure ends an invocation. -/
def Lane.haltAt (onward : Option Pending → Lane → Option (List Halt)) :
    Except Abort Outcome × Lane → Option (List Halt)
  | (.ok o, ln) => (onward o.request? ln).map (⟨.ok (some o), ln.steps, ln.globals⟩ :: ·)
  | (.error e, ln) => some [⟨.error e, ln.steps, ln.globals⟩]

/-- What a caller sees of its moves on a lane; `held` is the request of the last yield until it has
been answered. When an answer is refused, the caller may try another one. -/
def Lane.follow (env : Env) (fuel : Nat) :
    (held : Option Pending) → Lane → List Move → Option (List Halt)
  | _, _, [] => some []
  | _, ln, .resume cancelled :: moves =>
    (ln.resume { env with cancelled } fuel).bind
      (haltAt fun held ln => follow env fuel held ln moves)
  | none, ln, .answer _ :: moves => follow env fuel none ln moves
  | some request, ln, .answer results :: moves =>
    match ln.complete env.exe request results with
    | (.ok _, ln) =>
      (follow env fuel none ln moves).map (⟨.ok none, ln.steps, ln.globals⟩ :: ·)
    | (.error e, ln) =>
      (if (HostTable.checkResults request.func results).isOk then some []
        else follow env fuel (some request) ln moves).map (⟨.error e, ln.steps, ln.globals⟩ :: ·)

/-- What a caller sees of an invocation and of its moves. -/
def Lane.followFrom (env : Env) (fuel : Nat) (ln : Lane) (symbol : Symbol) (args : List Value)
    (moves : List Move) : Option (List Halt) :=
  (ln.invoke env fuel symbol args).bind (haltAt fun held ln => ln.follow env fuel held moves)

/-- What a caller sees of an invocation whose requests a host answers, and what the host remembers. -/
def Lane.seenOfRun {σ : Type} (z : Except Abort (List Value) × Lane × σ) :
    Except Abort (List Value) × Nat × Array UInt32 × σ :=
  (z.1, z.2.1.steps, z.2.1.globals, z.2.2)

/-- The executable has the export, and it takes the arguments. -/
def Invocable (x : Executable) (symbol : Symbol) (args : List Value) : Prop :=
  ∃ e, x.entryFor? symbol = some e ∧ Lane.checkArgs e args = .ok ()

/-- Two states of one lane of an executor with the same globals. All else may differ. -/
structure Lane.SameGlobals (x : Executable) (a b : Lane) : Prop where
  index : b.index = a.index
  globals : b.globals = a.globals
  sized : a.Sized x
  sized' : b.Sized x

/-- An invocation does not depend on what its lane did before. What is not an invocation of an export
is refused whatever the state of the lane is, and leaves the lane as it is. Apart from that the
caller sees the same in two states with the same globals, whatever it does next; and so it does if a
host answers the requests. -/
structure Reusable (x : Executable) : Prop where
  refuses : ∀ env fuel symbol args, env.exe = x → ¬Invocable x symbol args →
    ∃ e, ∀ ln : Lane, ln.invoke env fuel symbol args = some (.error e, ln)
  follows : ∀ env fuel symbol args moves (a b : Lane), env.exe = x → Invocable x symbol args →
    a.SameGlobals x b →
      a.followFrom env fuel symbol args moves = b.followFrom env fuel symbol args moves
  runs : ∀ {σ : Type} env (host? : Option (Host σ)) fuel symbol args h (a b : Lane), env.exe = x →
    Invocable x symbol args → a.SameGlobals x b →
      (a.run env host? fuel symbol args h).map Lane.seenOfRun
        = (b.run env host? fuel symbol args h).map Lane.seenOfRun

/-! ## Invocations -/

section Invocations

variable {p : Program} {frames : List Frames} {out : Compiled} {a b : Lane} {env : Env}
  {symbol : Symbol} {args : List Value}

theorem types_of_find {params : List ValueType} (hlen : args.length = params.length)
    (h : (params.zip args).find? (fun (t, v) => v.type ≠ t) = none) :
    args.map (·.type) = params := by
  induction params generalizing args with
  | nil =>
      obtain rfl := List.length_eq_zero_iff.mp hlen
      rfl
  | cons t params ih =>
      cases args with
      | nil => cases hlen
      | cons v args =>
          rw [List.zip_cons_cons, List.find?_cons] at h
          split at h
          · cases h
          · next hsame =>
            rw [List.map_cons, ih (Nat.succ.inj hlen) h]
            exact congrArg (· :: params) (by simpa using hsame)

theorem types_of_checkArgs {e : Entry} (h : Lane.checkArgs e args = .ok ()) :
    args.map (·.type) = e.sig.params := by
  unfold Lane.checkArgs at h
  dsimp only at h
  split at h
  · cases h
  · next hlen =>
    split at h
    · cases h
    · next hnone => exact types_of_find (not_not.mp hlen) hnone

/-- What is not an invocation of an export leaves the lane as it is. -/
theorem refused_of_not_invocable (fuel : Nat) (h : ¬Invocable env.exe symbol args) :
    ∃ e, ∀ ln : Lane, ln.invoke env fuel symbol args = some (.error e, ln) := by
  cases he : env.exe.entryFor? symbol with
  | none =>
      apply Exists.intro
      intro ln
      rw [Lane.invoke, he]
      rfl
  | some e =>
      cases hargs : Lane.checkArgs e args with
      | error failure =>
          apply Exists.intro
          intro ln
          rw [Lane.invoke, he]
          dsimp only
          rw [hargs]
          rfl
      | ok u => exact absurd ⟨e, he, hargs⟩ h

/-- An invocation brings two states of a lane with the same globals to the same point. -/
theorem invoke_same (hlinked : Linked p frames out) (hexe : env.exe = out.toExecutable)
    (hlimit : out.stackWords.toNat < 2 ^ 31) (fuel : Nat) (htakes : Invocable out.toExecutable symbol args)
    (h : a.SameGlobals out.toExecutable b) :
    Option.Rel (SameStop frames out) (a.invoke env fuel symbol args)
      (b.invoke env fuel symbol args) := by
  obtain ⟨e, he, hargs⟩ := htakes
  have hmem : e ∈ out.entries := List.mem_of_find?_eq_some he
  have hknown : AllKnown (args.map (·.type)) := by
    rw [types_of_checkArgs hargs]
    exact hlinked.accepts e hmem
  have hwords : env.exe.layout.encodeAll args = .ok (args.flatMap env.exe.layout.encode) :=
    bind_eq_of_ok (Layout.requireKnown_eq_ok hknown)
  have hio : b.io.size = a.io.size := (h.sized' .io).trans (h.sized .io).symm
  have hstack : b.stack.words.size = a.stack.words.size := (h.sized' .stack).trans (h.sized .stack).symm
  obtain ⟨f, hf, -⟩ := hlinked.runnable.entry e hmem
  have hinvoke (ln : Lane) : ln.invoke env fuel symbol args
      = Lane.enter env fuel
        { ln with
          io := Lane.overwrite (Array.replicate ln.io.size 0)
            (args.flatMap env.exe.layout.encode).toArray
          entry := some e
          steps := 0 } e.shader := by
    have he' : env.exe.entryFor? symbol = some e := by rw [hexe, he]
    rw [Lane.invoke, he']
    dsimp only
    rw [hargs, hwords]
  rw [hinvoke a, hinvoke b, hio]
  refine enter_same hlinked hexe hlimit hf a
    (entry_together hlinked (a.placed hexe hlimit) hmem hf ?_ ?_ ?_ fuel)
  · exact { index := h.index, entry := rfl, steps := rfl, io := rfl, globals := h.globals, size := hstack }
  · rfl
  · exact h.sized .stack

/-! ## Moves -/

theorem SameStop.haltAt {onward onward' : Option Pending → Lane → Option (List Halt)}
    {y y' : Except Abort Outcome × Lane} (h : SameStop frames out y y')
    (honward : ∀ held a b, a.InStep frames out b →
      (∀ request, held = some request → out.hosts.pending a.stack = .ok (some request)) →
        onward held a = onward' held b) :
    Lane.haltAt onward y = Lane.haltAt onward' y' := by
  obtain ⟨r, a⟩ := y
  obtain ⟨r', b⟩ := y'
  obtain rfl : r' = r := h.result
  have hlanes : a.EqOffStack b := h.lanes
  cases r' with
  | error e => rw [Lane.haltAt, Lane.haltAt, hlanes.steps, hlanes.globals]
  | ok o =>
      have hrest : onward o.request? a = onward' o.request? b := by
        refine honward _ _ _ (h.inStep o rfl) fun request hheld => ?_
        cases o with
        | finished values steps => cases hheld
        | yielded request' steps =>
            cases hheld
            exact h.waits request steps rfl
      rw [Lane.haltAt, Lane.haltAt, hlanes.steps, hlanes.globals, hrest]

theorem Option.bind_congr_of_rel {α β : Type} {R : α → α → Prop} {x y : Option α}
    {f g : α → Option β} (h : Option.Rel R x y) (hfg : ∀ a b, R a b → f a = g b) :
    x.bind f = y.bind g := by
  cases h with
  | none => rfl
  | some hab => exact hfg _ _ hab

/-- On lanes in step a caller sees the same, whatever it does. -/
theorem Lane.InStep.follow (hlinked : Linked p frames out) (hexe : env.exe = out.toExecutable)
    (hlimit : out.stackWords.toNat < 2 ^ 31) (fuel : Nat) (moves : List Move)
    (held : Option Pending) (h : a.InStep frames out b)
    (hheld : ∀ request, held = some request → out.hosts.pending a.stack = .ok (some request)) :
    a.follow env fuel held moves = b.follow env fuel held moves := by
  induction moves generalizing held a b with
  | nil => rw [Lane.follow, Lane.follow]
  | cons move moves ih =>
      cases move with
      | resume cancelled =>
          have hsame : ({ env with cancelled } : Env).exe = out.toExecutable := hexe
          rw [Lane.follow, Lane.follow]
          refine Option.bind_congr_of_rel (h.resume hlinked hsame hlimit fuel) fun y y' hy => ?_
          exact hy.haltAt fun held a b hstep hwaits => ih held hstep hwaits
      | answer results =>
          cases held with
          | none =>
              rw [Lane.follow, Lane.follow]
              exact ih none h fun request hnone => by cases hnone
          | some request =>
              rw [Lane.follow, Lane.follow, hexe]
              cases hcheck : HostTable.checkResults request.func results with
              | error e =>
                  have hrefused (ln : Lane) : ln.complete out.toExecutable request results
                      = (.error (.failed e), ln) := by
                    rw [Lane.complete, complete_of_refused hcheck]
                  rw [hrefused, hrefused]
                  dsimp only
                  rw [ih (some request) h hheld, h.steps, h.globals]
              | ok u =>
                  have hsame := h.complete hlinked hlimit (hheld request rfl) results
                  generalize a.complete out.toExecutable request results = y at hsame
                  generalize b.complete out.toExecutable request results = y' at hsame
                  obtain ⟨r, a'⟩ := y
                  obtain ⟨r', b'⟩ := y'
                  obtain rfl : r' = r := hsame.result
                  have hlanes : a'.EqOffStack b' := hsame.lanes
                  cases r' with
                  | error e =>
                      dsimp only
                      rw [hlanes.steps, hlanes.globals]
                      rfl
                  | ok v =>
                      dsimp only
                      rw [hlanes.steps, hlanes.globals,
                        ih none (hsame.inStep v rfl) fun request hnone => by cases hnone]

/-! ## Runs -/

/-- Runs on two lanes came to the same for the caller and for the host. -/
structure SameRun {σ : Type} (z z' : Except Abort (List Value) × Lane × σ) : Prop where
  result : z'.1 = z.1
  lanes : z.2.1.EqOffStack z'.2.1
  host : z'.2.2 = z.2.2

theorem SameRun.seen {σ : Type} {z z' : Except Abort (List Value) × Lane × σ} (h : SameRun z z') :
    Lane.seenOfRun z' = Lane.seenOfRun z := by
  rw [Lane.seenOfRun, Lane.seenOfRun, h.result, h.lanes.steps, h.lanes.globals, h.host]

/-- Requests are answered alike on both lanes, whatever the host answers. -/
theorem SameStop.serve {σ : Type} (hlinked : Linked p frames out) (hexe : env.exe = out.toExecutable)
    (hlimit : out.stackWords.toNat < 2 ^ 31) (host? : Option (Host σ)) (name : String) (fuel : Nat)
    {y y' : Except Abort Outcome × Lane} (hsame : SameStop frames out y y') (h : σ) :
    Option.Rel SameRun (y.2.serve env host? name fuel y.1 h)
      (y'.2.serve env host? name fuel y'.1 h) := by
  induction fuel generalizing y y' h with
  | zero => exact .none
  | succ fuel ih =>
      obtain ⟨r, a⟩ := y
      obtain ⟨r', b⟩ := y'
      obtain rfl : r' = r := hsame.result
      have hlanes : a.EqOffStack b := hsame.lanes
      cases r' with
      | error e => exact .some ⟨rfl, hlanes, rfl⟩
      | ok o =>
          have hstep := hsame.inStep o rfl
          cases o with
          | finished values steps => exact .some ⟨rfl, hlanes, rfl⟩
          | yielded request steps =>
              have hwaits := hsame.waits request steps rfl
              unfold Lane.serve
              cases host? with
              | none => exact .some ⟨rfl, hlanes, rfl⟩
              | some host =>
                  dsimp only
                  rw [hlanes.index]
                  generalize host.call h a.index request.func request.args = answer
                  obtain ⟨answer, h'⟩ := answer
                  cases answer with
                  | error e => exact .some ⟨rfl, hlanes.abandon, rfl⟩
                  | ok results =>
                      have hcomplete := hstep.complete hlinked hlimit hwaits results
                      rw [hexe]
                      dsimp only
                      generalize a.complete out.toExecutable request results = y at hcomplete
                      generalize b.complete out.toExecutable request results = y' at hcomplete
                      obtain ⟨r, a'⟩ := y
                      obtain ⟨r', b'⟩ := y'
                      obtain rfl : r' = r := hcomplete.result
                      cases r' with
                      | error e => exact .some ⟨rfl, hcomplete.lanes, rfl⟩
                      | ok v =>
                          refine Option.Rel.bind
                            ((hcomplete.inStep v rfl).resume hlinked hexe hlimit fuel) ?_
                          exact fun y y' hy => ih hy h'

theorem Option.map_congr_of_rel {α β : Type} {R : α → α → Prop} {x y : Option α} {f : α → β}
    (h : Option.Rel R x y) (hf : ∀ a b, R a b → f b = f a) : x.map f = y.map f := by
  cases h with
  | none => rfl
  | some hab => exact congrArg some (hf _ _ hab).symm

theorem Linked.reusable (hlinked : Linked p frames out) (hlimit : out.stackWords.toNat < 2 ^ 31) :
    Reusable out.toExecutable where
  refuses env fuel symbol args hexe hnot := by
    rw [← hexe] at hnot
    exact refused_of_not_invocable fuel hnot
  follows env fuel symbol args moves a b hexe htakes h :=
    Option.bind_congr_of_rel (invoke_same hlinked hexe hlimit fuel htakes h) fun _ _ hsame =>
      hsame.haltAt fun held _ _ hstep hwaits =>
        hstep.follow hlinked hexe hlimit fuel moves held hwaits
  runs env host? fuel symbol args h a b hexe htakes hglobals :=
    Option.map_congr_of_rel (Option.Rel.bind (invoke_same hlinked hexe hlimit fuel htakes hglobals)
      fun _ _ hsame => hsame.serve hlinked hexe hlimit host? symbol.text fuel h)
      fun _ _ hran => hran.seen

end Invocations

end Execution

/-! ## Compiled modules -/

namespace Compile

open Execution

variable {config : Config} {p : Program} {out : Compiled}

/-- On a lane of a compiled module an invocation does not depend on what the lane did before. There have
to be numbers for the host functions (at most 2³¹). -/
theorem compile_reuses_lanes {m : Binary.Module} (hread : Program.ofModule m = .ok p)
    (h : compile config p = .ok out) (hlimit : out.stackWords.toNat < 2 ^ 31)
    (hfew : out.hosts.funcs.length ≤ BlockId.maxBlocks) : Reusable out.toExecutable := by
  obtain ⟨frames, hlinked⟩ := linked_of_compile (Program.formed_of_ofModule hread) hfew h
  exact hlinked.reusable hlimit

/-- The lane as a failed invocation might leave it, with the globals that it has. -/
def soiled (ln : Lane) : Lane :=
  { ln with
    stack := ⟨ln.stack.words.map fun _ => 7⟩
    io := ln.io.map fun _ => 7
    steps := 99 }

theorem sameGlobals_soiled {x : Executable} {ln : Lane} (h : ln.Sized x) :
    ln.SameGlobals x (soiled ln) where
  index := rfl
  globals := rfl
  sized := h
  sized' r := by
    cases r with
    | stack => exact Array.size_map.trans (h .stack)
    | io => exact Array.size_map.trans (h .io)
    | globals => exact h .globals

/-- The caller asks again before it answers. -/
def questionSeen (out : Compiled) (ln : Lane) : Option (List Halt) :=
  ln.followFrom { exe := out.toExecutable } 64 (.ofText "f") []
    [.resume false, .answer [.ofI32 5], .resume false]

def finishesWith (values : List Value) (halt : Halt) : Bool :=
  match halt.result with
  | .ok (some (.finished values' _)) => values' = values
  | _ => false

/-- The export takes no arguments, and the caller ends with the answer of the host. -/
theorem seen_question : questionCode.toOption.any (fun out =>
    out.stackWords.toNat < 2 ^ 31
      && (out.toExecutable.entryFor? (.ofText "f")).any (fun e => (Lane.checkArgs e []).isOk)
      && (questionSeen out (Lane.new out.toExecutable 0)).any
        (·.getLast?.any (finishesWith [.ofI32 5]))) = true := by
  decide +kernel

/-- The theorem at a program that asks the host: on the soiled lane, too, the caller ends with the
answer. -/
theorem compile_reuses_lanes_question :
    Program.ofModule question = .ok questionProgram
      ∧ ∃ out, compile narrow questionProgram = .ok out ∧ out.stackWords.toNat < 2 ^ 31
        ∧ out.hosts.funcs.length ≤ BlockId.maxBlocks
        ∧ Reusable out.toExecutable
        ∧ Invocable out.toExecutable (.ofText "f") []
        ∧ ∃ seen, questionSeen out (soiled (Lane.new out.toExecutable 0)) = some seen
          ∧ seen.getLast?.any (finishesWith [.ofI32 5]) = true := by
  have hparse : Binary.Module.parse question.encode = .ok question := by decide +kernel
  have hencodable := Binary.encodable_of_parse hparse
  obtain ⟨out, hout, hcode⟩ := compile_question
  have hseen := seen_question
  rw [hcode] at hseen
  simp only [Except.toOption, Option.any_some, Bool.and_eq_true, decide_eq_true_eq] at hseen
  obtain ⟨⟨hlimit, hentry⟩, hseen⟩ := hseen
  obtain ⟨e, he, hargs⟩ := (Option.any_eq_true ..).mp hentry
  obtain ⟨u, hargs⟩ := exists_of_isOk hargs
  obtain ⟨seen, hfresh, hlast⟩ := (Option.any_eq_true ..).mp hseen
  have hfew := hosts_le_of_encodable hencodable read_question hout
  have hreusable := compile_reuses_lanes read_question hout hlimit hfew
  have hinvocable : Invocable out.toExecutable (.ofText "f") [] := ⟨e, he, hargs⟩
  have hsame := hreusable.follows { exe := out.toExecutable } 64 (.ofText "f") []
    [.resume false, .answer [.ofI32 5], .resume false] _ _ rfl hinvocable
    (sameGlobals_soiled (Lane.sized_new out.toExecutable 0))
  exact ⟨read_question, out, hout, hlimit, hfew, hreusable, hinvocable, seen,
    hsame.symm.trans hfresh, hlast⟩

end Compile

end WasmShader
