import WasmShader.Proofs.EntryRuns
import WasmShader.Proofs.SettledLanes

/-!
# Served runs

An invocation whose requests a host answers goes from one situation where the host is asked to the next.
Round by round it takes the steps of the evaluation in which the host answers at once
(`served_meets`), so it ends as that does, or there is no room for a situation that is reached
(`served`).
-/

namespace WasmShader

open Execution (Datum Env FitsAll Lane Outcome storedAll callMeaning)
open Compile Emit

namespace Compile

open Structured

variable {σ : Type}

/-- The program of a module with a host on a lane. The host is told what the table of the module says;
a request that is not in the table fails. -/
def Compiled.world (out : Compiled) (host : Execution.Host σ) (lane : Nat) : World σ where
  program := out.program
  layout := out.layout
  describe key :=
    let sig := (requestSignature? out.program (.host key)).getD ⟨[], []⟩
    (out.hosts.funcs.find? (·.key == key)).getD ⟨.host 0, key, "", sig.params, sig.results⟩
  host :=
    { call := fun memory lane func values =>
        if out.hosts.lookup? func.id = some func then host.call memory lane func values
        else (.error (.plain ""), memory) }
  lane

/-- The host answers the lane with results of the declared types, or fails. -/
def Compiled.IsHost (out : Compiled) (host : Execution.Host σ) (lane : Nat) : Prop :=
  ∀ memory func values results memory', out.hosts.lookup? func.id = some func →
    host.call memory lane func values = (.ok results, memory') →
      results.map (·.type) = func.results

variable {out : Compiled} {host : Execution.Host σ} {lane : Nat}

/-- A request that is in the table is told as it is there. -/
theorem Compiled.describe_of_lookup? (hhosts : out.hosts.Sound out.program) {func : HostFunc}
    (hfunc : out.hosts.lookup? func.id = some func) :
    (out.world host lane).describe func.key = func := by
  have hmem : func ∈ out.hosts.funcs := by
    unfold HostTable.lookup? at hfunc
    split at hfunc
    · exact List.mem_of_getElem? hfunc
    · cases hfunc
  have hfound : (out.hosts.funcs.find? (·.key == func.key)).isSome = true :=
    List.find?_isSome.mpr ⟨func, hmem, beq_self_eq_true _⟩
  obtain ⟨func', hfind⟩ := Option.isSome_iff_exists.mp hfound
  have hkey : func'.key = func.key := beq_iff_eq.mp (List.find?_some hfind :)
  obtain rfl := List.inj_on_of_nodup_map hhosts.keys (List.mem_of_find?_eq_some hfind) hmem hkey
  change (out.hosts.funcs.find? (·.key == func'.key)).getD _ = _
  rw [hfind]
  rfl

theorem Compiled.world_sound (hhosts : out.hosts.Sound out.program) (hhost : out.IsHost host lane) :
    (out.world host lane).Sound := by
  refine ⟨fun key sig hsig => ?_, fun memory func values results memory' hcall => ?_⟩
  · change requestSignature? out.program (.host key) = some sig at hsig
    rw [world]
    dsimp only
    cases hfind : out.hosts.funcs.find? (·.key == key) with
    | none =>
        rw [hsig]
        exact ⟨rfl, rfl⟩
    | some func =>
        obtain ⟨sig', htakes⟩ := hhosts.takes func (List.mem_of_find?_eq_some hfind)
        obtain ⟨hsig', hparams, hresults⟩ := htakes.host func rfl
        rw [beq_iff_eq.mp (List.find?_some hfind :), hsig] at hsig'
        cases hsig'
        exact ⟨hparams, hresults⟩
  · rw [world] at hcall
    dsimp only at hcall
    split at hcall
    · next hfunc => exact hhost memory func values results memory' hfunc hcall
    · cases hcall

/-- The replies of the world are those that emitted code relies on. -/
theorem Compiled.answers_reply (hp : out.program.Formed)
    (hcheck : ∀ f ∈ out.program.funcs, out.program.check f = .ok ())
    (hhosts : out.hosts.Sound out.program) (hhost : out.IsHost host lane) (kept : Nat → Prop) :
    Emit.Answers out.program out.layout kept (out.world host lane).reply :=
  ⟨World.reply_sound (w := out.world host lane) hp (world_sound hhosts hhost) hcheck,
    fun _ hf _ args shared =>
      World.reply_call (out.world host lane) (func?_of_mem (p := out.program) hp hf) args shared⟩

end Compile

namespace Structured

variable {σ : Type}

/-- What the world answers is what the host does. -/
theorem reply_of_asked {out : Compiled} (hhosts : out.hosts.Sound out.program)
    (host : Execution.Host σ) (lane : Nat) {func : HostFunc}
    (hfunc : out.hosts.lookup? func.id = some func) (args : List Datum) (shared : Shared σ) :
    (out.world host lane).reply (.host func.key) args shared
      = some (match host.call shared.host lane func (out.layout.valuesOf func.params args) with
        | (.error e, memory) => (.error (.hostFailed func e), { shared with host := memory })
        | (.ok results, memory) =>
          (.ok (results.map (.ofValue out.layout)), { shared with host := memory })) := by
  rw [World.reply_host, World.askHost, Compiled.describe_of_lookup? hhosts hfunc]
  change some (match (if out.hosts.lookup? func.id = some func then
      host.call shared.host lane func (out.layout.valuesOf func.params args)
    else _) with
    | (.error e, memory) => _
    | (.ok results, memory) => _) = _
  rw [if_pos hfunc]
  generalize host.call shared.host lane func (out.layout.valuesOf func.params args) = answer
  obtain ⟨r, memory⟩ := answer
  cases r <;> rfl

/-! ## Rounds -/

/-- A lane on which an entry point that runs the dispatcher is served by a host. -/
structure Service (frames : List Frames) (out : Compiled) (env : Env) (host : Execution.Host σ)
    (e : Entry) (exit : BlockId) (ln : Lane) : Prop where
  runner : Runner frames out env (out.world host ln.index).reply
  hosts : out.hosts.Sound out.program
  maxSteps : env.maxSteps = 0
  notCancelled : env.cancelled = false
  answers : out.IsHost host ln.index
  entry : ln.entry = some e
  exit : Execution.IsExit out exit e.sig.results
  known : AllKnown e.sig.results
  resume : out.module.function? resumeName = some resumeEntry
  sized : ln.Sized out.toExecutable
  addressable : ∀ r, ln.Addressable r
  room : out.layout.sizeOf e.sig.results ≤ (ln.words .io).size

section Rounds

variable (frames : List Frames) (out : Compiled) (host : Execution.Host σ) (e : Entry)
  (exit : BlockId) (start : Situation σ) (ln : Lane)

/-- What an invocation comes to is what an evaluation comes to: the results, the trap, or the failure
of the host, which remembers the same. -/
def EndsAs : Except Abort (List Value) × Lane × σ → Ending (Shared σ) (List Datum) → Prop
  | (.ok values, _, memory), (.ok results, shared) =>
    values = out.layout.valuesOf e.sig.results results ∧ memory = shared.host
  | (.error (.failed failure), _, memory), (.error (.trap c), shared) =>
    failure = ln.trapFailure c ∧ memory = shared.host
  | (.error (.failed failure), _, memory), (.error (.hostFailed func cause), shared) =>
    failure = .wrap .runtime .host cause func.name ∧ memory = shared.host
  | _, _ => False

/-- The lane has no room for a situation that is reached. -/
def Overflowed {α : Type} : Except Abort α × Lane × σ → Prop
  | (.error (.failed failure), _, memory) => failure = ln.trapFailure .stackOverflow
    ∧ ∃ s, start.Reaches out.program frames (out.world host ln.index).reply s
      ∧ out.stackWords.toNat < s.size out.layout e.sig.results ∧ memory = s.shared.host
  | _ => False

/-- The lane has stopped at a situation and has told what this waits with. -/
structure Told (x : Except Abort Outcome × Lane × σ) (s : Situation σ) : Prop where
  possible : s.Possible frames out e.sig.results
  reached : start.Reaches out.program frames (out.world host ln.index).reply s
  memory : x.2.2 = s.shared.host
  stopped : ∃ ln', ln.Kin ln' ∧ s.Stopped out exit e.sig.results ln'
    ∧ (x.1, x.2.1) = ln'.settle out.toExecutable

/-- A run of an entry point ends where the steps pause, or with the same trap. -/
def Leaves (x : Except Abort Outcome × Lane × σ) :
    Situation σ ⊕ Ending (Shared σ) (List Datum) → Prop
  | .inl s => Told frames out host e exit start ln x s
  | .inr (.error (.trap c), shared) =>
    x.1 = .error (.failed (ln.trapFailure c)) ∧ x.2.2 = shared.host
  | .inr _ => False

end Rounds

section Serving

variable {frames : List Frames} {out : Compiled} {env : Env} {host : Execution.Host σ} {e : Entry}
  {exit : BlockId} {start s : Situation σ} {ln ln' : Lane} {memory : σ}

theorem trapFailure_of_kin (hkin : ln.Kin ln') (c : TrapCode) :
    ln'.trapFailure c = ln.trapFailure c := by
  rw [Lane.trapFailure, Lane.trapFailure, Lane.exportName, Lane.exportName, hkin.entry, hkin.index]

/-- What the code of an entry point leaves behind for whoever serves the lane. -/
theorem leaves_of_runsFrom (hkin : ln.Kin ln')
    (hreached : start.Reaches out.program frames (out.world host ln.index).reply s)
    {x : Option (Execution.Ending (List Datum))}
    (hruns : RunsFrom frames out (out.world host ln.index).reply exit e.sig.results s ln' x) :
    (∃ y, x.bind (Lane.leaveWith out.toExecutable) = some y
        ∧ Overflowed frames out host e start ln (y.1, y.2, s.shared.host))
      ∨ Option.Rel (fun y => Leaves frames out host e exit start ln (y.1, y.2, s.shared.host))
        (x.bind (Lane.leaveWith out.toExecutable))
        (untilDone (Situation.stepOn out.program frames (out.world host ln.index).reply) s) := by
  have htrap {t : Execution.State} (c : TrapCode) (ht : ln'.Kin t.lane) :
      Lane.leaveWith out.toExecutable (.error (.trap c), t)
        = some (.error (.failed (ln.trapFailure c)), t.lane.abandon) := by
    rw [← trapFailure_of_kin (hkin.trans ht)]
    rfl
  rcases hruns with ⟨r, rfl, hover⟩ | hrel
  · refine .inl ?_
    obtain ⟨r, t⟩ := r
    cases r with
    | ok a => exact hover.elim
    | error stop =>
        cases stop with
        | abort cause => exact hover.elim
        | outOfFuel => exact hover.elim
        | trap c =>
            obtain ⟨rfl, ht, s', hs', hsize, hhost⟩ := hover
            exact ⟨_, htrap _ ht, rfl, s', hreached.trans hs', hsize, hhost.symm⟩
  · refine .inr ?_
    generalize untilDone (Situation.stepOn out.program frames (out.world host ln.index).reply) s = y
      at hrel
    cases hrel with
    | none => exact .none
    | @some r y hhalts =>
        obtain ⟨r, t⟩ := r
        cases r with
        | ok a =>
            cases y with
            | inr done =>
                obtain ⟨r', shared⟩ := done
                cases r' <;> exact hhalts.elim
            | inl s' =>
                obtain ⟨-, ht, hpossible, hstopped, hs', hhost⟩ := hhalts
                exact .some ⟨hpossible, hreached.trans hs', hhost.symm, t.lane, hkin.trans ht,
                  hstopped, rfl⟩
        | error stop =>
            cases y with
            | inl s' => cases stop <;> exact hhalts.elim
            | inr done =>
                obtain ⟨r', shared⟩ := done
                cases r' with
                | ok results => cases stop <;> exact hhalts.elim
                | error stop' =>
                    cases stop with
                    | abort cause => cases stop' <;> exact hhalts.elim
                    | outOfFuel => cases stop' <;> exact hhalts.elim
                    | trap c =>
                        cases stop' with
                        | stuck => exact hhalts.elim
                        | hostFailed func cause => exact hhalts.elim
                        | trap c' =>
                            obtain ⟨rfl, ht, hhost⟩ := hhalts
                            rw [Option.bind_some, htrap _ ht]
                            exact .some ⟨rfl, hhost.symm⟩

/-- A failure ends what is served. -/
theorem untilDone_of_overflowed {y : Except Abort Outcome × Lane × σ}
    (h : Overflowed frames out host e start ln y) :
    GivesUp (Overflowed frames out host e start ln) (Lane.serveRound env host) y := by
  obtain ⟨r, ln', memory⟩ := y
  cases r with
  | ok o => exact h.elim
  | error cause => exact ⟨_, untilDone_of_done rfl, by cases cause <;> exact h⟩

/-- What a run of an entry point leaves is met by what is served behind it. -/
theorem meets_of_leaves (env : Env) {y : Except Abort Outcome × Lane × σ}
    {z : Situation σ ⊕ Ending (Shared σ) (List Datum)}
    (h : Leaves frames out host e exit start ln y z) :
    Meets (Told frames out host e exit start ln) (EndsAs out e ln) (Lane.serveRound env host) (.inl y)
      z := by
  cases z with
  | inl s' => exact ⟨y, rfl, h⟩
  | inr done =>
      obtain ⟨r, shared⟩ := done
      obtain ⟨r', ln', memory⟩ := y
      cases r with
      | ok results => exact h.elim
      | error stop =>
          cases stop with
          | stuck => exact h.elim
          | hostFailed func cause => exact h.elim
          | trap c =>
              obtain ⟨hr, hmemory⟩ := h
              dsimp only at hr hmemory
              subst hr
              exact ⟨_, untilDone_of_done rfl, rfl, hmemory⟩

/-- A suspended lane goes on from where it rests. -/
theorem Service.goesOn (h : Service frames out env host e exit ln) (hkin : ln.Kin ln')
    (hreached : start.Reaches out.program frames (out.world host ln.index).reply s)
    (hpossible : s.Possible frames out e.sig.results) (hrests : s.Rests out exit e.sig.results ln')
    (hsp : ln'.stack.sp ≠ 0) :
    (∃ y, eventual (fun n => ln'.resume env n) = some y
        ∧ Overflowed frames out host e start ln (y.1, y.2, s.shared.host))
      ∨ Option.Rel (fun y => Leaves frames out host e exit start ln (y.1, y.2, s.shared.host))
        (eventual fun n => ln'.resume env n)
        (untilDone (Situation.stepOn out.program frames (out.world host ln.index).reply) s) := by
  have hexe := h.runner.exe
  have hx : Execution.Runnable env.exe := by
    rw [hexe]
    exact h.runner.linked.runnable
  have hresume : env.exe.module.function? resumeName = some resumeEntry := by
    rw [hexe]
    exact h.resume
  have hsuspended : ln'.isSuspended = true := by
    rw [Lane.isSuspended, hkin.entry, h.entry]
    exact decide_eq_true hsp
  have heventual : eventual (fun n => ln'.resume env n)
      = (callMeaning env resumeEntry [] ln'.entering).bind (Lane.leaveWith out.toExecutable) := by
    rw [← hexe, ← Lane.eventual_enter hx hresume]
    refine congrArg _ (funext fun n => ?_)
    rw [Lane.resume, if_pos hsuspended]
  rw [heventual]
  refine leaves_of_runsFrom hkin hreached (callMeaning_resumeEntry h.runner h.maxSteps
    h.notCancelled h.exit (fun r => ?_) (fun r => ⟨?_, ?_⟩) ?_ hpossible hrests)
  · rw [hkin.sizes, hexe]
    exact h.sized r
  · rw [hkin.sizes]
    exact (h.addressable r).size
  · rw [hkin.sizes, hkin.index]
    exact (h.addressable r).place
  · rw [hkin.sizes]
    exact h.room

/-- A round of the host is the answer to what the lane asks for, and the steps behind it; or there is no
room for these. -/
theorem Service.meets (h : Service frames out env host e exit ln)
    {x : Except Abort Outcome × Lane × σ} (htold : Told frames out host e exit start ln x s) :
    GivesUp (Overflowed frames out host e start ln) (Lane.serveRound env host) x
      ∨ Option.Rel (Meets (Told frames out host e exit start ln) (EndsAs out e ln)
          (Lane.serveRound env host))
        (Lane.serveRound env host x)
        (turn Situation.pauses
          (Situation.step out.program frames (out.world host ln.index).reply) s) := by
  obtain ⟨r, ln₁, memory⟩ := x
  obtain ⟨hpossible, hreached, hmemory, ln', hkin, hstopped, hsettle⟩ := htold
  dsimp only at hmemory hsettle
  subst hmemory
  cases hstopped with
  | @leave results shared _ hempty hio =>
      cases hpossible with
      | leave hresults hshared =>
          rw [settle_leave (hkin.entry.trans h.entry) h.known hresults.length_eq hempty hio] at hsettle
          cases hsettle
          exact .inr (.some ⟨_, rfl, rfl, rfl⟩)
  | @ask waiting func args shared _ hrests =>
      rw [settle_ask h.runner h.hosts hpossible hrests] at hsettle
      cases hsettle
      have hasked : out.hosts.lookup? func.id = some func := by
        cases hpossible with
        | ask hasked => exact hasked
      have hstep : Situation.step out.program frames (out.world host ln.index).reply
          ⟨waiting, .ask func args, shared⟩ = _ :=
        congrArg (Option.map (Situation.afterAnswer waiting))
          (reply_of_asked h.hosts host ln.index hasked args shared)
      generalize hcall : host.call shared.host ln.index func (out.layout.valuesOf func.params args)
        = answer at hstep
      obtain ⟨answer, memory⟩ := answer
      cases answer with
      | error cause =>
          rw [turn, hstep, Lane.serveRound, Lane.ask, hkin.index, hcall]
          exact .inr (.some ⟨_, rfl, rfl, rfl⟩)
      | ok results =>
          have htypes := h.answers _ _ _ _ _ hasked hcall
          obtain ⟨ln₂, hcomplete, hkin₂, hrests₂, hsp⟩ := hrests.answer h.runner h.hosts hpossible
            htypes (out.layout.valuesOf func.params args) memory
          have hleads := hpossible.step h.runner.machinery h.runner.sound hstep
          have hround : Lane.serveRound env host
              (.ok (.yielded ⟨func, out.layout.valuesOf func.params args⟩ ln₁.steps), ln₁, shared.host)
              = (eventual fun n => ln₂.resume env n).map fun y => .inl (y.1, y.2, memory) := by
            rw [Lane.serveRound, Lane.ask, hkin.index, hcall]
            dsimp only
            rw [h.runner.exe, hcomplete]
          have hhost : (Situation.back waiting (results.map (.ofValue out.layout))
              { shared with host := memory }).shared.host = memory := by cases waiting <;> rfl
          have hgoes := h.goesOn (hkin.trans hkin₂) (hreached.tail hstep) hleads hrests₂ hsp
          rw [hhost] at hgoes
          rcases hgoes with ⟨y, hy, hover⟩ | hrel
          · obtain ⟨c, hc, hover⟩ := untilDone_of_overflowed hover
            rw [hy] at hround
            exact .inl ⟨c, (untilDone_of_next hround).trans hc, hover⟩
          · rw [hround, turn, hstep]
            change _ ∨ Option.Rel _ _ (untilDone (Situation.stepOn out.program frames
              (out.world host ln.index).reply) (Situation.back waiting _ _))
            have hmeets := Option.Rel.map (f := fun y => Sum.inl (y.1, y.2, memory)) (g := id) hrel
              fun y z => meets_of_leaves env
            rw [Option.map_id_fun, id] at hmeets
            exact .inr hmeets

/-- A host that serves an invocation has it take the steps from where the lane has stopped to their
end. -/
theorem Service.serves (h : Service frames out env host e exit ln)
    {x : Except Abort Outcome × Lane × σ} (htold : Told frames out host e exit start ln x s) :
    GivesUp (Overflowed frames out host e start ln) (Lane.serveRound env host) x
      ∨ Option.Rel (EndsAs out e ln) (untilDone (Lane.serveRound env host) x)
        (untilDone (Situation.step out.program frames (out.world host ln.index).reply) s) := by
  rw [← untilDone_turn Situation.pauses]
  exact untilDone_meets (fun _ _ htold => h.meets htold) htold

/-- A served invocation of an entry point that runs the dispatcher ends as the evaluation of the call
does, or there is no room for a situation that is reached. -/
theorem Service.runs (h : Service frames out env host e exit ln) {fr : Frames} (hfr : fr ∈ frames)
    (hsig : fr.machine.func.type = e.sig) (hindex : fr.machine.func.index = e.func)
    (hcode : out.module.function? e.shader = some (machineEntry out.layout e.shader e.sig
      ((out.blockContext fr).numberOf 0) exit out.stackWords)) (hparams : AllKnown e.sig.params)
    (hsmall : firstSize out.layout e.sig < 2 ^ 32) {data : List Datum} {shared : Shared σ}
    {stored : List UInt32} (hdata : FitsAll out.layout e.sig.params data)
    (hio : ln.io.toList = storedAll out.layout e.sig.params data ++ stored)
    (hshared : out.program.GlobalsFit out.layout shared.globals)
    (hglobals : ln.globals.toList = out.program.globalWords out.layout shared.globals) :
    (∃ c, ((eventual fun n => ln.enter env n e.shader).bind fun y =>
          untilDone (Lane.serveRound env host) (y.1, y.2, shared.host)) = some c
        ∧ Overflowed frames out host e ⟨[], .run ⟨fr, 0, data, []⟩, shared⟩ ln c)
      ∨ Option.Rel (EndsAs out e ln)
        ((eventual fun n => ln.enter env n e.shader).bind fun y =>
          untilDone (Lane.serveRound env host) (y.1, y.2, shared.host))
        ((out.world host ln.index).reply (.call e.func) data shared) := by
  have hexe := h.runner.exe
  have hx : Execution.Runnable env.exe := by
    rw [hexe]
    exact h.runner.linked.runnable
  rw [← hsig] at hcode hparams hsmall hdata hio
  have hsteps := World.steps_reply (w := out.world host ln.index) h.runner.machinery h.runner.sound
    hfr hdata hshared
  rw [hindex] at hsteps
  have hruns := callMeaning_machineEntry h.runner h.maxSteps h.notCancelled hfr
    (by rw [hsig]; exact h.exit) (by rw [hexe]; exact h.sized) h.addressable hparams hdata hio hshared
    hglobals (by rw [hsig]; exact h.room) hsmall e.shader
  rw [hsig] at hruns hcode
  have hleaves := leaves_of_runsFrom (Lane.Kin.refl ln) .refl hruns
  rw [← hexe, ← Lane.eventual_enter hx (by rw [hexe]; exact hcode)] at hleaves
  rcases hleaves with ⟨y, hy, hover⟩ | hrel
  · obtain ⟨c, hc, hover⟩ := untilDone_of_overflowed hover
    exact .inl ⟨c, by rw [hy]; exact hc, hover⟩
  · change untilDone (Situation.step out.program frames (out.world host ln.index).reply) _ = _ at hsteps
    rw [← hsteps, untilDone_pausing Situation.pauses]
    generalize (eventual fun n => ln.enter env n e.shader) = y at hrel
    generalize untilDone (Situation.stepOn out.program frames (out.world host ln.index).reply)
      ⟨[], .run ⟨fr, 0, data, []⟩, shared⟩ = z at hrel
    cases hrel with
    | none => exact .inr .none
    | @some y z hy =>
        rw [Option.bind_some, Option.bind_some]
        cases z with
        | inl s' => exact h.serves hy
        | inr done =>
            obtain ⟨c, hc, hends⟩ := meets_of_leaves env hy
            refine .inr ?_
            rw [show untilDone (Lane.serveRound env host) (y.1, y.2, shared.host) = some c from hc]
            exact .some hends

end Serving

end Structured

end WasmShader
