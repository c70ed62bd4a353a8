import WasmShader.Proofs.CallSemantics
import WasmShader.Proofs.DirectEntries
import WasmShader.Proofs.Limits
import WasmShader.Proofs.Reuse

/-!
# Answers of lanes

Between two operations, a lane has all its words, and an invocation that is under way on it rests at a
situation of the calls (`Compiled.Steady`). From there, whatever is asked of the lane is answered with what the
module declares, or with a failure that says what was wrong with the request, with the answer of the host, or
with the program (`Env.Ends`); and the lane is steady again.
-/

namespace WasmShader

open Compile Emit Structured
open Execution (Datum Env Fits FitsAll Lane Outcome Runnable regionSize storedAll callMeaning)

/-- The traps that code may end with: those that a program makes by itself, and a full stack. -/
def TrapCode.lawful : List TrapCode :=
  [.unreachable, .divByZero, .intOverflow, .invalidConversion, .stackOverflow]

theorem TrapCode.mem_lawful_of_isPlain {c : TrapCode} (h : c.isPlain = true) : c ∈ lawful := by
  simp only [isPlain, isArithmetic, Bool.or_eq_true, decide_eq_true_eq] at h
  rcases h with rfl | (rfl | rfl) | rfl <;> decide

namespace Structured

variable {σ : Type} {p : Program} {l : Layout} {asked : HostFunc → Prop} {frames : List Frames}
  {finals : List ValueType} {oracle : Oracle σ} {s : Situation σ}

/-- Where the steps pause is a situation that fits, and so is an end. -/
theorem Situation.Fits.stepOn (h : Machinery p l asked frames) (horacle : oracle.Sound p l)
    (hs : s.Fits p l asked frames finals) {x : Situation σ ⊕ Ending (Shared σ) (List Datum)}
    (hx : untilDone (Situation.stepOn p frames oracle) s = some x) :
    Situation.Leads p l asked frames finals x :=
  of_untilDone_pausing (P := Situation.Leads p l asked frames finals)
    (fun _ _ hs hstep => Situation.Fits.step h horacle hs hstep) hs hx

end Structured

/-! ## Steady lanes -/

namespace Execution

/-- How a run of an entry point on a lane may end: with values of the types of the results, with a
request to the host, with a trap, or at a limit. -/
inductive Env.Ends (env : Env) (ln : Lane) (e : Entry) : Except Abort Outcome → Prop
  | finished {values : List Value} {steps : Nat} : values.map (·.type) = e.sig.results →
      Ends env ln e (.ok (.finished values steps))
  | yielded {request : Pending} {steps : Nat} :
      env.exe.hosts.lookup? request.func.id = some request.func →
      request.args.map (·.type) = request.func.params →
      Ends env ln e (.ok (.yielded request steps))
  | trapped {code : TrapCode} : code ∈ TrapCode.lawful →
      Ends env ln e (.error (.failed (Lane.trapFailure { ln with entry := some e } code)))
  | limited {failure : Failure} : env.Limits failure → Ends env ln e (.error (.failed failure))

/-- Only the number of the lane is told. -/
theorem Env.Ends.of_index {env : Env} {ln ln' : Lane} {e : Entry} {r : Except Abort Outcome}
    (h : env.Ends ln e r) (hindex : ln'.index = ln.index) : env.Ends ln' e r := by
  cases h with
  | finished htypes => exact .finished htypes
  | yielded hfunc hargs => exact .yielded hfunc hargs
  | limited hlimits => exact .limited hlimits
  | @trapped code hcode =>
      have hsame : Lane.trapFailure { ln' with entry := some e } code
          = Lane.trapFailure { ln with entry := some e } code := by
        rw [Lane.trapFailure, Lane.trapFailure, hindex]
        rfl
      rw [← hsame]
      exact .trapped hcode

/-- A run without limits ends as one with limits may. -/
theorem Env.Ends.of_unlimited {env : Env} {ln : Lane} {e : Entry} {r : Except Abort Outcome}
    (h : env.unlimited.Ends ln e r) : env.Ends ln e r := by
  cases h with
  | finished htypes => exact .finished htypes
  | yielded hfunc hargs => exact .yielded hfunc hargs
  | trapped hcode => exact .trapped hcode
  | limited hlimits =>
      cases hlimits with
      | cancelled hcancelled => cases hcancelled
      | steps lane hsteps => exact absurd hsteps (Nat.lt_irrefl 0)

/-- How an invocation may end whose requests a host answers, if there is one: as a run of the entry point
may end, or where the host fails or answers with what is not asked for. -/
inductive Env.ServedEnds {σ : Type} (env : Env) (host? : Option (Host σ)) (name : String) (ln : Lane)
    (e : Entry) : Except Abort (List Value) → Prop
  | values {values : List Value} : values.map (·.type) = e.sig.results →
      ServedEnds env host? name ln e (.ok values)
  | failed {failure : Failure} : env.Ends ln e (.error (.failed failure)) →
      ServedEnds env host? name ln e (.error (.failed failure))
  | unserved {request : Pending} : host? = none →
      env.exe.hosts.lookup? request.func.id = some request.func →
      ServedEnds env host? name ln e (.error (.failed (Lane.noHost name request)))
  | hostFailed {host : Host σ} {memory memory' : σ} {func : HostFunc} {args : List Value}
      {cause : Failure} : host? = some host → env.exe.hosts.lookup? func.id = some func →
      host.call memory ln.index func args = (.error cause, memory') →
      ServedEnds env host? name ln e (.error (.failed (.wrap .runtime .host cause func.name)))
  | refused {host : Host σ} {memory memory' : σ} {func : HostFunc} {args results : List Value}
      {failure : Failure} : host? = some host → env.exe.hosts.lookup? func.id = some func →
      host.call memory ln.index func args = (.ok results, memory') →
      HostTable.checkResults func results = .error failure →
      ServedEnds env host? name ln e (.error (.failed failure))

/-- What ends an invocation leaves none under way. -/
theorem Lane.entry_of_leaveWith {x : Executable} {r : Ending (List Datum)} {ln : Lane}
    {result : Except Abort Outcome} (h : Lane.leaveWith x r = some (result, ln))
    (hends : (∃ failure, result = .error (.failed failure))
      ∨ ∃ values steps, result = .ok (.finished values steps)) : ln.entry = none := by
  have hfail {ln₀ : Lane} {cause : Abort} (hfails : ln₀.failWith cause = (result, ln)) :
      ln.entry = none := by
    cases cause with
    | failed e =>
        cases hfails
        rfl
    | crashed message =>
        cases hfails
        rcases hends with ⟨failure, hfailure⟩ | ⟨values, steps, hvalues⟩
        · cases hfailure
        · cases hvalues
  obtain ⟨r, s⟩ := r
  cases r with
  | error stop =>
      cases stop with
      | trap code => exact hfail (Option.some.inj h)
      | abort cause => exact hfail (Option.some.inj h)
      | outOfFuel => cases h
  | ok data =>
      replace h := Option.some.inj h
      unfold Lane.settle at h
      split at h
      · exact hfail h
      · split at h
        · exact hfail h
        · cases h
          rcases hends with ⟨failure, hfailure⟩ | ⟨values, steps, hvalues⟩
          · cases hfailure
          · cases hvalues
        · split at h
          · cases h
            assumption
          · split at h
            · exact hfail h
            · cases h
              rfl

end Execution

namespace Compile

/-- An invocation of an entry point is under way, and the lane rests at a situation of its calls. -/
def Compiled.Rests (out : Compiled) (frames : List Frames) (e : Entry) (ln : Lane) : Prop :=
  e ∈ out.entries ∧ ln.entry = some e ∧ ∃ exit, e.exit = some exit ∧ ∃ s : Situation Unit,
    s.Possible frames out e.sig.results ∧ s.Rests out exit e.sig.results ln

/-- A lane between two operations: it has all its words, and what is under way on it rests. -/
structure Compiled.Steady (out : Compiled) (frames : List Frames) (ln : Lane) : Prop where
  sized : ln.Sized out.toExecutable
  rests : ∀ e, ln.entry = some e → out.Rests frames e ln

/-- A host that never answers. -/
def mute : Execution.Host Unit := ⟨fun memory _ _ _ => (.error (.plain ""), memory)⟩

theorem isHost_mute (out : Compiled) (lane : Nat) : out.IsHost mute lane := nofun

section Steps

variable {frames : List Frames} {out : Compiled} {env : Env} {e : Entry} {exit : BlockId} {ln : Lane}
  {s : Situation Unit} {y : Except Abort Outcome × Lane}

theorem withEntry_eq (h : ln.entry = some e) : { ln with entry := some e } = ln := by rw [← h]

/-- A run that takes the steps of a situation ends as an entry point may. -/
theorem ends_of_runsFrom (h : Service frames out env mute e exit ln) (he : e ∈ out.entries)
    (hexit : e.exit = some exit) (hpossible : s.Possible frames out e.sig.results)
    {x : Option (Execution.Ending (List Datum))}
    (hruns : RunsFrom frames out (out.world mute ln.index).reply exit e.sig.results s ln x)
    (hy : x.bind (Lane.leaveWith out.toExecutable) = some y) :
    env.Ends ln e y.1 ∧ (y.2.entry.isSome = true → out.Rests frames e y.2) := by
  obtain ⟨result, ln'⟩ := y
  obtain ⟨r, -, hleave⟩ := Option.bind_eq_some_iff.mp hy
  have hdone {P : Prop} (hends : (∃ failure, result = .error (.failed failure))
      ∨ ∃ values steps, result = .ok (.finished values steps)) (hsome : ln'.entry.isSome = true) : P := by
    rw [Lane.entry_of_leaveWith hleave hends] at hsome
    cases hsome
  have htrapped {c : TrapCode} (hc : c ∈ TrapCode.lawful)
      (hresult : result = .error (.failed (ln.trapFailure c))) :
      env.Ends ln e result ∧ (ln'.entry.isSome = true → out.Rests frames e ln') := by
    refine ⟨?_, hdone (.inl ⟨_, hresult⟩)⟩
    rw [hresult, ← withEntry_eq h.entry]
    exact .trapped hc
  rcases leaves_of_runsFrom (Lane.Kin.refl ln) .refl hruns with ⟨y', hy', hover⟩ | hrel
  · obtain rfl := Option.some.inj (hy'.symm.trans hy)
    cases result with
    | ok o => exact hover.elim
    | error cause =>
        cases cause with
        | crashed message => exact hover.elim
        | failed failure =>
            exact htrapped (c := .stackOverflow) (by decide) (by rw [hover.1])
  · obtain ⟨z, hz, hleaves⟩ := hrel.of_some hy
    cases z with
    | inl s' =>
        obtain ⟨hpossible', -, -, ln₁, hkin, hstopped, hsettle⟩ := hleaves
        dsimp only at hsettle
        cases hstopped with
        | @leave results shared _ hempty hio =>
            cases hpossible' with
            | leave hresults _ =>
                rw [settle_leave (hkin.entry.trans h.entry) h.known hresults.length_eq hempty hio]
                  at hsettle
                cases hsettle
                exact ⟨.finished (out.layout.types_valuesOf hresults.length_eq),
                  hdone (.inr ⟨_, _, rfl⟩)⟩
        | @ask waiting func args shared _ hrests =>
            rw [settle_ask h.runner h.hosts hpossible' hrests] at hsettle
            cases hsettle
            refine ⟨?_, fun _ => ⟨he, hkin.entry.trans h.entry, exit, hexit, _, hpossible', hrests⟩⟩
            cases hpossible' with
            | ask hasked _ hargs _ _ =>
                refine .yielded ?_ (out.layout.types_valuesOf hargs.length_eq)
                rw [h.runner.exe]
                exact hasked
    | inr done =>
        have hleads := hpossible.stepOn h.runner.machinery h.runner.sound hz
        obtain ⟨r', shared⟩ := done
        cases r' with
        | ok results => exact hleaves.elim
        | error stop =>
            cases stop with
            | stuck => exact hleaves.elim
            | hostFailed func cause => exact hleaves.elim
            | trap c => exact htrapped (TrapCode.mem_lawful_of_isPlain hleads.1) hleaves.1

end Steps

/-! ## Entry points -/

/-- A module that has been compiled from a checked program, with words that can be counted. -/
structure IsBuild (p : Program) (plan : Plan) (out : Compiled) : Prop where
  origin : ∃ config g direct machines entries, Origin config p out g plan direct machines entries
  formed : p.Formed
  checked : ∀ f ∈ p.funcs, p.check f = .ok ()
  valid : out.module.validate = .ok ()
  linked : Execution.Linked p plan.frames out
  limit : out.stackWords.toNat < 2 ^ 31
  globals : p.GlobalsCountable out.layout
  countable : p.ExportsCountable out.layout

section Entries

variable {p : Program} {plan : Plan} {out : Compiled} {env : Env} {e : Entry} {exit : BlockId}
  {ln : Lane} {y : Except Abort Outcome × Lane} {data : List Datum} {shared : Shared Unit}

theorem IsBuild.runnable (h : IsBuild p plan out) (henv : env.exe = out.toExecutable) :
    Runnable env.exe := by
  rw [henv]
  exact h.linked.runnable

theorem IsBuild.service (h : IsBuild p plan out) (henv : env.exe = out.toExecutable)
    (hsteps : env.maxSteps = 0) (hcancelled : env.cancelled = false) (he : e ∈ out.entries)
    (hexit : e.exit = some exit) (hentry : ln.entry = some e) (hsized : ln.Sized out.toExecutable)
    (hplace : Fits out.toExecutable ln.index) :
    Service plan.frames out env mute e exit ln ∧ ∃ fr ∈ plan.frames,
      fr.machine.func.index = e.func ∧ fr.machine.func.type = e.sig
        ∧ out.module.function? e.shader = some (machineEntry out.layout e.shader e.sig
          ((out.blockContext fr).numberOf 0) exit out.stackWords) := by
  obtain ⟨config, g, direct, machines, entries, horigin⟩ := h.origin
  exact horigin.service h.formed h.checked h.valid h.linked h.limit h.countable henv hsteps hcancelled he
    hexit hentry hsized hplace (isHost_mute out ln.index)

/-- An entry point that runs the dispatcher ends as it may. -/
theorem IsBuild.ends_machine (h : IsBuild p plan out) (henv : env.exe = out.toExecutable)
    (hsteps : env.maxSteps = 0) (hcancelled : env.cancelled = false) (he : e ∈ out.entries)
    (hexit : e.exit = some exit) (hentry : ln.entry = some e) (hsized : ln.Sized out.toExecutable)
    (hplace : Fits out.toExecutable ln.index) (hsupplied : Supplied out e ln data shared)
    (hy : (eventual fun n => ln.enter env n e.shader) = some y) :
    env.Ends ln e y.1 ∧ (y.2.entry.isSome = true → out.Rests plan.frames e y.2) := by
  obtain ⟨hservice, fr, hfr, -, htype, hcode⟩ :=
    h.service henv hsteps hcancelled he hexit hentry hsized hplace
  obtain ⟨config, g, direct, machines, entries, horigin⟩ := h.origin
  obtain ⟨hdata, ⟨stored, hio⟩, hshared, hglobals⟩ := hsupplied
  have hsized' : ln.Sized env.exe := by
    rw [henv]
    exact hsized
  have hx := h.runnable henv
  have hparams := h.linked.accepts e he
  have hexit' := hservice.exit
  have hroom := hservice.room
  have hsmall := horigin.firstSize_lt h.countable he
  rw [← htype] at hparams hdata hio hexit' hroom hcode hsmall
  have hruns := callMeaning_machineEntry hservice.runner hsteps hcancelled hfr hexit' hsized'
    hservice.addressable hparams hdata hio hshared hglobals hroom hsmall e.shader
  rw [Lane.eventual_enter hx (by rw [henv]; exact hcode), henv] at hy
  rw [htype] at hruns hy
  have hpossible : Situation.Possible plan.frames out e.sig.results
      (⟨[], .run ⟨fr, 0, data, []⟩, shared⟩ : Situation Unit) := by
    rw [← htype]
    exact .run (Activation.start_fits hservice.runner.machinery hfr hdata) .done hshared
  exact ends_of_runsFrom hservice he hexit hpossible hruns hy

/-- An entry point without an exit block is that of a function that runs without the dispatcher. -/
theorem Origin.directSafe_of_exit {config : Config} {g : CallGraph} {direct : List Shader.Function}
    {machines : List (List Shader.Function)} {entries : List Shader.Function}
    (h : Origin config p out g plan direct machines entries) (hp : p.Formed) (he : e ∈ out.entries)
    (hexit : e.exit = none) : ∃ f ∈ p.funcs, f.index = e.func ∧ f.type = e.sig ∧ out.Keeps f.index
      ∧ out.analysis.directSafe f.index = true := by
  rw [h.entries_eq] at he
  obtain ⟨x, -, f, hf, hkept, hexported, symbol, hsymbol, rfl⟩ := h.planned.of_mem_entries he
  refine ⟨f, hf, rfl, rfl, hkept, ?_⟩
  have hnone : x.exit.isSome = false := by
    rw [← Option.isSome_map (f := (·.id))]
    exact Option.isSome_eq_false_iff.mpr (Option.isNone_iff_eq_none.mpr hexit)
  rw [hexported.symbols, List.mem_filter] at hsymbol
  rw [hexported.exit, hasExit, List.any_eq_true.mpr ⟨symbol, hsymbol⟩, Bool.true_and] at hnone
  rw [h.analysis_eq]
  exact CallGraph.directSafe_of_not_needsMachine (CallGraph.sound_of_build hp h.graph)
    (mem_nodes_of_mem h.graph hf) hnone

/-- What an entry point that calls a direct form leaves is how it may end. -/
theorem ends_of_directEnds (hentry : ln.entry = some e)
    (hresults : AllKnown e.sig.results)
    {x : Option (Execution.Ending (List Datum))} {z : Option (Ending (Shared Unit) (List Datum))}
    (hrel : Option.Rel (DirectEnds out.program out.layout e.sig.results ln) x z)
    (hanswers : ∀ r shared', z = some (r, shared') →
      AnswerFits out.program out.layout e.sig.results r shared')
    (hy : x.bind (Lane.leaveWith out.toExecutable) = some y) :
    env.Ends ln e y.1 ∧ y.2.entry = none := by
  obtain ⟨result, ln'⟩ := y
  obtain ⟨⟨r, t⟩, rfl, hleave⟩ := Option.bind_eq_some_iff.mp hy
  obtain ⟨⟨r', shared'⟩, rfl, hends⟩ := hrel.of_some rfl
  have hfits := hanswers _ _ rfl
  cases r with
  | ok data =>
      cases r' with
      | error e => exact hends.elim
      | ok results =>
          obtain ⟨hkin, hempty, hio, -⟩ := hends
          have hlen := hfits.1.length_eq
          rw [Lane.leaveWith, settle_leave (hkin.entry.trans hentry) hresults hlen hempty hio] at hleave
          cases hleave
          exact ⟨.finished (out.layout.types_valuesOf hlen), rfl⟩
  | error stop =>
      cases stop with
      | abort cause => cases r' <;> exact hends.elim
      | outOfFuel => cases r' <;> exact hends.elim
      | trap c =>
          cases r' with
          | ok results => exact hends.elim
          | error stop' =>
              cases stop' with
              | stuck => exact hends.elim
              | hostFailed func cause => exact hends.elim
              | trap c' =>
                  obtain ⟨rfl, hkin⟩ := hends
                  cases hleave
                  rw [trapFailure_of_kin hkin, ← withEntry_eq hentry]
                  exact ⟨.trapped (TrapCode.mem_lawful_of_isPlain hfits.1), rfl⟩

/-- An entry point that calls a direct form ends as it may. -/
theorem IsBuild.ends_direct (h : IsBuild p plan out) (henv : env.exe = out.toExecutable)
    (hcancelled : env.cancelled = false) (he : e ∈ out.entries) (hexit : e.exit = none)
    (hentry : ln.entry = some e) (hsized : ln.Sized out.toExecutable)
    (hplace : Fits out.toExecutable ln.index) (hsupplied : Supplied out e ln data shared)
    (hy : (eventual fun n => ln.enter env n e.shader) = some y) :
    env.Ends ln e y.1 ∧ y.2.entry = none := by
  obtain ⟨config, g, direct, machines, entries, horigin⟩ := h.origin
  obtain ⟨hdata, ⟨stored, hio⟩, hshared, hglobals⟩ := hsupplied
  obtain ⟨f, hf, hindex, htype, hkept, hsafe⟩ := horigin.directSafe_of_exit h.formed he hexit
  obtain ⟨code, hcode, hstarts⟩ := h.linked.runnable.entry e he
  obtain rfl : code = directEntry out.layout e.shader (directName e.func) e.sig := by
    rcases hstarts with ⟨-, hdirect⟩ | ⟨⟨exit, first, hsome, -⟩, -⟩
    · exact hdirect
    · rw [hexit] at hsome
      cases hsome
  have hprogram := horigin.program_eq
  have hanswers : Emit.Answers out.program out.layout out.Keeps (out.world mute ln.index).reply := by
    refine Compiled.answers_reply ?_ ?_ ?_ (isHost_mute out ln.index) out.Keeps
    · rw [hprogram]; exact h.formed
    · rw [hprogram]; exact h.checked
    · rw [hprogram]; exact horigin.planned.table.1
  have hmem : f ∈ out.program.funcs := by
    rw [hprogram]
    exact hf
  have hrequest : requestSignature? out.program (.call f.index) = some f.type := by
    rw [requestSignature?, func?_of_mem (by rw [hprogram]; exact h.formed) hmem]
    rfl
  have hfits (r : Except Stop (List Datum)) (shared' : Shared Unit)
      (hr : (out.world mute ln.index).reply (.call f.index) data shared = some (r, shared')) :
      AnswerFits out.program out.layout e.sig.results r shared' := by
    rw [← htype] at hdata ⊢
    exact hanswers.sound _ _ _ _ hrequest hdata hshared r shared' hr
  have hknown := (h.formed.funcKnown f hf).1
  obtain ⟨exe, maxSteps, cancelled, tracing⟩ := env
  obtain rfl : exe = out.toExecutable := henv
  have hforms := horigin.hasDirectForms h.formed h.valid h.linked.runnable rfl hcancelled
  obtain ⟨fn, hfn, hname, hform⟩ :=
    exists_directForm (horigin.checked h.formed h.checked) hforms hanswers hmem hkept hsafe
  obtain ⟨hfound, hnotBlock⟩ := hforms.forms f hmem hkept hsafe fn hfn
  rw [hname, hindex] at hfound hnotBlock
  rw [htype] at hform hknown
  rw [Lane.eventual_enter h.linked.runnable hcode] at hy
  have hrel := callMeaning_directEntry h.linked.runnable hform hfits hfound hnotBlock hsized
    (fun r => ⟨by rw [hsized]; exact (hplace r).1, by rw [hsized]; exact (hplace r).2⟩) hknown.params
    hknown.results hdata hio hshared hglobals
    (by rw [hsized]; exact (horigin.io_room h.countable he).2) e.shader
  exact ends_of_directEnds hentry hknown.results hrel hfits hy

/-- A suspended lane goes on and ends as it may. -/
theorem IsBuild.ends_resume (h : IsBuild p plan out) (henv : env.exe = out.toExecutable)
    (hsteps : env.maxSteps = 0) (hcancelled : env.cancelled = false)
    (hsized : ln.Sized out.toExecutable) (hplace : Fits out.toExecutable ln.index)
    (hrests : out.Rests plan.frames e ln)
    (hy : (eventual fun n => ln.enter env n resumeName) = some y) :
    env.Ends ln e y.1 ∧ (y.2.entry.isSome = true → out.Rests plan.frames e y.2) := by
  obtain ⟨he, hentry, exit, hexit, s, hpossible, hrests⟩ := hrests
  obtain ⟨hservice, -⟩ := h.service henv hsteps hcancelled he hexit hentry hsized hplace
  have hsized' : ln.Sized env.exe := by
    rw [henv]
    exact hsized
  have hx := h.runnable henv
  rw [Lane.eventual_enter hx (by rw [henv]; exact hservice.resume), henv] at hy
  exact ends_of_runsFrom hservice he hexit hpossible (callMeaning_resumeEntry hservice.runner hsteps
    hcancelled hservice.exit hsized' hservice.addressable hservice.room hpossible hrests) hy

/-- With limits, too, a run of an entry point ends as it may. -/
theorem ends_of_enter (hx : Runnable env.exe) {name : String} {f : Shader.Function}
    (hf : env.exe.module.function? name = some f)
    (hunlimited : ∀ y, (eventual fun n => ln.enter env.unlimited n name) = some y →
      env.unlimited.Ends ln e y.1 ∧ (y.2.entry.isSome = true → out.Rests plan.frames e y.2))
    {n : Nat} (hy : ln.enter env n name = some y) :
    env.Ends ln e y.1 ∧ (y.2.entry.isSome = true → out.Rests plan.frames e y.2) := by
  rcases Lane.enter_unlimited hx hf hy with hsame | ⟨failure, hlimits, hresult⟩
  · obtain ⟨hends, hrests⟩ :=
      hunlimited y ((eventual_eq_some_iff (Lane.settles_enter _ ln name)).mpr ⟨n, hsame⟩)
    exact ⟨hends.of_unlimited, hrests⟩
  · obtain ⟨result, ln'⟩ := y
    obtain rfl : result = .error (.failed failure) := hresult
    rw [Lane.enter_eq hx hf] at hy
    obtain ⟨r, -, hleave⟩ := Option.bind_eq_some_iff.mp hy
    refine ⟨.limited hlimits, fun hsome => ?_⟩
    rw [Lane.entry_of_leaveWith hleave (.inl ⟨failure, rfl⟩)] at hsome
    cases hsome

end Entries

/-! ## Operations -/

/-- An operation on a lane has run an entry point. A request that it tells is what the lane asks for. -/
structure Compiled.Ran (out : Compiled) (frames : List Frames) (env : Env) (e : Entry) (ln : Lane)
    (y : Except Abort Outcome × Lane) : Prop where
  ends : env.Ends ln e y.1
  steady : out.Steady frames y.2
  index : y.2.index = ln.index
  waits : ∀ request steps, y.1 = .ok (.yielded request steps) →
    y.2.entry = some e ∧ out.hosts.pending y.2.stack = .ok (some request)

section Operations

variable {p : Program} {plan : Plan} {out : Compiled} {frames : List Frames} {env : Env} {e : Entry}
  {ln ln' saved : Lane} {n : Nat} {symbol : Symbol} {args results : List Value}
  {y : Except Abort Outcome × Lane}

theorem ran_of_ends (hends : env.Ends ln e y.1)
    (hrests : y.2.entry.isSome = true → out.Rests frames e y.2) (hsized : y.2.Sized out.toExecutable)
    (hindex : y.2.index = ln.index) (hyield : ∀ request steps, y.1 = .ok (.yielded request steps) →
      Execution.AtYield out.toExecutable y.2 request steps) : out.Ran frames env e ln y where
  ends := hends
  steady := ⟨hsized, fun e' he' => by
    have hrests := hrests (by rw [he']; rfl)
    obtain rfl := Option.some.inj (hrests.2.1.symm.trans he')
    exact hrests⟩
  index := hindex
  waits request steps hresult := by
    have hat := hyield request steps hresult
    exact ⟨(hrests hat.entry).2.1, hat.pending⟩

/-- An export that is called with arguments of its types ends as it may. -/
theorem IsBuild.invoke (h : IsBuild p plan out) (henv : env.exe = out.toExecutable)
    (hsteady : out.Steady plan.frames ln) (hplace : Fits out.toExecutable ln.index)
    (he : out.toExecutable.entryFor? symbol = some e) (hargs : Lane.checkArgs e args = .ok ())
    (hy : ln.invoke env n symbol args = some y) : out.Ran plan.frames env e ln y := by
  have hx := h.runnable henv
  have hmem : e ∈ out.entries := List.mem_of_find?_eq_some he
  have htypes := Execution.types_of_checkArgs hargs
  obtain ⟨_, -, hagree⟩ :=
    ((Execution.Mates.self hsteady.sized).invoke h.linked.runnable henv n symbol args).of_some hy
  have hyield (request : Pending) (steps : Nat) (hresult : y.1 = .ok (.yielded request steps)) :
      Execution.AtYield out.toExecutable y.2 request steps := by
    rw [← henv]
    refine Execution.atYield_of_invoke hx (by rw [henv]; exact hsteady.sized) (hy.trans ?_)
    rw [← hresult]
  have hstarted : ln.started? env.exe symbol args = some (startedOn out e args ln, e.shader) := by
    rw [henv]
    exact started_of_types ln he htypes (h.linked.accepts e hmem)
  have hsized := sized_startedOn hsteady.sized e args
  obtain ⟨config, g, direct, machines, entries, horigin⟩ := h.origin
  have hsupplied := horigin.supplied h.formed h.globals h.countable hmem hsteady.sized htypes ()
  obtain ⟨code, hcode, -⟩ := h.linked.runnable.entry e hmem
  rw [Lane.invoke_of_started env hstarted] at hy
  have hunlimited (y : Except Abort Outcome × Lane)
      (hy : (eventual fun n => (startedOn out e args ln).enter env.unlimited n e.shader) = some y) :
      env.unlimited.Ends (startedOn out e args ln) e y.1
        ∧ (y.2.entry.isSome = true → out.Rests plan.frames e y.2) := by
    cases hexit : e.exit with
    | none =>
        have hdirect : env.unlimited.Ends (startedOn out e args ln) e y.1 ∧ y.2.entry = none :=
          h.ends_direct henv rfl hmem hexit rfl hsized hplace hsupplied hy
        exact ⟨hdirect.1, fun hsome => by rw [hdirect.2] at hsome; cases hsome⟩
    | some exit => exact h.ends_machine henv rfl rfl hmem hexit rfl hsized hplace hsupplied hy
  obtain ⟨hends, hrests⟩ := ends_of_enter hx (by rw [henv]; exact hcode) hunlimited hy
  exact ran_of_ends (hends.of_index rfl) hrests hagree.mates.sized hagree.index hyield

/-- A suspended lane goes on and ends as it may. -/
theorem IsBuild.resume (h : IsBuild p plan out) (henv : env.exe = out.toExecutable)
    (hsteady : out.Steady plan.frames ln) (hplace : Fits out.toExecutable ln.index)
    (hentry : ln.entry = some e) (hsuspended : ln.isSuspended = true)
    (hy : ln.resume env n = some y) : out.Ran plan.frames env e ln y := by
  have hx := h.runnable henv
  obtain ⟨_, -, hagree⟩ :=
    ((Execution.Mates.self hsteady.sized).resume h.linked.runnable henv n).of_some hy
  have hyield (request : Pending) (steps : Nat) (hresult : y.1 = .ok (.yielded request steps)) :
      Execution.AtYield out.toExecutable y.2 request steps := by
    rw [← henv]
    refine Execution.atYield_of_resume hx (by rw [henv]; exact hsteady.sized) (hy.trans ?_)
    rw [← hresult]
  rw [Lane.resume, if_pos hsuspended] at hy
  have hrests := hsteady.rests e hentry
  have hcode : env.exe.module.function? resumeName = some resumeEntry := by
    obtain ⟨he, -, exit, hexit, -⟩ := hrests
    obtain ⟨code, -, ⟨hnone, -⟩ | ⟨-, hresume⟩⟩ := h.linked.runnable.entry e he
    · rw [hexit] at hnone
      cases hnone
    · rw [henv]
      exact hresume
  obtain ⟨hends, hrests'⟩ := ends_of_enter (e := e) hx hcode
    (fun y hy => h.ends_resume henv rfl rfl hsteady.sized hplace hrests hy) hy
  exact ran_of_ends hends hrests' hagree.mates.sized hagree.index hyield

theorem IsBuild.hosts (h : IsBuild p plan out) : out.hosts.Sound out.program := by
  obtain ⟨config, g, direct, machines, entries, horigin⟩ := h.origin
  rw [horigin.program_eq]
  exact horigin.planned.table.1

theorem IsBuild.runner (h : IsBuild p plan out) (henv : env.exe = out.toExecutable)
    (hcancelled : env.cancelled = false) (lane : Nat) :
    Runner plan.frames out env (out.world mute lane).reply := by
  obtain ⟨config, g, direct, machines, entries, horigin⟩ := h.origin
  have hhosts := h.hosts
  rw [horigin.program_eq] at hhosts
  exact horigin.runner h.formed h.checked h.valid h.linked h.limit henv hcancelled hhosts
    (isHost_mute out lane)

/-- A lane that asks for something rests at a situation where the host is asked for it. -/
theorem IsBuild.asks (h : IsBuild p plan out) (he : e ∈ out.entries) {exit : BlockId}
    (hexit : e.exit = some exit) {s : Situation Unit}
    (hpossible : s.Possible plan.frames out e.sig.results)
    (hrests : s.Rests out exit e.sig.results ln) {request : Pending}
    (hpending : out.hosts.pending ln.stack = .ok (some request)) :
    ∃ args, s.task = .ask request.func args := by
  have hrunner : Runner plan.frames out { exe := out.toExecutable } (out.world mute 0).reply :=
    h.runner rfl rfl 0
  obtain ⟨words, hwords, hinUse, hsmall⟩ := hrests.exists_words hrunner
  obtain ⟨back, hholds⟩ := holds_of_inUse hinUse
  obtain ⟨-, hasked⟩ := HostTable.of_pending hholds (by omega) hpending
  obtain ⟨⟨w⟩, hlast, hfunc⟩ := hasked request rfl
  -- the number on top of other situations is that of a block
  have hblock {id : BlockId} {fn : Shader.Function} (hruns : Execution.Runs out id fn)
      (hid : id.val = w) : False := by
    have hnone := hruns.lookup? h.linked
    obtain rfl : id = ⟨w⟩ := congrArg BlockId.mk hid
    rw [hfunc] at hnone
    cases hnone
  cases hwords with
  | run hbelow =>
      rw [List.getLast?_concat, Option.some.injEq] at hlast
      obtain ⟨fn, hruns, -⟩ := @run_turn Unit _ _ _ _ exit _ _ _ _ hrunner hpossible
      exact (hblock hruns hlast).elim
  | leave =>
      rw [List.getLast?_concat, Option.some.injEq] at hlast
      obtain ⟨fr, -, -, -, ⟨name, hruns⟩, -⟩ := h.linked.starts e he exit hexit
      exact (hblock hruns hlast).elim
  | @ask waiting func args shared below hbelow =>
      rw [← List.append_assoc, List.getLast?_concat, Option.some.injEq] at hlast
      cases hpossible with
      | ask hlookup _ _ _ _ =>
          obtain hid : func.id = ⟨w⟩ := congrArg BlockId.mk hlast
          rw [hid, hfunc, Option.some.injEq] at hlookup
          exact ⟨args, by rw [hlookup]⟩

/-- The answer to what a lane asks for is taken, and the lane is still suspended. -/
theorem IsBuild.complete (h : IsBuild p plan out) (hsteady : out.Steady plan.frames ln)
    (hentry : ln.entry = some e) {request : Pending}
    (hpending : out.hosts.pending ln.stack = .ok (some request))
    (htypes : results.map (·.type) = request.func.results) :
    ∃ ln', ln.complete out.toExecutable request results = (.ok (), ln')
      ∧ out.Steady plan.frames ln' ∧ ln'.index = ln.index ∧ ln'.entry = some e
      ∧ ln'.isSuspended = true := by
  obtain ⟨he, -, exit, hexit, ⟨waiting, task, shared⟩, hpossible, hrests⟩ := hsteady.rests e hentry
  obtain ⟨args, hask⟩ := h.asks he hexit hpossible hrests hpending
  dsimp only at hask
  subst hask
  have hrunner : Runner plan.frames out { exe := out.toExecutable } (out.world mute 0).reply :=
    h.runner rfl rfl 0
  obtain ⟨ln', hcomplete, hkin, hrests', hsp⟩ :=
    hrests.answer hrunner h.hosts hpossible htypes request.args ()
  have hpossible' : Situation.Possible plan.frames out e.sig.results
      (Situation.back waiting (results.map (.ofValue out.layout)) shared) := by
    cases hpossible with
    | ask _ _ _ hwaits hshared =>
        refine hwaits.back hrunner.machinery ?_ hshared
        rw [← htypes]
        exact fitsAll_ofValue out.layout results
  have hentry' := hkin.entry.trans hentry
  refine ⟨ln', hcomplete, ⟨fun r => (hkin.sizes r).trans (hsteady.sized r), fun e' he' => ?_⟩,
    hkin.index, hentry', ?_⟩
  · obtain rfl := Option.some.inj (hentry'.symm.trans he')
    exact ⟨he, hentry', exit, hexit, _, hpossible', hrests'⟩
  · rw [Lane.isSuspended, hentry']
    exact decide_eq_true hsp

/-- An answer that is refused leaves the lane as it is. -/
theorem complete_of_refused {request : Pending} {failure : Failure}
    (h : HostTable.checkResults request.func results = .error failure) :
    ln.complete out.toExecutable request results = (.error (.failed failure), ln) := by
  rw [Lane.complete, Execution.complete_of_refused h]

/-- Neither the number of a lane matters nor what is recorded of blocks. -/
theorem Compiled.Steady.moved (h : out.Steady frames ln) (index : Nat)
    (trace : List (BlockId × UInt32)) : out.Steady frames { ln with index, trace } where
  sized := h.sized
  rests e he := by
    obtain ⟨hmem, hentry, exit, hexit, s, hpossible, hrests⟩ := h.rests e he
    exact ⟨hmem, hentry, exit, hexit, s, hpossible, hrests.words, hrests.size, hrests.globals⟩

/-- A state that was saved of a steady lane makes a steady lane of another. -/
theorem Compiled.Steady.restore (h : out.Steady frames ln) (hsaved : out.Steady frames saved) :
    out.Steady frames (ln.restore saved) := by
  rw [h.sized.restore hsaved.sized]
  exact hsaved.moved ln.index ln.trace

end Operations

/-! ## Serving -/

section Serving

variable {σ : Type} {p : Program} {plan : Plan} {out : Compiled} {env : Env} {e : Entry} {ln ln' : Lane}
  {host? : Option (Execution.Host σ)} {n : Nat} {name : String}

/-- A host that serves a lane has it go on until it ends as it may, or until the host fails. -/
theorem IsBuild.serve (h : IsBuild p plan out) (henv : env.exe = out.toExecutable)
    (hplace : Fits out.toExecutable ln.index) {r : Except Abort Outcome}
    (hran : out.Ran plan.frames env e ln (r, ln')) {memory : σ}
    {z : Except Abort (List Value) × Lane × σ}
    (hz : Lane.serve env host? name n r ln' memory = some z) :
    env.ServedEnds host? name ln e z.1 ∧ out.Steady plan.frames z.2.1 ∧ z.2.1.index = ln.index := by
  induction n generalizing r ln' memory with
  | zero => cases hz
  | succ n ih =>
      obtain ⟨hends, hsteady, hindex, hwaits⟩ := hran
      cases hends with
      | finished htypes =>
          cases hz
          exact ⟨.values htypes, hsteady, hindex⟩
      | trapped hcode =>
          cases hz
          exact ⟨.failed (.trapped hcode), hsteady, hindex⟩
      | limited hlimits =>
          cases hz
          exact ⟨.failed (.limited hlimits), hsteady, hindex⟩
      | @yielded request steps hfunc hargs =>
          obtain ⟨hentry, hpending⟩ := hwaits request steps rfl
          cases host? with
          | none =>
              cases hz
              exact ⟨.unserved rfl hfunc, hsteady, hindex⟩
          | some host =>
              rw [Lane.serve_yielded, Lane.ask] at hz
              dsimp only at hz hentry hpending
              cases hcall : host.call memory ln'.index request.func request.args with
              | mk answer memory' =>
              rw [hcall] at hz
              rw [show ln'.index = ln.index from hindex] at hcall
              cases answer with
              | error cause =>
                  cases hz
                  exact ⟨.hostFailed rfl hfunc hcall,
                    ⟨hsteady.sized, fun _ hentry => by cases hentry⟩, hindex⟩
              | ok results =>
                  dsimp only at hz
                  cases hcheck : HostTable.checkResults request.func results with
                  | error failure =>
                      rw [henv, complete_of_refused hcheck] at hz
                      cases hz
                      exact ⟨.refused rfl hfunc hcall hcheck, hsteady, hindex⟩
                  | ok u =>
                      obtain ⟨ln₂, hcomplete, hsteady₂, hindex₂, hentry₂, hsuspended⟩ :=
                        h.complete hsteady hentry hpending (HostTable.checkResults_eq_ok_iff.mp hcheck)
                      rw [henv, hcomplete] at hz
                      obtain ⟨⟨r', ln₃⟩, hresume, hz⟩ := Option.bind_eq_some_iff.mp hz
                      have hindex₂ : ln₂.index = ln.index := hindex₂.trans hindex
                      have hran := h.resume henv hsteady₂ (by rw [hindex₂]; exact hplace) hentry₂
                        hsuspended hresume
                      exact ih ⟨hran.ends.of_index hindex₂.symm, hran.steady, hran.index.trans hindex₂,
                        hran.waits⟩ hz

/-- An export that is run with arguments of its types ends as it may. -/
theorem IsBuild.run (h : IsBuild p plan out) (henv : env.exe = out.toExecutable)
    (hsteady : out.Steady plan.frames ln) (hplace : Fits out.toExecutable ln.index) {symbol : Symbol}
    (he : out.toExecutable.entryFor? symbol = some e) {args : List Value}
    (hargs : Lane.checkArgs e args = .ok ()) {memory : σ} {z : Except Abort (List Value) × Lane × σ}
    (hz : ln.run env host? n symbol args memory = some z) :
    env.ServedEnds host? symbol.text ln e z.1 ∧ out.Steady plan.frames z.2.1
      ∧ z.2.1.index = ln.index := by
  obtain ⟨y, hy, hz⟩ := Option.bind_eq_some_iff.mp hz
  exact h.serve henv hplace (h.invoke henv hsteady hplace he hargs hy) hz

end Serving

end Compile

end WasmShader
