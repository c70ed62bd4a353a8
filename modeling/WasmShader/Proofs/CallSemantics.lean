import WasmShader.Proofs.RegionSizes
import WasmShader.Proofs.ServedRuns
import WasmShader.Proofs.StackDiscipline

/-!
# Invocations are calls

An invocation of an entry point that runs the dispatcher comes to what a call of its function comes to
in the program, where every call evaluates the body of the callee with locals of its own, and the host
answers the requests (`compile_runs_calls`). The stack of the lane has an end, though. An invocation with
more calls under way than there is room for ends with a stack overflow, however the evaluation goes on.
-/

namespace WasmShader.Compile

open Emit Structured
open Execution (Datum Env Fits FitsAll Lane Runnable regionSize storedAll)

variable {σ : Type} {config : Config} {p : Program} {m : Binary.Module} {g : CallGraph} {plan : Plan}
  {out : Compiled} {direct : List Shader.Function} {machines : List (List Shader.Function)}
  {entries : List Shader.Function} {env : Env} {ln : Lane} {e : Entry} {exit : BlockId}
  {host : Execution.Host σ}

/-! ## Compiled modules -/

/-- The code of a compiled module runs the functions of its program. -/
theorem Origin.runner (h : Origin config p out g plan direct machines entries) (hp : p.Formed)
    (hcheck : ∀ f ∈ p.funcs, p.check f = .ok ()) (hvalid : out.module.validate = .ok ())
    (hlinked : Execution.Linked p plan.frames out) (hlimit : out.stackWords.toNat < 2 ^ 31)
    (henv : env.exe = out.toExecutable) (hcancelled : env.cancelled = false)
    (hhosts : out.hosts.Sound p) {lane : Nat} (hhost : out.IsHost host lane) :
    Runner plan.frames out env (out.world host lane).reply := by
  have hprogram := h.program_eq
  have hanswers : Emit.Answers p out.layout out.Keeps (out.world host lane).reply := by
    rw [← hprogram] at hp hcheck hhosts ⊢
    exact Compiled.answers_reply hp hcheck hhosts hhost out.Keeps
  exact
    { machinery := by rw [hprogram]; exact h.machinery hp hcheck hvalid hlinked
      linked := by rw [hprogram]; exact hlinked
      exe := henv
      limit := hlimit
      sound := by rw [hprogram]; exact hanswers.sound
      setting := fun fr hfr => h.setting hp hcheck hvalid hlinked.runnable henv hcancelled hanswers
        hfr }

/-- A lane that can be addressed serves an entry point that runs the dispatcher. -/
theorem Origin.service (h : Origin config p out g plan direct machines entries) (hp : p.Formed)
    (hcheck : ∀ f ∈ p.funcs, p.check f = .ok ()) (hvalid : out.module.validate = .ok ())
    (hlinked : Execution.Linked p plan.frames out) (hlimit : out.stackWords.toNat < 2 ^ 31)
    (hsizes : p.ExportsCountable out.layout) (henv : env.exe = out.toExecutable)
    (hsteps : env.maxSteps = 0) (hcancelled : env.cancelled = false) (he : e ∈ out.entries)
    (hexit : e.exit = some exit) (hentry : ln.entry = some e) (hsized : ln.Sized out.toExecutable)
    (hplace : Fits out.toExecutable ln.index) (hhost : out.IsHost host ln.index) :
    Service plan.frames out env host e exit ln ∧ ∃ fr ∈ plan.frames,
      fr.machine.func.index = e.func ∧ fr.machine.func.type = e.sig
        ∧ out.module.function? e.shader = some (machineEntry out.layout e.shader e.sig
          ((out.blockContext fr).numberOf 0) exit out.stackWords) := by
  have hhosts := h.planned.table.1
  obtain ⟨fr, hfr, hindex, htype, hisExit, hcode⟩ := hlinked.starts e he exit hexit
  obtain ⟨f, hf, hrun⟩ := hlinked.runnable.entry e he
  have hresume : out.module.function? resumeName = some resumeEntry := by
    rcases hrun with ⟨hnone, -⟩ | ⟨-, hresume⟩
    · rw [hexit] at hnone
      cases hnone
    · exact hresume
  refine ⟨?_, fr, hfr, hindex, htype, hcode⟩
  exact
    { runner := h.runner hp hcheck hvalid hlinked hlimit henv hcancelled hhosts hhost
      hosts := by rw [h.program_eq]; exact hhosts
      maxSteps := hsteps
      notCancelled := hcancelled
      answers := hhost
      entry := hentry
      exit := hisExit
      known := by rw [← htype]; exact (hlinked.machined fr hfr).known
      resume := hresume
      sized := hsized
      addressable := fun r => ⟨by rw [hsized]; exact (hplace r).1, by rw [hsized]; exact (hplace r).2⟩
      room := by rw [hsized]; exact (h.io_room hsizes he).2 }

/-! ## Starting -/

/-- The lane with the arguments of an invocation among its io words. -/
def startedOn (out : Compiled) (e : Entry) (args : List Value) (ln : Lane) : Lane :=
  { ln with
    io := Lane.overwrite (Array.replicate ln.io.size 0) (args.flatMap out.layout.encode).toArray
    entry := some e
    steps := 0 }

/-- Values of the types that an entry point takes are accepted. -/
theorem checkArgs_of_types {args : List Value} (hargs : args.map (·.type) = e.sig.params) :
    Lane.checkArgs e args = .ok () := by
  have hnone (values : List Value) :
      ((values.map (·.type)).zip values).find? (fun x => decide (x.2.type ≠ x.1)) = none := by
    induction values with
    | nil => rfl
    | cons v values ih =>
        rw [List.map_cons, List.zip_cons_cons, List.find?_cons_of_neg (by simp)]
        exact ih
  rw [Lane.checkArgs, ← hargs, if_neg (by simp)]
  dsimp only
  rw [hnone]

theorem started_of_types (ln : Lane) {symbol : Symbol} {args : List Value}
    (he : out.toExecutable.entryFor? symbol = some e) (hargs : args.map (·.type) = e.sig.params)
    (hknown : AllKnown e.sig.params) :
    ln.started? out.toExecutable symbol args = some (startedOn out e args ln, e.shader) := by
  have hencode : out.layout.encodeAll args = .ok (args.flatMap out.layout.encode) := by
    rw [Layout.encodeAll, hargs, Layout.requireKnown_eq_ok hknown]
    rfl
  rw [Lane.started?, he]
  dsimp only
  rw [checkArgs_of_types hargs, hencode]
  rfl

/-- The arguments are in front of the other io words. -/
theorem io_startedOn {args : List Value} (hargs : args.map (·.type) = e.sig.params)
    (hroom : out.layout.sizeOf e.sig.params ≤ ln.io.size) :
    ∃ stored, (startedOn out e args ln).io.toList
      = storedAll out.layout e.sig.params (args.map (.ofValue out.layout)) ++ stored := by
  have hwords := storedAll_ofValue out.layout args
  have hlen := out.layout.length_flatMap_encode args
  rw [hargs] at hwords hlen
  rw [hwords, startedOn]
  dsimp only
  generalize hcleared : Array.replicate ln.io.size (0 : UInt32) = cleared
  have hsize : (args.flatMap out.layout.encode).length ≤ cleared.size := by
    rw [← hcleared, Array.size_replicate, hlen]
    exact hroom
  refine ⟨(cleared.extract (args.flatMap out.layout.encode).toArray.size cleared.size).toList, ?_⟩
  rw [Lane.overwrite, Array.toList_append, Array.toList_extract, List.extract_eq_take_drop,
    List.drop_zero, Nat.sub_zero, List.take_of_length_le hsize]

/-- Starting an invocation changes no number of words. -/
theorem sized_startedOn (hsized : ln.Sized out.toExecutable) (e : Entry) (args : List Value) :
    (startedOn out e args ln).Sized out.toExecutable := by
  intro r
  cases r with
  | stack => exact hsized .stack
  | globals => exact hsized .globals
  | io =>
      refine Eq.trans ?_ (hsized .io)
      exact (Lane.size_overwrite ..).trans Array.size_replicate

/-- A lane holds the arguments of an entry point among its io words, and globals of the program. -/
structure Supplied (out : Compiled) (e : Entry) (ln : Lane) (data : List Datum) (shared : Shared σ) :
    Prop where
  dataFits : FitsAll out.layout e.sig.params data
  io : ∃ stored, ln.io.toList = storedAll out.layout e.sig.params data ++ stored
  sharedFits : out.program.GlobalsFit out.layout shared.globals
  globals : ln.globals.toList = out.program.globalWords out.layout shared.globals

/-- Starting an invocation supplies the entry point, and leaves the globals as they are. -/
theorem Origin.supplied (h : Origin config p out g plan direct machines entries)
    (hp : p.Formed) (hglobals : p.GlobalsCountable out.layout) (hsizes : p.ExportsCountable out.layout)
    (he : e ∈ out.entries) (hsized : ln.Sized out.toExecutable) {args : List Value}
    (hargs : args.map (·.type) = e.sig.params) (memory : σ) :
    Supplied out e (startedOn out e args ln) (args.map (.ofValue out.layout))
      ⟨out.program.readGlobals out.layout ln.globals.toList, memory⟩ := by
  have hio : ln.io.size = regionSize out.toExecutable .io := hsized .io
  have hlen : ln.globals.toList.length
      = out.layout.sizeOf ((out.program.globals.filter (·.isMutable)).map (·.type)) := by
    rw [Array.length_toList, h.program_eq, ← h.global_room hglobals]
    exact hsized .globals
  obtain ⟨hfit, hwords⟩ := readGlobals_spec ln.globals.toList
    (fun gl hgl => by
      rw [h.program_eq] at hgl
      exact (hp.globalKnown gl hgl).2) hlen
  refine ⟨?_, io_startedOn hargs (by rw [hio]; exact (h.io_room hsizes he).1), hfit, hwords.symm⟩
  rw [← hargs]
  exact fitsAll_ofValue out.layout args

/-- The words of a first frame can be counted. -/
theorem Origin.firstSize_lt (h : Origin config p out g plan direct machines entries)
    (hsizes : p.ExportsCountable out.layout) (he : e ∈ out.entries) :
    firstSize out.layout e.sig < 2 ^ 32 := by
  have hsize := h.entry_lt hsizes he
  rw [firstSize]
  omega

/-! ## Calls -/

/-- An invocation comes to what a call of the function of its entry point comes to, on the globals of the
lane: to the same results, the same trap or the same failure of the host, which remembers the same. -/
def RunsCall (out : Compiled) (env : Env) (host : Execution.Host σ) (ln : Lane) (symbol : Symbol)
    (e : Entry) (args : List Value) (memory : σ) : Prop :=
  Option.Rel (EndsAs out e (startedOn out e args ln))
    (eventual fun fuel => ln.run env (some host) fuel symbol args memory)
    ((out.world host ln.index).reply (.call e.func) (args.map (.ofValue out.layout))
      ⟨out.program.readGlobals out.layout ln.globals.toList, memory⟩)

/-- An invocation of an entry point that runs the dispatcher comes to what the call of its function does.
Or the stack has no room for the calls under way at a point that the evaluation reaches, and the invocation
ends there with a stack overflow, the host having been asked the same up to that point. There have to be
numbers for the host functions (at most 2³¹), and the words of the globals that can be set and of what an
exported function takes and gives have to be countable (fewer than 2³²). -/
theorem compile_runs_calls (hread : Program.ofModule m = .ok p)
    (hcheck : ∀ f ∈ p.funcs, p.check f = .ok ()) (h : compile config p = .ok out)
    (hlimit : out.stackWords.toNat < 2 ^ 31) (hfew : out.hosts.funcs.length ≤ BlockId.maxBlocks)
    (hglobals : p.GlobalsCountable out.layout) (hsizes : p.ExportsCountable out.layout) :
    ∃ g plan, CallGraph.build p = .ok g
      ∧ Compile.plan config.withDefaults p g.analyze (out.skipped.map (·.1)) = .ok (plan, out.hosts)
      ∧ ∀ (env : Env) (symbol : Symbol) (e : Entry) (exit : BlockId), env.exe = out.toExecutable →
        env.maxSteps = 0 → env.cancelled = false →
        out.toExecutable.entryFor? symbol = some e → e.exit = some exit →
        ∀ ln : Lane, ln.Sized out.toExecutable → Fits out.toExecutable ln.index →
        ∀ {σ : Type} (host : Execution.Host σ), out.IsHost host ln.index →
        ∀ (memory : σ) (args : List Value), args.map (·.type) = e.sig.params →
          ∃ fr ∈ plan.frames, fr.machine.func.index = e.func ∧ fr.machine.func.type = e.sig
            ∧ ((∃ c, (eventual fun fuel => ln.run env (some host) fuel symbol args memory) = some c
                ∧ Overflowed plan.frames out host e ⟨[], .run ⟨fr, 0, args.map (.ofValue out.layout), []⟩,
                  ⟨out.program.readGlobals out.layout ln.globals.toList, memory⟩⟩
                  (startedOn out e args ln) c)
              ∨ RunsCall out env host ln symbol e args memory) := by
  have hp := Program.formed_of_ofModule hread
  obtain ⟨-, g, plan, direct, machines, entries, -, horigin, -, hvalid⟩ := compile_eq_ok hp h
  have hlinked := horigin.linked hp hfew h hvalid
  refine ⟨g, plan, horigin.graph, horigin.planning, ?_⟩
  intro env symbol e exit henv hsteps hcancelled he hexit ln hsized hplace σ host hhost memory args hargs
  have hmem : e ∈ out.entries := List.mem_of_find?_eq_some he
  obtain ⟨hservice, fr, hfr, hindex, htype, hcode⟩ := horigin.service
    hp hcheck hvalid hlinked hlimit hsizes henv hsteps hcancelled hmem hexit rfl
    (sized_startedOn hsized e args) hplace hhost
  have hparams := hlinked.accepts e hmem
  have hsupplied := horigin.supplied hp hglobals hsizes hmem hsized hargs memory
  obtain ⟨stored, hstored⟩ := hsupplied.io
  have hsmall := horigin.firstSize_lt hsizes hmem
  have hstart := started_of_types ln he hargs hparams
  rw [← henv] at hstart
  have hrun : (eventual fun fuel => ln.run env (some host) fuel symbol args memory)
      = (eventual fun n => (startedOn out e args ln).enter env n e.shader).bind fun y =>
        untilDone (Lane.serveRound env host) (y.1, y.2, memory) := by
    rw [Lane.eventual_run]
    congr 1
    exact congrArg _ (funext fun n => Lane.invoke_of_started env hstart n)
  refine ⟨fr, hfr, hindex, htype, ?_⟩
  rw [RunsCall, hrun]
  exact hservice.runs hfr htype hindex hcode hparams hsmall hsupplied.dataFits hstored
    hsupplied.sharedFits hsupplied.globals

/-! A function that asks for the size of the memory, with room on the stack for the question and
without. -/

theorem settles_run (env : Env) (host : Execution.Host σ) (ln : Lane) (symbol : Symbol)
    (args : List Value) (memory : σ) :
    Settles fun fuel => ln.run env (some host) fuel symbol args memory :=
  (Lane.settles_invoke env ln symbol args).bind fun _ => Lane.settles_serve env host _ _ _ _

/-- The host answers a lane with five pages. -/
def questionAnswered (out : Compiled) (lane : Nat) : Option (Except Abort (List Value) × Lane × Unit) :=
  (Lane.new out.toExecutable lane).run { exe := out.toExecutable } (some (steadfast [.ofI32 5])) 64
    (.ofText "f") [] ()

theorem funcs_question : ∀ f ∈ questionProgram.funcs,
    questionProgram.check f = .ok () ∧ f.type = ⟨[], [.i32]⟩ := by
  decide +kernel

theorem check_question : ∀ f ∈ questionProgram.funcs, questionProgram.check f = .ok () :=
  fun f hf => (funcs_question f hf).1

theorem countable_question (l : Layout) : questionProgram.ExportsCountable l := by
  intro f hf _
  rw [(funcs_question f hf).2]
  change 0 + (1 + 0) + 2 < 2 ^ 32
  decide

/-- All that the host can be asked for gives one word. -/
theorem isHost_of_results (lane : Nat) {v : Value} (hv : v.type = .i32)
    (h : out.hosts.funcs.all (·.results == [.i32]) = true) : out.IsHost (steadfast [v]) lane := by
  intro memory func values results memory' hfunc hcall
  have hmem : func ∈ out.hosts.funcs := by
    unfold HostTable.lookup? at hfunc
    split at hfunc
    · exact List.mem_of_getElem? hfunc
    · cases hfunc
  cases hcall
  rw [beq_iff_eq.mp (List.all_eq_true.mp h func hmem), List.map_singleton, hv]

theorem answered_question : questionCode.toOption.any (fun out =>
    out.stackWords.toNat < 2 ^ 31 && out.hosts.funcs.all (·.results == [.i32])
      && (out.toExecutable.entryFor? (.ofText "f")).any (fun e => e.exit.isSome && e.sig.params == [])
      && (questionAnswered out 0).any (fun c => c.1 == .ok [.ofI32 5])) = true := by
  decide +kernel

/-- The first lane can be addressed. -/
theorem fits_first (h : out.stackWords.toNat < 2 ^ 31) : Fits out.toExecutable 0 := by
  intro r
  rw [Nat.zero_mul, Nat.zero_add]
  cases r with
  | stack =>
      change 2 + out.stackWords.toNat < _ ∧ 2 + out.stackWords.toNat ≤ _
      omega
  | io =>
      have hlt : out.ioWords.toNat < 2 ^ 32 := out.ioWords.toNat_lt
      exact ⟨hlt, hlt.le⟩
  | globals =>
      have hlt : out.globalWords.toNat < 2 ^ 32 := out.globalWords.toNat_lt
      exact ⟨hlt, hlt.le⟩

/-- The theorem at the question on a stack of eight words: the invocation ends with the answer, and so
does the call. -/
theorem compile_runs_calls_question :
    Program.ofModule question = .ok questionProgram
      ∧ (∀ f ∈ questionProgram.funcs, questionProgram.check f = .ok ())
      ∧ ∃ out, compile narrow questionProgram = .ok out ∧ out.stackWords.toNat < 2 ^ 31
        ∧ out.hosts.funcs.length ≤ BlockId.maxBlocks ∧ questionProgram.GlobalsCountable out.layout
        ∧ questionProgram.ExportsCountable out.layout
        ∧ ∃ e exit, out.toExecutable.entryFor? (.ofText "f") = some e ∧ e.exit = some exit
          ∧ e.sig.params = [] ∧ (Lane.new out.toExecutable 0).Sized out.toExecutable
          ∧ Fits out.toExecutable 0 ∧ out.IsHost (steadfast [.ofI32 5]) 0
          ∧ ∃ ending, (out.world (steadfast [.ofI32 5]) 0).reply (.call e.func) []
              ⟨out.program.readGlobals out.layout (Lane.new out.toExecutable 0).globals.toList, ()⟩
              = some ending
            ∧ ∃ c, questionAnswered out 0 = some c ∧ c.1 = .ok [.ofI32 5]
              ∧ EndsAs out e (startedOn out e [] (Lane.new out.toExecutable 0)) c ending := by
  obtain ⟨out, hout, hcode⟩ := compile_question
  have hanswered := answered_question
  rw [hcode] at hanswered
  simp only [Except.toOption, Option.any_some, Bool.and_eq_true, decide_eq_true_eq] at hanswered
  obtain ⟨⟨⟨hlimit, hresults⟩, hentry⟩, hrun⟩ := hanswered
  obtain ⟨e, he, hshape⟩ := (Option.any_eq_true ..).mp hentry
  obtain ⟨c, hc, hvalues⟩ := (Option.any_eq_true ..).mp hrun
  rw [Bool.and_eq_true, beq_iff_eq] at hshape
  rw [beq_iff_eq] at hvalues
  obtain ⟨exit, hexit⟩ := Option.isSome_iff_exists.mp hshape.1
  have hhost := isHost_of_results 0 (v := .ofI32 5) rfl hresults
  have hfew := hosts_le_of_encodable encodable_question read_question hout
  have hglobals := Program.globalsCountable_of_encodable encodable_question read_question out.layout
  have hsized := Lane.sized_new out.toExecutable 0
  have hfits := fits_first hlimit
  obtain ⟨g, plan, -, -, hcalls⟩ := compile_runs_calls read_question check_question hout hlimit hfew
    hglobals (countable_question out.layout)
  obtain ⟨fr, -, -, -, hends⟩ := hcalls { exe := out.toExecutable } (.ofText "f") e exit rfl rfl rfl he
    hexit (Lane.new out.toExecutable 0) hsized hfits (steadfast [.ofI32 5]) hhost () []
    hshape.2.symm
  have hsome : (eventual fun fuel => (Lane.new out.toExecutable 0).run { exe := out.toExecutable }
      (some (steadfast [.ofI32 5])) fuel (.ofText "f") [] ()) = some c :=
    (eventual_eq_some_iff (settles_run _ _ _ _ _ _)).mpr ⟨64, hc⟩
  rw [RunsCall, hsome] at hends
  refine ⟨read_question, check_question, out, hout, hlimit, hfew, hglobals, countable_question _, e, exit,
    he, hexit, hshape.2, hsized, hfits, hhost, ?_⟩
  obtain ⟨r, ln, memory⟩ := c
  dsimp only at hvalues
  subst hvalues
  rcases hends with ⟨c', hc', hover⟩ | hrel
  · cases hc'
    exact hover.elim
  · obtain ⟨ending, hreply, hends⟩ := hrel.of_some rfl
    exact ⟨ending, hreply, _, hc, rfl, hends⟩

/-! On a stack of four words there is room for the first frame, but none for the question. -/

def shallow : Config := { stackWords := 4 }

def shallowCode : Except Abort Compiled := do
  let skipped := skippedFunctions questionGraph []
  let (pl, hosts) ← Compile.plan shallow.withDefaults questionProgram questionGraph.analyze
    (skipped.map (·.1))
  let code ← pl.module
  return assemble shallow.withDefaults questionGraph skipped pl hosts code

theorem coded_shallow : unsupportedFunctions shallow.withDefaults questionProgram = .ok []
    ∧ (Compile.plan shallow.withDefaults questionProgram questionGraph.analyze
      ((skippedFunctions questionGraph []).map (·.1))).isOk = true
    ∧ shallowCode.isOk = true := by
  decide +kernel

theorem compile_shallow : ∃ out, compile shallow questionProgram = .ok out ∧ shallowCode = .ok out := by
  have hp := Program.formed_of_ofModule read_question
  obtain ⟨hunsupported, hplan, hisOk⟩ := coded_shallow
  obtain ⟨out, hout, -⟩ := compile_isOk hp namesDiffer_question hunsupported build_question hplan
  obtain ⟨out', hout'⟩ := exists_of_isOk (x := shallowCode) hisOk
  have hcode := hout'
  rw [shallowCode] at hcode
  obtain ⟨⟨pl, hosts⟩, hpl, hcode⟩ := Program.bind_eq_ok hcode
  obtain ⟨code, hmodule, hcode⟩ := Program.bind_eq_ok hcode
  cases hcode
  have heq := compile_eq_validated hp hunsupported build_question hpl hmodule
  rw [hout, validated] at heq
  obtain ⟨u, -, hvalid⟩ := Program.bind_eq_ok heq.symm
  cases hvalid
  exact ⟨_, hout, hout'⟩

def sizeOfMemory : HostFunc := ⟨.host 0, .memory .memorySize, "memory.size", [], [.i32]⟩

/-- The function under the name `f` is to be asked for, and a lane fails to. -/
def failsToAsk (out : Compiled) (lane : Nat) : Bool :=
  out.stackWords.toNat < 2 ^ 31 && out.hosts.funcs.all (·.results == [.i32])
    && out.hosts.lookup? (.host 0) == some sizeOfMemory
    && (out.toExecutable.entryFor? (.ofText "f")).any (fun e =>
      e.exit.isSome && e.func == 0 && e.sig.params == [])
    && (questionAnswered out lane).any (fun c => !c.1.isOk)

/-- The words of the second lane are the first whose addresses do not fit. -/
theorem failsToAsk_question : shallowCode.toOption.any (failsToAsk · 0) = true
    ∧ questionCode.toOption.any (failsToAsk · 429496729) = true := by
  decide +kernel

/-- A function without locals that asks for the size of the memory. -/
def asksOnly (f : Function) : Bool :=
  match f.body with
  | .ok [.instr i] => i == ⟨0x3f, .memoryIndex 0⟩ && f.type == ⟨[], [.i32]⟩
  | _ => false

theorem asksOnly_question : (questionProgram.func? 0).any asksOnly = true := by
  decide +kernel

/-- It passes on what it is told. -/
theorem evalFunction_of_asksOnly {oracle : Oracle σ} {l : Layout} {f : Function} (hf : asksOnly f = true)
    {args : List Datum} {d : Datum} {shared shared' : Shared σ}
    (h : oracle (.host (.memory .memorySize)) [] shared = some (.ok [d], shared')) :
    evalFunction p l oracle f args shared = some (.ok [d], shared') := by
  unfold asksOnly at hf
  split at hf
  · next i hbody =>
    obtain ⟨hi, htype⟩ := (Bool.and_eq_true ..).mp hf
    obtain rfl := beq_iff_eq.mp hi
    rw [beq_iff_eq] at htype
    have hasked : evalInstr p l oracle ⟨0x3f, .memoryIndex 0⟩ [] ⟨initialLocals l f args, shared⟩
        = some (.ok (.next [d]), ⟨initialLocals l f args, shared'⟩) :=
      (askTop_append _ [] [] rfl _).trans (by rw [h]; rfl)
    rw [evalFunction, hbody, htype]
    dsimp only
    rw [evalSeq_cons, evalNode, hasked]
    rfl
  · cases hf

/-- An invocation that fails although the call has a result. -/
theorem not_runsCall_of_failsToAsk {config : Config} {lane : Nat}
    (hout : compile config questionProgram = .ok out) (h : failsToAsk out lane = true) :
    out.stackWords.toNat < 2 ^ 31 ∧ ∃ e exit, out.toExecutable.entryFor? (.ofText "f") = some e
      ∧ e.exit = some exit ∧ e.sig.params = [] ∧ out.IsHost (steadfast [.ofI32 5]) lane
      ∧ ¬ RunsCall out { exe := out.toExecutable } (steadfast [.ofI32 5]) (Lane.new out.toExecutable lane)
        (.ofText "f") e [] () := by
  rw [failsToAsk] at h
  simp only [Bool.and_eq_true, decide_eq_true_eq, beq_iff_eq] at h
  obtain ⟨⟨⟨⟨hlimit, hresults⟩, hlookup⟩, hentry⟩, hrun⟩ := h
  obtain ⟨e, he, hshape⟩ := (Option.any_eq_true ..).mp hentry
  simp only [Bool.and_eq_true, beq_iff_eq] at hshape
  obtain ⟨⟨hexit, hfunc⟩, hparams⟩ := hshape
  obtain ⟨exit, hexit⟩ := Option.isSome_iff_exists.mp hexit
  have hhost := isHost_of_results lane (v := .ofI32 5) rfl hresults
  refine ⟨hlimit, e, exit, he, hexit, hparams, hhost, ?_⟩
  obtain ⟨-, g, plan, direct, machines, entries, -, horigin, -, -⟩ :=
    compile_eq_ok (Program.formed_of_ofModule read_question) hout
  have hprogram := horigin.program_eq
  have hhosts : out.hosts.Sound out.program := by
    rw [hprogram]
    exact horigin.planned.table.1
  obtain ⟨f, hf, hasks⟩ := (Option.any_eq_true ..).mp asksOnly_question
  have hreply (shared : Shared Unit) :
      (out.world (steadfast [.ofI32 5]) lane).reply (.call e.func) [] shared
        = some (.ok [.ofValue out.layout (.ofI32 5)], shared) := by
    rw [hfunc, World.reply_call (out.world (steadfast [.ofI32 5]) lane) (hprogram ▸ hf)]
    have hasked := reply_of_asked hhosts (steadfast [.ofI32 5]) lane
      (show out.hosts.lookup? sizeOfMemory.id = some sizeOfMemory from hlookup) [] shared
    exact evalFunction_of_asksOnly hasks hasked
  obtain ⟨⟨r, ln, memory⟩, hc, hfailed⟩ := (Option.any_eq_true ..).mp hrun
  have hsome : (eventual fun fuel => (Lane.new out.toExecutable lane).run { exe := out.toExecutable }
      (some (steadfast [.ofI32 5])) fuel (.ofText "f") [] ()) = some (r, ln, memory) :=
    (eventual_eq_some_iff (settles_run _ _ _ _ _ _)).mpr ⟨64, hc⟩
  have hindex : (Lane.new out.toExecutable lane).index = lane := rfl
  rw [RunsCall, hsome, List.map_nil, hindex, hreply]
  intro hrel
  obtain ⟨ending, hending, hends⟩ := hrel.of_some rfl
  cases hending
  cases r with
  | ok values => cases hfailed
  | error cause => cases cause <;> exact hends.elim

/-- Neither the way out nor the addresses can be left out of the theorem: with room for four words the
stack overflows, and the stack of a lane far away is not where the code looks for it. The call has a result
in both cases. -/
theorem bounded_stack_differs :
    Program.ofModule question = .ok questionProgram
      ∧ (∀ f ∈ questionProgram.funcs, questionProgram.check f = .ok ())
      ∧ ∀ x ∈ [(shallow, 0), (narrow, 429496729)], ∃ out, compile x.1 questionProgram = .ok out
        ∧ out.stackWords.toNat < 2 ^ 31 ∧ ∃ e exit, out.toExecutable.entryFor? (.ofText "f") = some e
          ∧ e.exit = some exit ∧ e.sig.params = [] ∧ out.IsHost (steadfast [.ofI32 5]) x.2
          ∧ ¬ RunsCall out { exe := out.toExecutable } (steadfast [.ofI32 5])
            (Lane.new out.toExecutable x.2) (.ofText "f") e [] () := by
  refine ⟨read_question, check_question, fun x hx => ?_⟩
  rw [List.mem_cons, List.mem_singleton] at hx
  rcases hx with rfl | rfl
  · obtain ⟨out, hout, hcode⟩ := compile_shallow
    have hfails := failsToAsk_question.1
    rw [hcode] at hfails
    exact ⟨out, hout, not_runsCall_of_failsToAsk hout hfails⟩
  · obtain ⟨out, hout, hcode⟩ := compile_question
    have hfails := failsToAsk_question.2
    rw [hcode] at hfails
    exact ⟨out, hout, not_runsCall_of_failsToAsk hout hfails⟩

end WasmShader.Compile
