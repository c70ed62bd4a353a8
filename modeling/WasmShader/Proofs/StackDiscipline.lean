import WasmShader.Proofs.StackEntries
import WasmShader.Proofs.Suspension

/-!
# The discipline of the stack

The stages of an invocation that a host serves, from the first dispatch to the end. At each of them the
data words in use are a pile of frames, each stage finds what the one before has made of them, and an
invocation that comes to its end leaves none (`Disciplined`).

A run of an entry point leaves its lane with the words that its last turn has made, and the number on
top says what the lane waits for (`Lane.Left`). The answer to the request makes of them what the next run
finds, so the runs of an invocation put their stages together (`Serves`).
-/

namespace WasmShader

/-! ## Reading requests -/

namespace HostTable

variable {t : HostTable} {s : LaneStack} {trap : UInt32} {used above : List UInt32}

/-- The number on top of the words in use says what is asked for. -/
theorem of_pending (hs : s.Holds trap used above) (hsmall : used.length < 2 ^ 32)
    {request? : Option Pending} (h : t.pending s = .ok request?) :
    (request? = none → used = []) ∧ ∀ request, request? = some request →
      ∃ id : BlockId, used.getLast? = some id.val ∧ t.lookup? id = some request.func := by
  have hsp : s.sp.toNat = used.length := by rw [hs.sp, Execution.toNat_toUInt32 hsmall]
  unfold pending at h
  dsimp only at h
  rw [hsp] at h
  split at h
  · next hnil =>
    cases h
    exact ⟨fun _ => List.eq_nil_of_length_eq_zero hnil, fun _ hrequest => by cases hrequest⟩
  · next hne =>
    obtain ⟨id, htop, h⟩ := Program.bind_eq_ok h
    have hlast : used.getLast? = some id.val := by
      unfold LaneStack.top at htop
      split at htop
      · next w hw =>
        cases htop
        rw [hsp, ← Array.getElem?_toList, hs, LaneStack.headerWords,
          show 2 + used.length - 1 = used.length - 1 + 1 + 1 by omega, List.getElem?_cons_succ,
          List.getElem?_cons_succ, List.getElem?_append_left (by omega)] at hw
        rw [List.getLast?_eq_getElem?, hw]
      · cases htop
    split at h
    · cases h
    · next func hfunc =>
      obtain ⟨_, -, h⟩ := Program.bind_eq_ok h
      split at h
      · cases h
      · obtain ⟨ws, -, h⟩ := Program.bind_eq_ok h
        obtain ⟨args, -, h⟩ := Program.bind_eq_ok h
        cases h
        refine ⟨fun hnone => (by cases hnone), fun request hrequest => ?_⟩
        cases hrequest
        exact ⟨id, hlast, hfunc⟩

/-- Only results of the declared types are taken. -/
theorem types_of_complete {request : Pending} {results : List Value} {s' : LaneStack} {u : Unit}
    (h : t.complete request results s = (.ok u, s')) :
    results.map (·.type) = request.func.results := by
  unfold complete at h
  cases hcheck : checkResults request.func results with
  | error e =>
      rw [hcheck] at h
      cases h
  | ok u => exact checkResults_eq_ok_iff.mp hcheck

end HostTable

namespace Execution

open Compile Emit

/-! ## Stages of an invocation -/

namespace Lane

variable {σ : Type}

/-- The stages of an invocation whose requests a host answers. -/
def stagesServe (env : Env) (host? : Option (Host σ)) :
    (fuel : Nat) → Except Abort Outcome → Lane → σ → List Stage
  | 0, _, _, _ => []
  | _ + 1, .error _, _, _ => []
  | _ + 1, .ok (.finished _ _), ln, _ => [.ended ln.stack.used]
  | fuel + 1, .ok (.yielded p _), ln, h =>
    .waiting p ln.stack.used ::
      match host? with
      | none => []
      | some host =>
        match host.call h ln.index p.func p.args with
        | (.error _, _) => []
        | (.ok results, h) =>
          match ln.complete env.exe p results with
          | (.error _, _) => []
          | (.ok _, ln) =>
            stages (ln.seenResume env fuel)
              ++ (ln.resume env fuel).elim [] fun x => stagesServe env host? fuel x.1 x.2 h

/-- The stages of an invocation from its start to its end. -/
def stagesRun (env : Env) (host? : Option (Host σ)) (fuel : Nat) (ln : Lane) (symbol : Symbol)
    (args : List Value) (h : σ) : List Stage :=
  stages (ln.seenInvoke env fuel symbol args)
    ++ (ln.invoke env fuel symbol args).elim [] fun x => stagesServe env host? fuel x.1 x.2 h

end Lane

/-- The stages of an invocation of the entry point, and what it comes to. -/
structure Disciplined {σ : Type} (frames : List Frames) (out : Compiled) (e : Entry) (inv : Invoked)
    (ss : List Stage) (r : Option (Except Abort (List Value) × Lane × σ)) : Prop where
  begins : ∀ stage ∈ ss.head?, Began frames out e inv stage.used
  stands : ∀ stage ∈ ss, stage.Stands frames out inv
  follows : ss.IsChain fun stage next => Follows frames out inv stage next.used
  ends : ∀ values ln h, r = some (.ok values, ln, h) →
    ln.stack.sp = 0 ∧ ss.getLast? = some (.ended [])

section Served

open Watched (Walks Held)

variable {p : Program} {frames : List Frames} {out : Compiled} {inv : Invoked} {env : Env} {d : Pair}
  {ws ws' : List UInt32} {ln : Lane} {s : State}

/-! ## What a run leaves -/

variable (frames out inv) in
/-- What a run of an entry point leaves on its lane, if it comes to its end. -/
inductive Lane.Left : Outcome → Lane → List UInt32 → Prop
  | finished {values : List Value} {steps : Nat} {ln : Lane} : ln.stack.sp = 0 →
      Left (.finished values steps) ln []
  | yielded {request : Pending} {steps : Nat} {ln : Lane} {ws : List UInt32} :
      Stage.Stands frames out inv (.waiting request ws) →
      out.hosts.pending ln.stack = .ok (some request) → ln.Rests out ws →
      Left (.yielded request steps) ln ws

theorem used_of_empty {st : LaneStack} (h : st.sp = 0) : st.used = [] := by
  rw [LaneStack.used, h]
  exact between_self st.words 2

/-- The code that ends with results leaves the stack as it was, and that asks for nothing. -/
theorem settle_finished {x : Executable} {ln ln' : Lane} {values : List Value} {steps : Nat}
    (h : ln.settle x = (.ok (.finished values steps), ln')) :
    ln' = ln.abandon ∧ x.hosts.pending ln.stack = .ok none := by
  unfold Lane.settle at h
  split at h
  · cases h
  · split at h
    · next e _ => cases e <;> cases h
    · cases h
    · next hpending =>
      split at h
      · cases h
      · split at h
        · next e _ => cases e <;> cases h
        · cases h
          exact ⟨rfl, hpending⟩

/-- With the number of a host function on top a pile is a request. -/
theorem Piled.waiting (hlinked : Linked p frames out) (hexit : IsExit out inv.exit inv.results)
    (h : Piled frames out inv ws) {id : BlockId} (hid : ws.getLast? = some id.val) {request : Pending}
    (hfunc : out.hosts.lookup? id = some request.func) :
    Stage.Stands frames out inv (.waiting request ws) := by
  have hsame {id' : BlockId} {low : List UInt32} (hws : ws = low ++ [id'.val]) : id = id' := by
    rw [hws, List.getLast?_concat] at hid
    exact (congrArg BlockId.mk (Option.some.inj hid)).symm
  have hnot {f : Shader.Function} (hruns : Runs out id f) : False := by
    rw [hruns.lookup? hlinked] at hfunc
    cases hfunc
  cases h with
  | @block fr k b below frame hpile =>
      obtain ⟨payload, -, rfl⟩ := hpile.frame
      obtain rfl := hsame (List.append_assoc ..).symm
      obtain ⟨f, -, -, hruns⟩ := (hlinked.machined fr hpile.mem).emitted k b hpile.block
      exact (hnot hruns).elim
  | exit hvalues =>
      obtain rfl := hsame rfl
      obtain ⟨name, hruns⟩ := hexit
      exact (hnot hruns).elim
  | @host func below args hhost hsuspended hargs =>
      obtain rfl := hsame (List.append_assoc ..).symm
      rw [hhost] at hfunc
      cases hfunc
      exact .host hhost hsuspended hargs

theorem Watched.Held.left (hlinked : Linked p frames out) (hplaced : Placed out d env)
    (hexit : IsExit out inv.exit inv.results) (h : Held frames out inv d s ws) {o : Outcome}
    (hsettle : s.lane.settle out.toExecutable = (.ok o, ln)) : Lane.Left frames out inv o ln ws := by
  obtain ⟨huse, hpiled⟩ := h
  have hrests := huse.rests hplaced
  have hfits := hrests.small hplaced
  obtain ⟨-, hsmall⟩ := hplaced.bounds
  obtain ⟨trap, above, hholds⟩ := hrests.holds
  have hlength : ws.length < 2 ^ 32 := by omega
  cases o with
  | yielded request steps =>
      obtain ⟨rfl, -, hpending, -⟩ := settle_yielded hsettle
      obtain ⟨id, hid, hfunc⟩ := (HostTable.of_pending hholds hlength hpending).2 request rfl
      refine .yielded (Piled.waiting hlinked hexit (hpiled.resolve_left fun hnil => ?_) hid hfunc)
        hpending hrests
      rw [hnil] at hid
      cases hid
  | finished values steps =>
      obtain ⟨rfl, hpending⟩ := settle_finished hsettle
      obtain rfl := (HostTable.of_pending hholds hlength hpending).1 rfl
      exact .finished hholds.sp

/-! ## Answers -/

/-- The answer to a request fills the room below it, and the lane is left with that. -/
theorem Lane.Rests.complete (hlinked : Linked p frames out) (hplaced : Placed out d env)
    (h : ln.Rests out ws) {request : Pending}
    (hstands : Stage.Stands frames out inv (.waiting request ws))
    (hpending : out.hosts.pending ln.stack = .ok (some request)) {results : List Value} {u : Unit}
    {ln' : Lane} (hcomplete : ln.complete out.toExecutable request results = (.ok u, ln')) :
    ∃ ws', Answer frames out inv request.func ws ws' ∧ ln'.Rests out ws' := by
  have hused := h.used hplaced
  obtain ⟨trap, used, call, above, hasks⟩ := HostTable.asks_of_pending hpending
  rw [used_of_holds hasks.holds hasks.small] at hused
  rw [Lane.complete] at hcomplete
  generalize hrun : out.hosts.complete request results ln.stack = run at hcomplete
  obtain ⟨r, s'⟩ := run
  cases hcomplete
  have htypes := HostTable.types_of_complete hrun
  have hargWords : out.hosts.argWords request.func = out.layout.sizeOf request.func.params := by
    rw [HostTable.argWords, hlinked.hostLayout]
  have hresultWords : out.hosts.resultWords request.func = out.layout.sizeOf request.func.results := by
    rw [HostTable.resultWords, hlinked.hostLayout]
  by_cases hroom : AllKnown request.func.results
      ∧ out.hosts.resultWords request.func + 1 ≤ used.length
  · obtain ⟨low, room, id, s'', rfl, hlen, hrun', hholds⟩ :=
      HostTable.complete_in_room hasks htypes hroom.1 hroom.2
    rw [hrun] at hrun'
    cases hrun'
    have hvalues := HostTable.length_encode_of_types (t := out.hosts) htypes
    generalize results.flatMap out.hosts.layout.encode = values at hholds hvalues
    have hsize : s'.words.size = ln.stack.words.size := by
      have hcount := congrArg List.length hused
      rw [hholds.size, hasks.holds.size]
      simp only [List.length_append, hvalues, hlen]
      omega
    refine ⟨low ++ values ++ [id], ?_, hsize.trans h.size, trap, call ++ above, hholds⟩
    cases hstands with
    | @host _ below args hfunc hsuspended hargs =>
        obtain ⟨rfl, rfl⟩ := List.append_inj' hused (by
          rw [hasks.call_length, hargWords, List.length_append, hargs, List.length_singleton])
        exact .fill hfunc hsuspended (hlen.trans hresultWords) (hvalues.trans hresultWords) hargs
  · obtain ⟨e, s'', hrun', -⟩ := HostTable.complete_late hasks htypes hroom
    rw [hrun] at hrun'
    cases hrun'

/-! ## Runs of entry points -/

variable (frames out inv) in
/-- The stages of a run of an entry point, and what it leaves. -/
structure Entered (ws : List UInt32) (ss : List Stage) (r : OnLane Outcome) : Prop where
  path : Path frames out inv ws ss none
  ends : ∀ o ln', r = some (.ok o, ln') →
    ∃ ws', Path frames out inv ws ss (some ws') ∧ Lane.Left frames out inv o ln' ws'

theorem entered_of_walks (hlinked : Linked p frames out) (hplaced : Placed out d env)
    (hexit : IsExit out inv.exit inv.results) {name : String} {f : Shader.Function}
    (hf : out.module.function? name = some f) {n : Nat}
    (h : Walks frames out inv (watching.call env n f []) ln.entering ws
      fun _ => Held frames out inv d) :
    Entered frames out inv ws (stages (ln.seenEnter env n name)) (ln.enter env n name) := by
  have hexe : env.exe = out.toExecutable := hplaced.exe
  have hf' : env.exe.module.function? name = some f := by rw [hexe, hf]
  have hstarting : ln.starting env.exe.module = ln.entering := by
    rw [Lane.starting, hexe, hlinked.runnable.privates]
    rfl
  obtain ⟨hends, hpath⟩ := h
  rw [Lane.enter_of_watched env hf', Lane.seenEnter, hf', hstarting]
  dsimp only
  refine ⟨hpath, fun o ln' hleave => ?_⟩
  generalize watching.call env n f [] ln.entering = run at hends hleave
  obtain ⟨es, r, s⟩ := run
  cases r with
  | error stop =>
      cases stop with
      | trap code => cases hleave
      | abort cause => cases cause <;> cases hleave
      | outOfFuel => cases hleave
  | ok values =>
      obtain ⟨ws', hpath, hheld⟩ := hends es values s rfl
      refine ⟨ws', hpath, hheld.left hlinked hplaced hexit ?_⟩
      rw [← hexe]
      exact Option.some.inj hleave

/-! ## Invocations -/

variable (frames out inv) in
/-- The stages of an invocation from words in use on, and what it comes to. -/
structure Serves {σ : Type} (ws : List UInt32) (ss : List Stage)
    (r : Option (Except Abort (List Value) × Lane × σ)) : Prop where
  path : Path frames out inv ws ss none
  ends : ∀ values ln h, r = some (.ok values, ln, h) →
    ln.stack.sp = 0 ∧ ss.getLast? = some (.ended [])

variable {σ : Type}

/-- What is served behind a run goes on from what the run leaves. -/
theorem Entered.serves {ss : List Stage} {x : OnLane Outcome} (hx : Entered frames out inv ws ss x)
    (host? : Option (Host σ)) (name : String) {fuel : Nat} {h : σ}
    (hserves : ∀ o ln ws', Lane.Left frames out inv o ln ws' →
      Serves frames out inv ws' (Lane.stagesServe env host? fuel (.ok o) ln h)
        (Lane.serve env host? name fuel (.ok o) ln h)) :
    Serves frames out inv ws (ss ++ x.elim [] fun y => Lane.stagesServe env host? fuel y.1 y.2 h)
      (x.bind fun y => Lane.serve env host? name fuel y.1 y.2 h) := by
  cases x with
  | none =>
      refine ⟨?_, nofun⟩
      rw [Option.elim_none, List.append_nil]
      exact hx.path
  | some y =>
      obtain ⟨r, ln⟩ := y
      rw [Option.elim_some, Option.bind_some]
      cases r with
      | error e =>
          have hnone : Lane.stagesServe env host? fuel (.error e) ln h = [] := by cases fuel <;> rfl
          rw [hnone, List.append_nil]
          exact ⟨hx.path, fun values ln' h' hrun => by cases fuel <;> cases hrun⟩
      | ok o =>
          obtain ⟨ws', hpath, hleft⟩ := hx.ends o ln rfl
          obtain ⟨hpath', hends⟩ := hserves o ln ws' hleft
          refine ⟨hpath.append hpath', fun values ln' h' hrun => ?_⟩
          obtain ⟨hsp, hlast⟩ := hends values ln' h' hrun
          exact ⟨hsp, by rw [List.getLast?_append, hlast, Option.some_or]⟩

theorem Lane.Rests.resume (hlinked : Linked p frames out) (hexe : env.exe = out.toExecutable)
    (hlimit : out.stackWords.toNat < 2 ^ 31) (hexit : IsExit out inv.exit inv.results)
    (h : ln.Rests out ws) (hpiled : ws = [] ∨ Piled frames out inv ws) (n : Nat) :
    Entered frames out inv ws (stages (ln.seenResume env n)) (ln.resume env n) := by
  have hplaced : Placed out (ln.alone out) env := ⟨hexe, rfl, hlimit⟩
  unfold Lane.seenResume Lane.resume
  by_cases hsuspended : ln.isSuspended = true
  · rw [if_pos hsuspended, if_pos hsuspended]
    cases hf : out.module.function? resumeName with
    | none =>
        have hf' : env.exe.module.function? resumeName = none := by rw [hexe, hf]
        rw [Lane.enter_of_missing env hf', Lane.seenEnter, hf']
        exact ⟨.stop, fun o ln' hrun => by cases hrun⟩
    | some f =>
        obtain rfl := hlinked.runnable.resume f hf
        exact entered_of_walks hlinked hplaced hexit hf
          (walks_resumeEntry hlinked hplaced hexit h hpiled n)
  · rw [if_neg hsuspended, if_neg hsuspended]
    exact ⟨.stop, fun o ln' hrun => by cases hrun⟩

/-- The words that a run leaves are what the rest of the invocation starts from. -/
theorem Lane.Left.serves (hlinked : Linked p frames out) (hexe : env.exe = out.toExecutable)
    (hlimit : out.stackWords.toNat < 2 ^ 31) (hexit : IsExit out inv.exit inv.results)
    (host? : Option (Host σ)) (name : String) (fuel : Nat) {o : Outcome}
    (hleft : Lane.Left frames out inv o ln ws) (h : σ) :
    Serves frames out inv ws (ln.stagesServe env host? fuel (.ok o) h)
      (ln.serve env host? name fuel (.ok o) h) := by
  induction fuel generalizing o ws ln h with
  | zero => exact ⟨.stop, fun _ _ _ hrun => by cases hrun⟩
  | succ fuel ih =>
      cases hleft with
      | @finished values steps ln hsp =>
          have hstages : ln.stagesServe env host? (fuel + 1) (.ok (.finished values steps)) h
              = [.ended ln.stack.used] := rfl
          rw [hstages, used_of_empty hsp]
          exact ⟨.last .ended, fun values ln' h' hrun => by
            cases hrun
            exact ⟨hsp, rfl⟩⟩
      | @yielded request steps ln ws hstands hpending hrests =>
          have hplaced : Placed out (ln.alone out) env := ⟨hexe, rfl, hlimit⟩
          rw [Lane.stagesServe.eq_def, Lane.serve.eq_def]
          dsimp only
          rw [hrests.used hplaced]
          cases host? with
          | none => exact ⟨.last hstands, fun _ _ _ hrun => by cases hrun⟩
          | some host =>
              dsimp only
              generalize host.call h ln.index request.func request.args = answer
              obtain ⟨r, h'⟩ := answer
              cases r with
              | error e => exact ⟨.last hstands, fun _ _ _ hrun => by cases hrun⟩
              | ok results =>
                  dsimp only
                  generalize hcomplete : ln.complete env.exe request results = taken
                  obtain ⟨r, ln'⟩ := taken
                  cases r with
                  | error e => exact ⟨.last hstands, fun _ _ _ hrun => by cases hrun⟩
                  | ok u =>
                      rw [hexe] at hcomplete
                      obtain ⟨ws', hanswer, hrests'⟩ :=
                        hrests.complete hlinked hplaced hstands hpending hcomplete
                      have hentered := hrests'.resume hlinked hexe hlimit hexit
                        (.inr (hanswer.piled hlinked)) fuel
                      obtain ⟨hpath, hends⟩ := hentered.serves (some host) name (h := h')
                        fun o ln ws' hleft => ih hleft h'
                      refine ⟨.step hstands (.answer hanswer) hpath, fun values ln'' h'' hrun => ?_⟩
                      obtain ⟨hsp, hlast⟩ := hends values ln'' h'' hrun
                      exact ⟨hsp, by rw [List.getLast?_cons, hlast]; rfl⟩

theorem of_started {x : Executable} {ln' : Lane} {symbol : Symbol} {args : List Value} {name : String}
    (h : ln.started? x symbol args = some (ln', name)) {e : Entry} (he : x.entryFor? symbol = some e) :
    name = e.shader ∧ ln'.stack = ln.stack := by
  rw [Lane.started?, he] at h
  dsimp only at h
  split at h
  · cases h
    exact ⟨rfl, rfl⟩
  · cases h

theorem Lane.disciplined (hlinked : Linked p frames out) (hexe : env.exe = out.toExecutable)
    (hlimit : out.stackWords.toNat < 2 ^ 31) {symbol : Symbol} {e : Entry}
    (he : out.toExecutable.entryFor? symbol = some e) {exit : BlockId} (hexit : e.exit = some exit)
    (hresults : out.layout.sizeOf e.sig.results + 2 < 2 ^ 32)
    (hsize : ln.stack.words.size = regionSize out.toExecutable .stack) (host? : Option (Host σ))
    (fuel : Nat) (args : List Value) (h : σ) :
    Disciplined frames out e ⟨exit, e.sig.results⟩ (ln.stagesRun env host? fuel symbol args h)
      (ln.run env host? fuel symbol args h) := by
  have hmem : e ∈ out.entries := List.mem_of_find?_eq_some he
  obtain ⟨fr, -, -, -, hisExit, hf⟩ := hlinked.starts e hmem exit hexit
  suffices ∃ ws, Serves frames out ⟨exit, e.sig.results⟩ ws (ln.stagesRun env host? fuel symbol args h)
      (ln.run env host? fuel symbol args h)
        ∧ (ln.stagesRun env host? fuel symbol args h = []
          ∨ Began frames out e ⟨exit, e.sig.results⟩ ws) by
    obtain ⟨ws, ⟨hpath, hends⟩, hbegins⟩ := this
    obtain ⟨hstands, hfollows, hhead⟩ := hpath.spec
    refine ⟨fun stage hstage => ?_, hstands, hfollows, hends⟩
    rcases hbegins with hnone | hbegan
    · rw [hnone] at hstage
      cases hstage
    · rwa [hhead stage hstage]
  unfold Lane.stagesRun Lane.seenInvoke
  change ∃ ws, Serves frames out ⟨exit, e.sig.results⟩ ws _ ((ln.invoke env fuel symbol args).bind
    fun y => Lane.serve env host? symbol.text fuel y.1 y.2 h) ∧ _
  cases hstarted : ln.started? env.exe symbol args with
  | none =>
      obtain ⟨cause, ln', hinvoke⟩ := Lane.invoke_of_not_started hstarted
      rw [hinvoke env rfl fuel, Option.elim_some, Option.bind_some]
      have hnone : Lane.stagesServe env host? fuel (.error cause) ln' h = [] := by cases fuel <;> rfl
      rw [hnone]
      exact ⟨[], ⟨.stop, fun values ln'' h' hrun => by cases fuel <;> cases hrun⟩, .inl rfl⟩
  | some start =>
      obtain ⟨ln', name⟩ := start
      rw [Lane.invoke_of_started env hstarted]
      rw [hexe] at hstarted
      obtain ⟨rfl, hstack⟩ := of_started hstarted he
      have hplaced : Placed out (ln'.alone out) env := ⟨hexe, rfl, hlimit⟩
      obtain ⟨ws, hbegan, hwalks⟩ := walks_machineEntry hlinked hplaced (hstack ▸ hsize) hmem hexit
        hresults hf fuel
      exact ⟨ws, (entered_of_walks hlinked hplaced hisExit hf hwalks).serves host? symbol.text
        fun o ln ws hleft => hleft.serves hlinked hexe hlimit hisExit host? symbol.text fuel h,
        .inr hbegan⟩

end Served

end Execution

/-! ## Compiled modules -/

namespace Compile

open Execution

variable {config : Config} {p : Program} {out : Compiled}

/-- The stack of a lane is a pile of frames, at every stage of every invocation of an entry point that
runs the dispatcher. There have to be numbers for the host functions (at most 2³¹), and the words of what
the entry point gives, with the two numbers of a frame, have to be countable (fewer than 2³²). -/
theorem compile_stacks_frames {m : Binary.Module} (hread : Program.ofModule m = .ok p)
    (h : compile config p = .ok out) (hlimit : out.stackWords.toNat < 2 ^ 31)
    (hfew : out.hosts.funcs.length ≤ BlockId.maxBlocks) :
    ∃ g plan, CallGraph.build p = .ok g
      ∧ Compile.plan config.withDefaults p g.analyze (out.skipped.map (·.1)) = .ok (plan, out.hosts)
      ∧ ∀ (env : Env) (symbol : Symbol) (e : Entry) (exit : BlockId), env.exe = out.toExecutable →
        out.toExecutable.entryFor? symbol = some e → e.exit = some exit →
        out.layout.sizeOf e.sig.results + 2 < 2 ^ 32 →
        ∀ ln : Lane, ln.stack.words.size = regionSize out.toExecutable .stack →
        ∀ {σ : Type} (host? : Option (Host σ)) (fuel : Nat) (args : List Value) (h : σ),
          Disciplined plan.frames out e ⟨exit, e.sig.results⟩
            (ln.stagesRun env host? fuel symbol args h) (ln.run env host? fuel symbol args h) := by
  have hp := Program.formed_of_ofModule hread
  obtain ⟨-, g, plan, direct, machines, entries, -, horigin, -, hvalid⟩ := compile_eq_ok hp h
  have hlinked := horigin.linked hp hfew h hvalid
  exact ⟨g, plan, horigin.graph, horigin.planning,
    fun env symbol e exit hexe he hexit hresults ln hsize _ host? fuel args h =>
      Lane.disciplined hlinked hexe hlimit he hexit hresults hsize host? fuel args h⟩

/-- A host that always answers the same. -/
def steadfast (results : List Value) : Host Unit := ⟨fun h _ _ _ => (.ok results, h)⟩

def questionStages (out : Compiled) : List Stage :=
  (Lane.new out.toExecutable 0).stagesRun { exe := out.toExecutable } (some (steadfast [.ofI32 5])) 64
    (.ofText "f") [] ()

/-- The exit frame and the frame of the function; the request on top of the frame that it comes back
to; the answer in the room of that frame, and then in the exit frame. -/
theorem used_question : questionCode.toOption.any (fun out =>
    out.stackWords.toNat < 2 ^ 31
      && (out.toExecutable.entryFor? (.ofText "f")).any (fun e =>
        e.exit.isSome && decide (out.layout.sizeOf e.sig.results + 2 < 2 ^ 32))
      && (questionStages out).map Stage.used
        == [[0, 2, 0], [0, 2, 0, 1, 0x80000000], [0, 2, 5, 1], [5, 2], []]) = true := by
  decide +kernel

theorem encodable_question : question.Encodable := by
  have hparse : Binary.Module.parse question.encode = .ok question := by decide +kernel
  exact Binary.encodable_of_parse hparse

/-- The theorem at a program that asks the host. -/
theorem compile_stacks_frames_question :
    Program.ofModule question = .ok questionProgram
      ∧ ∃ out, compile narrow questionProgram = .ok out ∧ out.stackWords.toNat < 2 ^ 31
        ∧ out.hosts.funcs.length ≤ BlockId.maxBlocks
        ∧ ∃ frames e exit, out.toExecutable.entryFor? (.ofText "f") = some e ∧ e.exit = some exit
          ∧ Disciplined frames out e ⟨exit, e.sig.results⟩ (questionStages out)
            ((Lane.new out.toExecutable 0).run { exe := out.toExecutable }
              (some (steadfast [.ofI32 5])) 64 (.ofText "f") [] ())
          ∧ (questionStages out).map Stage.used
            = [[0, 2, 0], [0, 2, 0, 1, 0x80000000], [0, 2, 5, 1], [5, 2], []] := by
  obtain ⟨out, hout, hcode⟩ := compile_question
  have hused := used_question
  rw [hcode] at hused
  simp only [Except.toOption, Option.any_some, Bool.and_eq_true, decide_eq_true_eq, beq_iff_eq] at hused
  obtain ⟨⟨hlimit, hentry⟩, hused⟩ := hused
  obtain ⟨e, he, hfits⟩ := (Option.any_eq_true ..).mp hentry
  rw [Bool.and_eq_true, decide_eq_true_eq] at hfits
  obtain ⟨exit, hexit⟩ := Option.isSome_iff_exists.mp hfits.1
  have hfew := hosts_le_of_encodable encodable_question read_question hout
  obtain ⟨g, plan, -, -, hdisciplined⟩ := compile_stacks_frames read_question hout hlimit hfew
  exact ⟨read_question, out, hout, hlimit, hfew, plan.frames, e, exit, he, hexit,
    hdisciplined { exe := out.toExecutable } (.ofText "f") e exit rfl he hexit hfits.2
      (Lane.new out.toExecutable 0) (Lane.sized_new out.toExecutable 0 .stack)
      (some (steadfast [.ofI32 5])) 64 [] (), hused⟩

end Compile

end WasmShader
