import WasmShader.Proofs.Polling

/-!
# Lanes at a yield

An entry point ends with the dispatcher, or calls a direct form, which leaves the stack empty. So a
lane that waits for the host is one whose dispatcher stops at once. Asked again without an answer, it
looks at its stack, stops, and is as it was.
-/

namespace WasmShader

namespace Execution

open Emit Compile
open Shader (Stmt Expr CallSite StmtsLawful)

/-! ## Statements that go on -/

/-- Behind the statement, if it ends, comes the next one. -/
def Onward (st : Stmt) : Prop :=
  ∀ env n s flow s', Exec.outcome (Exec.stmt env n st) s = some (.ok flow, s') → flow = .next

section Onward

open Exec

theorem onward_assign (name : String) (e : Expr) : Onward (.assign name e) := by
  intro env n s flow s' h
  cases n with
  | zero => exact absurd h (throw_ne _ _ _)
  | succ n =>
      rw [stmt] at h
      obtain ⟨_, s₁, -, h⟩ := bind_ok h
      obtain ⟨_, s₂, -, h⟩ := bind_ok h
      cases h
      rfl

theorem onward_store (buffer : String) (index e : Expr) : Onward (.store buffer index e) := by
  intro env n s flow s' h
  cases n with
  | zero => exact absurd h (throw_ne _ _ _)
  | succ n =>
      rw [stmt] at h
      obtain ⟨_, s₁, -, h⟩ := bind_ok h
      obtain ⟨_, s₂, -, h⟩ := bind_ok h
      obtain ⟨_, s₃, -, h⟩ := bind_ok h
      cases h
      rfl

theorem onward_trapIf (cond : Expr) (code : UInt32) : Onward (.ifElse cond [.trap code] []) := by
  intro env n s flow s' h
  cases n with
  | zero => exact absurd h (throw_ne _ _ _)
  | succ n =>
      rw [stmt] at h
      obtain ⟨c, s₁, -, h⟩ := bind_ok h
      split at h
      · obtain ⟨m, h⟩ := ok_of_singleton h
        cases m with
        | zero => exact absurd h (throw_ne _ _ _)
        | succ m => cases h
      · cases n with
        | zero =>
            rw [stmts_zero] at h
            exact absurd h (throw_ne _ _ _)
        | succ n =>
            cases h
            rfl

theorem onward_storeValue (l : Layout) (buffer : String) (place : Nat → Expr) (v : Expr)
    (t : ValueType) : ∀ st ∈ storeValue l buffer place v t, Onward st := by
  intro st hst
  have hstore : ∃ index e, st = .store buffer index e := by
    unfold storeValue at hst
    dsimp only at hst
    split at hst
    · exact ⟨_, _, List.mem_singleton.mp hst⟩
    · exact ⟨_, _, List.mem_singleton.mp hst⟩
    · simp only [List.mem_cons, List.not_mem_nil, or_false] at hst
      rcases hst with rfl | rfl <;> exact ⟨_, _, rfl⟩
    · obtain ⟨k, -, rfl⟩ := List.mem_map.mp hst
      exact ⟨_, _, rfl⟩
  obtain ⟨index, e, rfl⟩ := hstore
  exact onward_store buffer index e

theorem onward_finish {p : Push} (hp : ∀ st ∈ p.stmts, Onward st) (stackWords : UInt32) :
    ∀ st ∈ p.finish stackWords, Onward st := by
  rw [Push.finish]
  refine List.forall_mem_append.mpr ⟨List.forall_mem_cons.mpr ⟨onward_trapIf _ _, hp⟩, ?_⟩
  exact List.forall_mem_singleton.mpr (onward_assign _ _)

theorem onward_blockId {p : Push} (hp : ∀ st ∈ p.stmts, Onward st) (id : BlockId) :
    ∀ st ∈ (p.blockId id).stmts, Onward st :=
  List.forall_mem_append.mpr ⟨hp, List.forall_mem_singleton.mpr (onward_store _ _ _)⟩

theorem onward_values (l : Layout) (args : List (ValueType × Expr)) {p : Push}
    (hp : ∀ st ∈ p.stmts, Onward st) :
    ∀ st ∈ (args.foldl (fun p (t, x) => p.value l x t) p).stmts, Onward st := by
  induction args generalizing p with
  | nil => exact hp
  | cons x args ih =>
      exact ih (List.forall_mem_append.mpr ⟨hp, onward_storeValue _ _ _ _ _⟩)

/-- A machine entry does what it does before it runs the dispatcher straight on. -/
theorem machineEntry_body (l : Layout) (name : String) (sig : Signature) (first exit : BlockId)
    (stackWords : UInt32) : ∃ ss, (machineEntry l name sig first exit stackWords).body
      = callOnly setupName :: ss ++ [callOnly dispatcherName] ∧ ∀ st ∈ ss, Onward st := by
  have hbelow := onward_blockId (p := Push.reserve {} (l.sizeOf sig.results))
    (List.forall_mem_nil _) exit
  have hframe := onward_finish (onward_blockId (onward_values l (ioArgs l sig.params) hbelow) first)
    stackWords
  refine ⟨[.store stackBuffer (.var headerBase) (.u32 0), .store stackBuffer trapPlace (.u32 0)]
    ++ .assign spVar (.u32 0) :: _ ++ [writeSp], ?_, List.forall_mem_append.mpr
      ⟨List.forall_mem_append.mpr ⟨?_, List.forall_mem_cons.mpr ⟨onward_assign _ _, hframe⟩⟩,
        List.forall_mem_singleton.mpr (onward_store _ _ _)⟩⟩
  · simp only [machineEntry, entryStart, List.append_assoc, List.cons_append, List.nil_append]
  · exact List.forall_mem_cons.mpr
      ⟨onward_store _ _ _, List.forall_mem_singleton.mpr (onward_store _ _ _)⟩

end Onward

/-! ## Runs that end in the dispatcher -/

section Entries

open Exec

variable {env : Env} {d : Pair} {s : State} {P : CallSite → Prop} {W : String → Prop}

/-- Statements that go on lead to the one behind them, with the lane still in order. -/
theorem last_runs (hwritable : Writable d W) (hlawful : Lawful env.exe.module P W) {ss : List Stmt}
    (hss : StmtsLawful P W ss) (honward : ∀ st ∈ ss, Onward st) {st : Stmt} {n : Nat} {flow : Flow}
    {s' : State} (h : Twin d s s)
    (hrun : outcome (stmts env n (ss ++ [st])) s = some (.ok flow, s')) :
    ∃ k s₁, Twin d s₁ s₁ ∧ outcome (stmt env k st) s₁ = some (.ok flow, s') := by
  induction ss generalizing s n with
  | nil =>
      obtain ⟨k, hst⟩ := ok_of_singleton hrun
      exact ⟨k, s, h, hst⟩
  | cons st' ss ih =>
      obtain ⟨hst', honward⟩ := List.forall_mem_cons.mp honward
      rw [StmtsLawful] at hss
      obtain ⟨m, flow₁, s₁, hr, hrest⟩ := ok_of_cons hrun
      have htwin := h.of_run ((lockstep_run h.matches hwritable hlawful m).2.1 st' hss.1) hr
      exact ih hss.2 honward htwin (hrest (hst' env m s flow₁ s₁ hr))

/-- A lane that the dispatcher has left is one that it leaves at once. -/
theorem poll_of_dispatcher (hx : Runnable env.exe) (hsp : d.sp = none) {n : Nat} {flow : Flow}
    {s' : State} (h : Twin d s s)
    (hrun : outcome (stmt env n (callOnly dispatcherName)) s = some (.ok flow, s')) :
    s'.lane.poll = .ok true := by
  obtain ⟨-, -, f, hf, hcall⟩ := ok_of_callOnly hrun
  rw [hx.dispatcher] at hf
  cases hf
  obtain ⟨m, got, hcall⟩ := hcall (hx.unnumbered dispatcherName (by decide))
  obtain ⟨k, flow', s₁, hbody, rfl, -⟩ := ok_of_call hcall
  rw [body_dispatcher] at hbody
  obtain ⟨k, hloop⟩ := ok_of_singleton hbody
  have hblocks := hx.inner ⟨dispatcherName, 0, 0⟩ inner_dispatcher _ hx.dispatcher
  have hpolling : Polling d { s with vars := frame _ [] } (.zero .u32) (.zero .u32) :=
    ⟨h.withVars (clear_frame hblocks.vars []), rfl⟩
  cases k with
  | zero => exact absurd hloop (throw_ne _ _ _)
  | succ k =>
      rw [stmt] at hloop
      exact (hpolling.loop_ends (fun _ => hsp) hx.inner hblocks hloop).1

/-- What comes behind the start of an entry point runs with the regions found. -/
theorem ok_of_start (hx : Runnable env.exe) (hsize : d.size = regionSize env.exe)
    (hindex : s.lane.index = d.index) {rest : List Stmt} {n : Nat} {flow : Flow} {s' : State}
    (h : outcome (stmts env n (callOnly setupName :: rest)) { s with privates := unset }
      = some (.ok flow, s')) :
    ∃ k, outcome (stmts env k rest) { s with privates := d.bases d.index } = some (.ok flow, s') := by
  cases n with
  | zero => exact absurd h (throw_ne _ _ _)
  | succ n =>
      rw [outcome_stmts_cons, outcome_setup hx rfl] at h
      by_cases hn : n < 7
      · rw [if_pos hn] at h
        cases h
      · rw [if_neg hn, hindex, ← Pair.bases_eq hsize] at h
        exact ⟨n, h⟩

theorem Mates.self {x : Executable} {ln : Lane} (h : ln.Sized x) : Mates x ln ln :=
  ⟨h, fun _ => rfl, rfl, rfl, .inl rfl⟩

/-- An entry point that ends with the dispatcher leaves a lane that this leaves at once. -/
theorem poll_of_entry (hx : Runnable env.exe) {ln : Lane} (hsized : ln.Sized env.exe)
    {f : Shader.Function} (hstart : IsStart f) {ss : List Stmt}
    (hbody : f.body = callOnly setupName :: ss ++ [callOnly dispatcherName])
    (honward : ∀ st ∈ ss, Onward st) {n : Nat} {got : List Datum} {s' : State}
    (h : outcome (call env n f []) ln.entering = some (.ok got, s')) : s'.lane.poll = .ok true := by
  have hmates := Mates.self hsized
  obtain ⟨m, flow, s₁, hrun, rfl, -⟩ := ok_of_call h
  rw [hbody, List.cons_append] at hrun
  have htwin := hmates.starting.withVars (clear_frame hstart.starts.vars [])
  obtain ⟨k, hrest⟩ := ok_of_start (d := hmates.pair) (s := { ln.entering with vars := frame f [] })
    hx rfl rfl hrun
  obtain ⟨rest, hrest', hlawful⟩ := hstart.starts.body
  rw [hbody, List.cons_append] at hrest'
  cases hrest'
  obtain ⟨j, s₂, htwin₂, hlast⟩ := last_runs (fun _ => rfl) hx.inner
    (Shader.stmtsLawful_append.mp hlawful).1 honward htwin hrest
  have hpoll := poll_of_dispatcher hx rfl htwin₂ hlast
  exact hpoll

/-- A word of the stack is written where it is. -/
theorem ok_of_store {n : Nat} {place : Expr} {o v : UInt32} {flow : Flow} {s' : State}
    (hplace : eval env.exe.layout s place = .ok (.ofU32 (s.lane.base .stack + o)))
    (h : outcome (stmt env n (.store stackBuffer place (.u32 v))) s = some (.ok flow, s')) :
    flow = .next ∧ s' = { s with lane := s.lane.setWord .stack o.toNat v } := by
  have hvalue : eval env.exe.layout s (.u32 v) = .ok (.ofU32 v) := rfl
  cases n with
  | zero => exact absurd h (throw_ne _ _ _)
  | succ n =>
      rw [stmt, outcome_bind_ok (outcome_value_ok hplace),
        outcome_bind_ok (outcome_value_ok hvalue)] at h
      obtain ⟨_, s₁, hstore, h⟩ := bind_ok h
      cases hat : s.lane.locate stackBuffer (s.lane.base .stack + o) with
      | error e =>
          have hfail : outcome (Exec.store stackBuffer (s.lane.base .stack + o) v) s
              = outcome (Exec.ofExcept (.error e) >>= fun place : Region × Nat =>
                modify fun s : State => { s with lane := s.lane.setWord place.1 place.2 v }) s := by
            rw [← hat]
            rfl
          obtain ⟨_, s₂, herror, -⟩ := bind_ok (hfail ▸ hstore)
          obtain ⟨_, hstop⟩ := error_of_ofExcept herror
          cases hstop
      | ok place =>
          have hplace := hat
          rw [Lane.locate_at rfl] at hplace
          split at hplace
          · cases hplace
          · cases hplace
            change outcome (Exec.store stackBuffer (s.lane.base .stack + o) v) s = _ at hstore
            rw [outcome_store hat] at hstore
            cases hstore
            cases h
            exact ⟨rfl, rfl⟩

theorem sp_clearHeader (ln : Lane) :
    ((ln.setWord .stack 0 0).setWord .stack LaneStack.trapWord 0).stack.sp = 0 := by
  simp [Lane.setWord, LaneStack.sp, LaneStack.trapWord, Array.getD_eq_getD_getElem?]

/-- An entry point that calls a direct form leaves the stack empty. -/
theorem sp_of_entry (hx : Runnable env.exe) {ln : Lane} (hsized : ln.Sized env.exe) {e : Entry}
    {n : Nat} {got : List Datum} {s' : State}
    (h : outcome (call env n (directEntry env.exe.layout e.shader (directName e.func) e.sig) [])
      ln.entering = some (.ok got, s')) : s'.lane.stack.sp = 0 := by
  have hmates := Mates.self hsized
  have hcallee : DirectSite ⟨directName e.func, e.sig.params.length, e.sig.results.length⟩ := by
    rw [DirectSite, stem_directName]
    decide
  obtain ⟨rest, hbody, hrest⟩ := directEntry_rest (W := (· ≠ stackBuffer)) env.exe.layout e.shader
    (directName e.func) e.sig hcallee (by decide)
  have hvars := (directEntry_starts env.exe.layout e.shader (directName e.func) e.sig
    (W := fun _ => True) hcallee trivial trivial).vars
  obtain ⟨m, flow, s₁, hrun, rfl, -⟩ := ok_of_call h
  rw [hbody] at hrun
  have htwin := hmates.starting.withVars (clear_frame hvars [])
  obtain ⟨k, hrun⟩ := ok_of_start (d := hmates.pair)
    (s := { ln.entering with vars := frame _ [] }) hx rfl rfl hrun
  have hheader (s : State) (h : Twin hmates.pair s s) :
      eval env.exe.layout s (.var headerBase) = .ok (.ofU32 (s.lane.base .stack + 0)) := by
    rw [UInt32.add_zero]
    exact h.eval_header _
  obtain ⟨j, flow₂, s₂, hsp, hrun⟩ := ok_of_cons hrun
  obtain ⟨rfl, hs₂⟩ := ok_of_store (hheader _ htwin) hsp
  have htwin₂ : Twin hmates.pair s₂ s₂ := hs₂ ▸ htwin.setWord (fun _ => rfl) _ _
  obtain ⟨i, flow₃, s₃, htrap, hrun⟩ := ok_of_cons (hrun rfl)
  obtain ⟨rfl, hs₃⟩ := ok_of_store (eval_offset (htwin₂.eval_header _) _) htrap
  have htwin₃ : Twin hmates.pair s₃ s₃ := hs₃ ▸ htwin₂.setWord (fun _ => rfl) _ _
  have hempty : s₃.lane.stack.sp = 0 := by
    rw [hs₃, hs₂]
    exact sp_clearHeader _
  have htwin₀ : Twin { hmates.pair with sp := some 0 } s₃ s₃ :=
    { htwin₃ with sp := fun v hv => by cases hv; exact hempty }
  have hlawful : Lawful env.exe.module DirectSite (· ≠ stackBuffer) := fun c hc f hf =>
    (hx.direct c hc f hf).mono (fun _ => id) fun buffer hbuffer => by rw [hbuffer]; decide
  have hlast := htwin₀.of_run ((lockstep_run htwin₀.matches (fun h => absurd rfl h) hlawful i).1
    rest hrest) (hrun rfl)
  exact hlast.sp 0 rfl

/-! ## Lanes at a yield -/

/-- The lane waits for the host, with a dispatcher that stops at once and can be run again. -/
structure AtYield (x : Executable) (ln : Lane) (request : Pending) (steps : Nat) : Prop where
  sized : ln.Sized x
  entry : ln.entry.isSome = true
  trap : ln.stack.trap = .none
  pending : x.hosts.pending ln.stack = .ok (some request)
  steps : ln.steps = steps
  poll : ln.poll = .ok true
  resume : x.module.function? resumeName = some resumeEntry

/-- The code that ends with a request leaves the lane as it was. -/
theorem settle_yielded {x : Executable} {ln ln' : Lane} {request : Pending} {steps : Nat}
    (h : ln.settle x = (.ok (.yielded request steps), ln')) :
    ln' = ln ∧ ln.stack.trap = .none ∧ x.hosts.pending ln.stack = .ok (some request)
      ∧ ln.steps = steps := by
  unfold Lane.settle at h
  split at h
  · cases h
  · next htrap =>
    split at h
    · next e _ => cases e <;> cases h
    · next p hpending =>
      cases h
      exact ⟨rfl, not_not.mp htrap, hpending, rfl⟩
    · split at h
      · cases h
      · split at h
        · next e _ => cases e <;> cases h
        · cases h

theorem sp_of_pending {t : HostTable} {st : LaneStack} {request : Pending}
    (h : t.pending st = .ok (some request)) : st.sp ≠ 0 := by
  intro hsp
  rw [HostTable.pending, hsp] at h
  cases h

theorem AtYield.settle_eq {x : Executable} {ln : Lane} {request : Pending} {steps : Nat}
    (h : AtYield x ln request steps) : ln.settle x = (.ok (.yielded request steps), ln) := by
  rw [Lane.settle, if_neg (not_not_intro h.trap), h.pending, h.steps]

/-- An entry point that yields leaves the lane at a yield. -/
theorem atYield_of_enter (hx : Runnable env.exe) {ln ln' : Lane} (hsized : ln.Sized env.exe)
    (hentry : ln.entry.isSome = true) {name : String} {f : Shader.Function}
    (hf : env.exe.module.function? name = some f)
    (hkind : f = resumeEntry ∧ name = resumeName ∨ ∃ e, IsEntryCode env.exe e f) {n : Nat}
    {request : Pending} {steps : Nat}
    (h : ln.enter env n name = some (.ok (.yielded request steps), ln')) :
    AtYield env.exe ln' request steps := by
  rw [Lane.enter_eq hx hf] at h
  obtain ⟨⟨r, s⟩, hcall, hleave⟩ := Option.bind_eq_some_iff.mp h
  cases r with
  | error stop =>
      cases stop with
      | trap code => cases hleave
      | abort cause => cases cause <;> cases hleave
      | outOfFuel => cases hleave
  | ok got =>
      have hsettle : s.lane.settle env.exe = (.ok (.yielded request steps), ln') :=
        Option.some.inj hleave
      obtain ⟨rfl, htrap, hpending, hsteps⟩ := settle_yielded hsettle
      have hmates := Mates.self hsized
      have hstart : IsStart f := by
        rcases hkind with ⟨rfl, -⟩ | ⟨e, hcode⟩
        · exact isStart_resume
        · exact hcode.isStart
      have htwin : Twin hmates.pair s s := by
        have hmatches : hmates.pair.Matches := hmates.level
        have hrel := hmates.starting.call hx rfl hmatches rfl hx.inner (fun _ => rfl)
          hstart.params hstart.starts n
        change Option.Rel _ (outcome (call env n f []) ln.entering)
          (outcome (call env n f []) ln.entering) at hrel
        rw [hcall] at hrel
        cases hrel with
        | some hended => exact hended.2
      have hends (h : s.lane.poll = .ok true)
          (hresume : env.exe.module.function? resumeName = some resumeEntry) :
          AtYield env.exe s.lane request steps :=
        { sized := htwin.size, entry := htwin.entry ▸ hentry, trap := htrap, pending := hpending
          steps := hsteps, poll := h, resume := hresume }
      rcases hkind with ⟨rfl, rfl⟩ | ⟨e, ⟨-, rfl⟩ | ⟨⟨exit, first, -, rfl⟩, hresume⟩⟩
      · exact hends (poll_of_entry hx hsized hstart (List.nil_append _).symm (List.forall_mem_nil _) hcall) hf
      · exact absurd (sp_of_entry hx hsized hcall) (sp_of_pending hpending)
      · obtain ⟨ss, hbody, honward⟩ := machineEntry_body env.exe.layout e.shader e.sig first exit
          env.exe.stackWords
        exact hends (poll_of_entry hx hsized hstart hbody honward hcall) hresume

/-- Where the dispatcher stops it does nothing. -/
theorem dispatcher_stops (hx : Runnable env.exe) (h : Twin d s s)
    (hpoll : s.lane.poll = .ok true) (n : Nat) :
    outcome (stmt env (n + 13) (callOnly dispatcherName)) s = some (.ok .next, s) := by
  obtain ⟨blocks, hf⟩ : ∃ blocks, env.exe.module.function? dispatcherName
      = some (dispatcher blocks) := ⟨_, hx.dispatcher⟩
  have hblocks := hx.inner ⟨dispatcherName, 0, 0⟩ inner_dispatcher _ hf
  have hpolling : Polling d { s with vars := frame (dispatcher blocks) [] } (.zero .u32)
      (.zero .u32) := ⟨h.withVars (clear_frame hblocks.vars []), rfl⟩
  obtain ⟨s₁, hloop, hlane, hprivates⟩ := hpolling.loop_stops env blocks hpoll n
  have hbody : outcome (stmts env (n + 11) (dispatcher blocks).body)
      { s with vars := frame (dispatcher blocks) [] } = some (.ok .next, s₁) := by
    rw [body_dispatcher, outcome_stmts_cons, stmt, hloop]
    rfl
  have hs : { s₁ with vars := s.vars } = s := by rw [hlane, hprivates]
  have hcall : outcome (call env (n + 12) (dispatcher blocks) []) s = some (.ok [], s) := by
    rw [outcome_call (n + 11) rfl, outcome_bind_ok hbody]
    exact congrArg (fun s => some (Except.ok [], s)) hs
  have hvalues : outcome (values env []) s = some (.ok [], s) := rfl
  rw [callOnly, stmt, hf]
  dsimp only
  rw [hx.unnumbered dispatcherName (by decide), outcome_bind_ok hvalues, outcome_bind_ok hcall]
  rfl

/-- Asked again, a lane at a yield yields the same, and no word of it changes. -/
theorem AtYield.resume_eq (hx : Runnable env.exe) {ln : Lane} {request : Pending} {steps : Nat}
    (h : AtYield env.exe ln request steps) (n : Nat) :
    ln.resume env (n + 16) = some (.ok (.yielded request steps), ln) := by
  have hmates := Mates.self h.sized
  have hsuspended : ln.isSuspended = true := by
    rw [Lane.isSuspended, h.entry, Bool.true_and]
    exact decide_eq_true (sp_of_pending h.pending)
  let found : State := { ln.entering with privates := hmates.pair.bases ln.index }
  have htwin : Twin hmates.pair found found := hmates.starting
  have hsetup : outcome (stmt env (n + 14) (callOnly setupName)) ln.entering
      = some (.ok .next, found) := by
    have hsetup := outcome_setup hx rfl (n + 14) ln.entering
    rw [if_neg (by omega), ← Pair.bases_eq (d := hmates.pair) rfl] at hsetup
    exact hsetup
  have hbody : outcome (stmts env (n + 15) resumeEntry.body) ln.entering
      = some (.ok .next, found) := by
    rw [resumeEntry, stmts_of_next hsetup, stmts_of_next (dispatcher_stops hx htwin h.poll n)]
    rfl
  have hcall : outcome (call env (n + 16) resumeEntry []) ln.entering = some (.ok [], found) := by
    have hentering : { ln.entering with vars := frame resumeEntry [] } = ln.entering := rfl
    rw [outcome_call (n + 15) rfl, hentering, outcome_bind_ok hbody]
    rfl
  rw [Lane.resume, if_pos hsuspended, Lane.enter_eq hx h.resume, hcall]
  exact congrArg some h.settle_eq

end Entries

end Execution

end WasmShader
