import WasmShader.Proofs.Instruments
import WasmShader.Proofs.Invocations

/-!
# Watched runs

A run does not say what it went through: only how it ended, and the state behind it. A watched run
(`Watched`) also gives what could be seen on the way: the state in front of every statement, the
state behind every count of a block, and every request to the host.

Watching changes nothing: what is watched is the interpreter itself (`run_watched`). With more fuel
a run that was cut off goes on, so that more may be seen of it, and nothing that was seen before
goes away (`lasts_call`, `seenRun_lasts`).
-/

namespace WasmShader.Execution

open Shader

/-- Something seen of a run. -/
inductive Event
  /-- A statement is about to run. -/
  | reached (s : State)
  /-- A block has been counted, and is about to run. -/
  | dispatched (id : BlockId) (s : State)
  /-- The lane waits for the host. -/
  | yielded (request : Pending)

/-- A block has been counted. -/
def Event.isDispatch : Event → Bool
  | .dispatched _ _ => true
  | _ => false

/-- How many blocks have been counted. -/
def dispatches (es : List Event) : Nat := es.countP Event.isDispatch

theorem dispatches_append (es es' : List Event) :
    dispatches (es ++ es') = dispatches es + dispatches es' := List.countP_append

/-- A computation with what is seen of it. -/
def Watched (α : Type) : Type := State → List Event × Ending α

namespace Watched

variable {α β : Type}

/-- Goes on behind a computation that ended without a stop. -/
def bind (x : Watched α) (k : α → Watched β) : Watched β := fun s =>
  match x s with
  | (es, .ok a, s') => (es ++ (k a s').1, (k a s').2)
  | (es, .error e, s') => (es, .error e, s')

instance : Monad Watched where
  pure a := fun s => ([], .ok a, s)
  bind := bind

/-- A computation that is looked at only in front and behind. -/
def look (x : Exec α) : Watched α := fun s => ([], x.run.run s)

/-- Sees what an event says of the state. -/
def see (event : State → Event) : Watched Unit := fun s => ([event s], .ok (), s)

/-- The computation, not watched. -/
def run (x : Watched α) : Exec α := ExceptT.mk fun s => (x s).2

end Watched

/-- A run is watched in front of its statements and behind the counts of blocks. -/
def watching : Instrument Watched where
  lift := Watched.look
  reached := Watched.see .reached
  dispatch env id := do
    Watched.look (Exec.dispatch env id)
    Watched.see (.dispatched id)
  called _ x := x

namespace Watched

/-! ## Watching changes nothing -/

theorem run_look (x : Exec α) : (watching.lift x).run = x := rfl

theorem run_called (name : String) (x : Watched α) : (watching.called name x).run = x.run := rfl

theorem run_bind (x : Watched α) (k : α → Watched β) :
    (x >>= k).run = x.run >>= fun a => (k a).run := by
  funext s
  change (bind x k s).2 = match (x s).2 with
    | (r, s') => ((ExceptT.bindCont (fun a => (k a).run) r).run s' : Ending β)
  rw [bind]
  obtain ⟨es, r, s'⟩ := x s
  cases r <;> rfl

theorem run_dispatch (env : Env) (id : BlockId) :
    (watching.dispatch env id).run = Exec.dispatch env id := by
  change (look (Exec.dispatch env id) >>= fun _ => see (.dispatched id)).run = _
  rw [run_bind]
  exact bind_pure_unit

theorem preserved_watching (env : Env) :
    Preserved watching bare env env 0 (fun (_ : Unit) _ => True) (fun _ _ => True)
      (fun _ {_} x y => x.run = y) :=
  Composes.preserved
    { exe := rfl
      part := fun _ _ _ _ => trivial
      body := fun _ _ _ => trivial
      pure := fun _ => rfl
      bind := by
        intro _ _ _ x _ k _ hx hk
        rw [run_bind, hx]
        exact congrArg _ (funext hk)
      outOfFuel := fun _ hy => (hy rfl).symm
      reached := rfl
      checkCancelled := rfl
      dispatch := fun _ _ => run_dispatch env _
      called := fun _ _ => ⟨(), trivial, fun _ _ => id⟩ }
    fun _ => rfl

/-- A watched run is the run: of statements, of one statement, of a loop and of a call. -/
theorem run_watched (env : Env) (fuel : Nat) :
    (∀ ss, (watching.stmts env fuel ss).run = Exec.stmts env fuel ss)
      ∧ (∀ st, (watching.stmt env fuel st).run = Exec.stmt env fuel st)
      ∧ (∀ label body, (watching.loop env fuel label body).run = Exec.loop env fuel label body)
      ∧ ∀ f args, (watching.call env fuel f args).run = Exec.call env fuel f args := by
  obtain ⟨hstmts, hstmt, hloop, hcall⟩ := bare_run env fuel
  have hruns := (preserved_watching env).run fuel
  refine ⟨fun ss => ?_, fun st => ?_, fun label body => ?_, fun f args => ?_⟩
  · rw [← hstmts]
    exact hruns.stmts ss (w := ()) fun _ _ => trivial
  · rw [← hstmt]
    exact hruns.stmt st (w := ()) trivial
  · rw [← hloop]
    exact hruns.loop label body (w := ()) fun _ _ => trivial
  · rw [← hcall]
    exact hruns.call f args (w := ()) trivial

/-! ## More fuel -/

/-- An end stays as it is, and in any case everything seen is seen again. -/
def Lasts (x y : Watched α) : Prop :=
  ∀ s, (x s).1 <+: (y s).1 ∧ ((x s).2.1 ≠ .error .outOfFuel → y s = x s)

theorem Lasts.refl (x : Watched α) : Lasts x x := fun _ => ⟨List.prefix_rfl, fun _ => rfl⟩

theorem Lasts.bind {x y : Watched α} {k l : α → Watched β} (hxy : Lasts x y)
    (hkl : ∀ a, Lasts (k a) (l a)) : Lasts (x >>= k) (y >>= l) := by
  intro s
  obtain ⟨hseen, hend⟩ := hxy s
  change (Watched.bind x k s).1 <+: (Watched.bind y l s).1
    ∧ ((Watched.bind x k s).2.1 ≠ _ → Watched.bind y l s = Watched.bind x k s)
  rw [Watched.bind, Watched.bind]
  generalize hx : x s = rx at hseen hend ⊢
  obtain ⟨es, r, s'⟩ := rx
  cases r with
  | ok a =>
      rw [hend (by simp)]
      obtain ⟨hk, hkend⟩ := hkl a s'
      refine ⟨(List.prefix_append_right_inj es).mpr hk, fun hne => ?_⟩
      dsimp only
      rw [hkend hne]
  | error e =>
      dsimp only at hseen hend ⊢
      refine ⟨?_, fun hne => by rw [hend fun heq => hne (by cases heq; rfl)]⟩
      generalize y s = ry at hseen
      obtain ⟨es', r', s''⟩ := ry
      cases r' with
      | ok b => exact hseen.trans (List.prefix_append es' _)
      | error e' => exact hseen

/-- One more unit of fuel keeps every end and everything seen. -/
theorem preserved_lasts (env : Env) :
    Preserved watching watching env env 1 (fun (_ : Unit) _ => True) (fun _ _ => True)
      (fun _ {_} => Lasts) :=
  Composes.preserved
    { exe := rfl
      part := fun _ _ _ _ => trivial
      body := fun _ _ _ => trivial
      pure := fun _ => .refl _
      bind := Lasts.bind
      outOfFuel := fun _ _ _ => ⟨List.nil_prefix, fun hne => absurd rfl hne⟩
      reached := .refl _
      checkCancelled := .refl _
      dispatch := fun _ _ => .refl _
      called := fun _ _ => ⟨(), trivial, fun _ _ => id⟩ }
    fun _ => .refl _

theorem Lasts.trans {x y z : Watched α} (h : Lasts x y) (h' : Lasts y z) : Lasts x z := by
  intro s
  obtain ⟨hseen, hend⟩ := h s
  obtain ⟨hseen', hend'⟩ := h' s
  refine ⟨hseen.trans hseen', fun hne => ?_⟩
  have heq := hend hne
  rw [hend' (by rwa [heq]), heq]

theorem lasts_call (env : Env) (f : Shader.Function) (args : List Datum) {n m : Nat}
    (hle : n ≤ m) : Lasts (watching.call env n f args) (watching.call env m f args) := by
  induction hle with
  | refl => exact .refl _
  | step _ ih => exact ih.trans (((preserved_lasts env).run _).call f args (w := ()) trivial)

end Watched

/-! ## Invocations -/

namespace Lane

variable {σ : Type}

/-- The state in which a function of a module starts on a lane. -/
def starting (m : Shader.Module) (ln : Lane) : State :=
  { lane := ln, privates := (m.privates.map fun v => (v.name, Datum.zero v.type)).reverse }

/-- What is seen of a function of the module. -/
def seenEnter (env : Env) (fuel : Nat) (ln : Lane) (name : String) : List Event :=
  match env.exe.module.function? name with
  | none => []
  | some f => (watching.call env fuel f [] (ln.starting env.exe.module)).1

/-- The lane on which an invocation runs code and the function that it runs, if the request is one
that is taken. -/
def started? (x : Compile.Executable) (ln : Lane) (symbol : Symbol) (args : List Value) :
    Option (Lane × String) :=
  match x.entryFor? symbol with
  | none => none
  | some e =>
    match checkArgs e args, x.layout.encodeAll args with
    | .ok _, .ok words =>
      let io := overwrite (Array.replicate ln.io.size 0) words.toArray
      some ({ ln with io, entry := some e, steps := 0 }, e.shader)
    | _, _ => none

/-- What is seen of an invocation that is started. -/
def seenInvoke (env : Env) (fuel : Nat) (ln : Lane) (symbol : Symbol) (args : List Value) :
    List Event :=
  match ln.started? env.exe symbol args with
  | none => []
  | some (ln, name) => ln.seenEnter env fuel name

/-- What is seen of an invocation that goes on. -/
def seenResume (env : Env) (fuel : Nat) (ln : Lane) : List Event :=
  if ln.isSuspended then ln.seenEnter env fuel Emit.resumeName else []

/-- What is seen of an invocation whose requests a host answers. -/
def seenServe (env : Env) (host? : Option (Host σ)) :
    (fuel : Nat) → Except Abort Outcome → Lane → σ → List Event
  | 0, _, _, _ => []
  | _ + 1, .error _, _, _ => []
  | _ + 1, .ok (.finished _ _), _, _ => []
  | fuel + 1, .ok (.yielded p _), ln, h =>
    .yielded p ::
      match host? with
      | none => []
      | some host =>
        match host.call h ln.index p.func p.args with
        | (.error _, _) => []
        | (.ok results, h) =>
          match ln.complete env.exe p results with
          | (.error _, _) => []
          | (.ok _, ln) =>
            ln.seenResume env fuel ++
              match ln.resume env fuel with
              | none => []
              | some (outcome, ln) => seenServe env host? fuel outcome ln h

/-- What is seen of an invocation from its start to its end. -/
def seenRun (env : Env) (host? : Option (Host σ)) (fuel : Nat) (ln : Lane) (symbol : Symbol)
    (args : List Value) (h : σ) : List Event :=
  ln.seenInvoke env fuel symbol args ++
    match ln.invoke env fuel symbol args with
    | none => []
    | some (outcome, ln) => seenServe env host? fuel outcome ln h

/-! What an entry point comes to is what its watched code comes to. -/

theorem enter_of_watched (env : Env) {name : String} {f : Shader.Function}
    (hf : env.exe.module.function? name = some f) (fuel : Nat) (ln : Lane) :
    ln.enter env fuel name
      = leaveWith env.exe (watching.call env fuel f [] (ln.starting env.exe.module)).2 := by
  have hrun := congrFun ((Watched.run_watched env fuel).2.2.2 f []) (ln.starting env.exe.module)
  change (watching.call env fuel f [] (ln.starting env.exe.module)).2
    = (Exec.call env fuel f []).run.run (ln.starting env.exe.module) at hrun
  rw [hrun, Lane.enter, hf]
  dsimp only
  rw [← starting]
  rcases (Exec.call env fuel f []).run.run (ln.starting env.exe.module) with ⟨r, s⟩
  cases r <;> rfl

theorem enter_of_missing (env : Env) {name : String}
    (hf : env.exe.module.function? name = none) (fuel : Nat) (ln : Lane) :
    ln.enter env fuel name
      = some (Failure.raise (.notFound .runtime "function" (Text.quote name)), ln) := by
  rw [Lane.enter, hf]

theorem invoke_of_started (env : Env) {ln ln' : Lane} {symbol : Symbol} {args : List Value}
    {name : String} (h : ln.started? env.exe symbol args = some (ln', name)) (fuel : Nat) :
    ln.invoke env fuel symbol args = ln'.enter env fuel name := by
  unfold started? at h
  cases he : env.exe.entryFor? symbol with
  | none => rw [he] at h; cases h
  | some e =>
    rw [he] at h
    rw [Lane.invoke, he]
    dsimp only at h ⊢
    cases hargs : checkArgs e args with
    | error e' => rw [hargs] at h; cases h
    | ok u =>
        rw [hargs] at h
        dsimp only
        cases hwords : env.exe.layout.encodeAll args with
        | error e' => rw [hwords] at h; cases h
        | ok words =>
            rw [hwords] at h
            cases h
            rfl

/-- A request that is not taken comes to the same under every limit, and no code runs. -/
theorem invoke_of_not_started {env : Env} {ln : Lane} {symbol : Symbol} {args : List Value}
    (h : ln.started? env.exe symbol args = none) :
    ∃ e ln', ∀ env' : Env, env'.exe = env.exe → ∀ fuel,
      ln.invoke env' fuel symbol args = some (.error e, ln') := by
  unfold started? at h
  cases he : env.exe.entryFor? symbol with
  | none =>
      exact ⟨_, _, fun env' henv fuel => by
        rw [Lane.invoke, henv, he]
        rfl⟩
  | some e =>
      rw [he] at h
      dsimp only at h
      cases hargs : checkArgs e args with
      | error e' =>
          exact ⟨_, _, fun env' henv fuel => by
            rw [Lane.invoke, henv, he]
            dsimp only
            rw [hargs]
            rfl⟩
      | ok u =>
          rw [hargs] at h
          cases hwords : env.exe.layout.encodeAll args with
          | error e' =>
              exact ⟨_, _, fun env' henv fuel => by
                rw [Lane.invoke, henv, he]
                dsimp only
                rw [hargs]
                dsimp only
                rw [hwords]⟩
          | ok words => rw [hwords] at h; cases h

/-! ## Invocations with more fuel -/

theorem leaveWith_eq_some {x : Compile.Executable} {r : Ending (List Datum)}
    {y : Except Abort Outcome × Lane} (h : leaveWith x r = some y) : r.1 ≠ .error .outOfFuel := by
  rintro heq
  obtain ⟨r, s⟩ := r
  dsimp only at heq
  subst heq
  cases h

theorem enter_lasts (env : Env) {n m : Nat} (hle : n ≤ m) (ln : Lane) (name : String) :
    ln.seenEnter env n name <+: ln.seenEnter env m name
      ∧ ∀ y, ln.enter env n name = some y →
        ln.enter env m name = some y ∧ ln.seenEnter env m name = ln.seenEnter env n name := by
  unfold seenEnter
  cases hf : env.exe.module.function? name with
  | none =>
      refine ⟨List.prefix_rfl, fun y hy => ⟨?_, rfl⟩⟩
      rw [enter_of_missing env hf] at hy ⊢
      exact hy
  | some f =>
      obtain ⟨hseen, hend⟩ := Watched.lasts_call env f [] hle (ln.starting env.exe.module)
      refine ⟨hseen, fun y hy => ?_⟩
      rw [enter_of_watched env hf] at hy ⊢
      dsimp only
      rw [hend (leaveWith_eq_some hy)]
      exact ⟨hy, rfl⟩

theorem resume_lasts (env : Env) {n m : Nat} (hle : n ≤ m) (ln : Lane) :
    ln.seenResume env n <+: ln.seenResume env m
      ∧ ∀ y, ln.resume env n = some y →
        ln.resume env m = some y ∧ ln.seenResume env m = ln.seenResume env n := by
  unfold seenResume Lane.resume
  split
  · exact enter_lasts env hle ln Emit.resumeName
  · exact ⟨List.prefix_rfl, fun y hy => ⟨hy, rfl⟩⟩

theorem invoke_lasts (env : Env) {n m : Nat} (hle : n ≤ m) (ln : Lane) (symbol : Symbol)
    (args : List Value) :
    ln.seenInvoke env n symbol args <+: ln.seenInvoke env m symbol args
      ∧ ∀ y, ln.invoke env n symbol args = some y →
        ln.invoke env m symbol args = some y
          ∧ ln.seenInvoke env m symbol args = ln.seenInvoke env n symbol args := by
  unfold seenInvoke
  cases hstarted : ln.started? env.exe symbol args with
  | none =>
      obtain ⟨e, ln', hall⟩ := invoke_of_not_started hstarted
      rw [hall env rfl, hall env rfl]
      exact ⟨List.prefix_rfl, fun y hy => ⟨hy, rfl⟩⟩
  | some start =>
      obtain ⟨ln', name⟩ := start
      rw [invoke_of_started env hstarted, invoke_of_started env hstarted]
      exact enter_lasts env hle ln' name

theorem seenServe_lasts (env : Env) (host? : Option (Host σ)) {n m : Nat} (hle : n ≤ m)
    (r : Except Abort Outcome) (ln : Lane) (h : σ) :
    seenServe env host? n r ln h <+: seenServe env host? m r ln h := by
  induction n generalizing m r ln h with
  | zero => exact List.nil_prefix
  | succ n ih =>
      obtain ⟨m, rfl⟩ : ∃ k, m = k + 1 := ⟨m - 1, by omega⟩
      match r with
      | .error e => exact List.prefix_rfl
      | .ok (.finished values steps) => exact List.prefix_rfl
      | .ok (.yielded p steps) =>
          cases host? with
          | none => rw [seenServe, seenServe]
          | some host =>
              rw [seenServe, seenServe]
              refine (List.prefix_cons_inj _).mpr ?_
              generalize host.call h ln.index p.func p.args = answer
              obtain ⟨answer, h'⟩ := answer
              cases answer with
              | error e => exact List.prefix_rfl
              | ok results =>
                  dsimp only
                  generalize ln.complete env.exe p results = completed
                  obtain ⟨completed, ln'⟩ := completed
                  cases completed with
                  | error e => exact List.prefix_rfl
                  | ok u =>
                      dsimp only
                      obtain ⟨hseen, hend⟩ := resume_lasts env (show n ≤ m by omega) ln'
                      cases hresume : ln'.resume env n with
                      | none =>
                          rw [List.append_nil]
                          exact hseen.trans (List.prefix_append _ _)
                      | some y =>
                          obtain ⟨hmore, hsame⟩ := hend y hresume
                          rw [hmore, hsame]
                          exact (List.prefix_append_right_inj _).mpr (ih (by omega) _ _ _)

/-- With more fuel everything that was seen of an invocation is seen again. -/
theorem seenRun_lasts (env : Env) (host? : Option (Host σ)) {n m : Nat} (hle : n ≤ m) (ln : Lane)
    (symbol : Symbol) (args : List Value) (h : σ) :
    ln.seenRun env host? n symbol args h <+: ln.seenRun env host? m symbol args h := by
  obtain ⟨hseen, hend⟩ := invoke_lasts env hle ln symbol args
  unfold seenRun
  cases hinvoke : ln.invoke env n symbol args with
  | none =>
      rw [List.append_nil]
      exact hseen.trans (List.prefix_append _ _)
  | some y =>
      obtain ⟨hmore, hsame⟩ := hend y hinvoke
      rw [hmore, hsame]
      exact (List.prefix_append_right_inj _).mpr (seenServe_lasts env host? hle _ _ h)

end Lane

end WasmShader.Execution
