import WasmShader.Proofs.Watching
import WasmShader.Proofs.Meaning

/-!
# What operations of lanes come to

A run of a lane has a limit on its evaluation, and without it comes to what the code of the entry point
comes to (`Lane.eventual_enter`). A host that serves an invocation answers one request after the other,
and what the invocation comes to is what these rounds come to (`Lane.eventual_run`).
-/

namespace WasmShader

section Eventually

variable {α β : Type}

theorem eventual_const (x : Option α) : eventual (fun _ => x) = x :=
  Option.ext fun _ => (eventual_eq_some_iff fun _ _ => id).trans (exists_const _)

theorem Settles.bind {x : Nat → Option α} {f : Nat → α → Option β} (hx : Settles x)
    (hf : ∀ a, Settles fun n => f n a) : Settles fun n => (x n).bind (f n) := by
  intro n b hb
  obtain ⟨a, ha, hb⟩ := Option.bind_eq_some_iff.mp hb
  exact Option.bind_eq_some_iff.mpr ⟨a, hx n a ha, hf a n b hb⟩

theorem eventual_bind {x : Nat → Option α} {f : Nat → α → Option β} (hx : Settles x)
    (hf : ∀ a, Settles fun n => f n a) :
    eventual (fun n => (x n).bind (f n)) = (eventual x).bind fun a => eventual fun n => f n a := by
  refine Option.ext fun b => ?_
  rw [eventual_eq_some_iff (hx.bind hf), Option.bind_eq_some_iff]
  constructor
  · rintro ⟨n, hn⟩
    obtain ⟨a, ha, hb⟩ := Option.bind_eq_some_iff.mp hn
    exact ⟨a, (eventual_eq_some_iff hx).mpr ⟨n, ha⟩, (eventual_eq_some_iff (hf a)).mpr ⟨n, hb⟩⟩
  · rintro ⟨a, ha, hb⟩
    obtain ⟨n, hn⟩ := (eventual_eq_some_iff hx).mp ha
    obtain ⟨m, hm⟩ := (eventual_eq_some_iff (hf a)).mp hb
    exact ⟨max n m, Option.bind_eq_some_iff.mpr
      ⟨a, hx.le (Nat.le_max_left n m) hn, (hf a).le (Nat.le_max_right n m) hm⟩⟩

end Eventually

namespace Execution.Lane

open Compile (Executable)

variable {σ : Type} {env : Env} {host : Host σ} {ln ln' : Lane} {h h' : σ}

/-! ## Entry points -/

theorem settles_enter (env : Env) (ln : Lane) (name : String) :
    Settles fun n => ln.enter env n name :=
  fun n y hy => ((enter_lasts env n.le_succ ln name).2 y hy).1

theorem settles_resume (env : Env) (ln : Lane) : Settles fun n => ln.resume env n :=
  fun n y hy => ((resume_lasts env n.le_succ ln).2 y hy).1

theorem settles_invoke (env : Env) (ln : Lane) (symbol : Symbol) (args : List Value) :
    Settles fun n => ln.invoke env n symbol args :=
  fun n y hy => ((invoke_lasts env n.le_succ ln symbol args).2 y hy).1

/-- A run of an entry point comes to what its code comes to. -/
theorem eventual_enter (hx : Runnable env.exe) {name : String} {f : Shader.Function}
    (hf : env.exe.module.function? name = some f) (ln : Lane) :
    eventual (fun n => ln.enter env n name)
      = (callMeaning env f [] ln.entering).bind (leaveWith env.exe) := by
  rw [show (fun n => ln.enter env n name) = fun n =>
    (Exec.outcome (Exec.call env n f []) ln.entering).bind (leaveWith env.exe) from
      funext fun n => enter_eq hx hf n ln]
  rw [eventual_bind (fun n r => Exec.growing_call env f [] n ln.entering r) fun _ _ _ => id]
  exact congrArg _ (funext fun _ => eventual_const _)

/-! ## Serving -/

/-- Has a request of the lane answered. -/
def ask (x : Executable) (host : Host σ) (p : Pending) (ln : Lane) (h : σ) :
    Except Abort Unit × Lane × σ :=
  match host.call h ln.index p.func p.args with
  | (.error e, h) => (Failure.raise (.wrap .runtime .host e p.func.name), ln.abandon, h)
  | (.ok results, h) => ((ln.complete x p results).1, (ln.complete x p results).2, h)

/-- Goes on behind an answer. -/
def behindAnswer (env : Env) (host : Host σ) (name : String) (n : Nat) :
    Except Abort Unit × Lane × σ → Option (Except Abort (List Value) × Lane × σ)
  | (.error e, ln, h) => some (.error e, ln, h)
  | (.ok _, ln, h) => (ln.resume env n).bind fun y => serve env (some host) name n y.1 y.2 h

theorem serve_yielded (name : String) (n : Nat) (p : Pending) (steps : Nat) (ln : Lane) (h : σ) :
    serve env (some host) name (n + 1) (.ok (.yielded p steps)) ln h
      = behindAnswer env host name n (ask env.exe host p ln h) := by
  rw [serve, ask]
  generalize host.call h ln.index p.func p.args = answer
  obtain ⟨answer, h'⟩ := answer
  cases answer with
  | error e => rfl
  | ok results =>
      dsimp only
      generalize ln.complete env.exe p results = completed
      obtain ⟨completed, ln'⟩ := completed
      cases completed <;> rfl

/-- A request is answered, and the invocation goes on up to the next. -/
noncomputable def serveRound (env : Env) (host : Host σ) :
    Except Abort Outcome × Lane × σ →
      Option ((Except Abort Outcome × Lane × σ) ⊕ (Except Abort (List Value) × Lane × σ))
  | (.error e, ln, h) => some (.inr (.error e, ln, h))
  | (.ok (.finished values _), ln, h) => some (.inr (.ok values, ln, h))
  | (.ok (.yielded p _), ln, h) =>
    match ask env.exe host p ln h with
    | (.error e, ln, h) => some (.inr (.error e, ln, h))
    | (.ok _, ln, h) => (eventual fun n => ln.resume env n).map fun y => .inl (y.1, y.2, h)

theorem settles_serve (env : Env) (host : Host σ) (name : String) (r : Except Abort Outcome)
    (ln : Lane) (h : σ) : Settles fun n => serve env (some host) name n r ln h := by
  intro n y hy
  dsimp only at hy ⊢
  induction n generalizing r ln h with
  | zero => cases hy
  | succ n ih =>
      cases r with
      | error e => exact hy
      | ok o =>
          cases o with
          | finished values steps => exact hy
          | yielded p steps =>
              rw [serve_yielded] at hy ⊢
              generalize ask env.exe host p ln h = asked at hy
              obtain ⟨r, ln', h'⟩ := asked
              cases r with
              | error e => exact hy
              | ok u =>
                  obtain ⟨x, hx, hy⟩ := Option.bind_eq_some_iff.mp hy
                  exact Option.bind_eq_some_iff.mpr
                    ⟨x, settles_resume env ln' n x hx, ih _ _ _ hy⟩

/-- What a host that serves comes to is what the rounds come to. -/
theorem eventual_serve (name : String) (r : Except Abort Outcome) (ln : Lane) (h : σ) :
    eventual (fun n => serve env (some host) name n r ln h)
      = untilDone (serveRound env host) (r, ln, h) := by
  refine Option.ext fun y => ?_
  rw [eventual_eq_some_iff (settles_serve env host name r ln h)]
  constructor
  · rintro ⟨n, hn⟩
    induction n generalizing r ln h with
    | zero => cases hn
    | succ n ih =>
        cases r with
        | error e =>
            cases hn
            exact untilDone_of_done rfl
        | ok o =>
            cases o with
            | finished values steps =>
                cases hn
                exact untilDone_of_done rfl
            | yielded p steps =>
                rw [serve_yielded] at hn
                rw [untilDone_eq, serveRound]
                generalize ask env.exe host p ln h = asked at hn ⊢
                obtain ⟨r, ln', h'⟩ := asked
                cases r with
                | error e =>
                    cases hn
                    rfl
                | ok u =>
                    obtain ⟨x, hx, hn⟩ := Option.bind_eq_some_iff.mp hn
                    dsimp only
                    rw [(eventual_eq_some_iff (settles_resume env ln')).mpr ⟨n, hx⟩]
                    exact ih _ _ _ hn
  · intro hy
    obtain ⟨n, hn⟩ := untilDone_eq_some_iff.mp hy
    clear hy
    induction n generalizing r ln h with
    | zero => cases hn
    | succ n ih =>
        cases r with
        | error e =>
            cases hn
            exact ⟨1, rfl⟩
        | ok o =>
            cases o with
            | finished values steps =>
                cases hn
                exact ⟨1, rfl⟩
            | yielded p steps =>
                rw [within_succ_eq, serveRound] at hn
                suffices hsome : ∃ m, behindAnswer env host name m (ask env.exe host p ln h) = some y by
                  obtain ⟨m, hm⟩ := hsome
                  exact ⟨m + 1, (serve_yielded name m p steps ln h).trans hm⟩
                generalize ask env.exe host p ln h = asked at hn ⊢
                obtain ⟨r, ln', h'⟩ := asked
                cases r with
                | error e =>
                    cases hn
                    exact ⟨0, rfl⟩
                | ok u =>
                    obtain ⟨z, hz, hn⟩ := Option.bind_eq_some_iff.mp hn
                    obtain ⟨x, hx, rfl⟩ := Option.map_eq_some_iff.mp hz
                    obtain ⟨k, hk⟩ := (eventual_eq_some_iff (settles_resume env ln')).mp hx
                    obtain ⟨m, hm⟩ := ih _ _ _ hn
                    exact ⟨max k m, Option.bind_eq_some_iff.mpr
                      ⟨x, (settles_resume env ln').le (Nat.le_max_left k m) hk,
                        (settles_serve env host name _ _ _).le (Nat.le_max_right k m) hm⟩⟩

/-- An invocation with a host comes to what its start and the rounds behind it come to. -/
theorem eventual_run (ln : Lane) (symbol : Symbol) (args : List Value) (h : σ) :
    eventual (fun n => ln.run env (some host) n symbol args h)
      = (eventual fun n => ln.invoke env n symbol args).bind fun y =>
        untilDone (serveRound env host) (y.1, y.2, h) := by
  change eventual (fun n => (ln.invoke env n symbol args).bind fun y =>
    serve env (some host) symbol.text n y.1 y.2 h) = _
  rw [eventual_bind (settles_invoke env ln symbol args) fun y => settles_serve env host _ _ _ _]
  exact congrArg _ (funext fun y => eventual_serve _ _ _ _)

end Execution.Lane

end WasmShader
