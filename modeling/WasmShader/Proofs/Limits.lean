import WasmShader.Proofs.RunMeanings
import WasmShader.Proofs.StepLimit

/-!
# Runs without limits

A run of a lane has two limits: the blocks that it may run, and the patience of its caller. All that
they do is to end a run early, with a failure that says which of the two it was. A run that ends in
another way is the run without limits (`Exec.upTo_call`, `Lane.enter_unlimited`).
-/

namespace WasmShader.Execution

open Shader

variable {α β : Type} {env : Env}

/-- The same settings without limits. -/
def Env.unlimited (env : Env) : Env := { env with maxSteps := 0, cancelled := false }

/-- The failure of a run that has reached a limit. -/
inductive Env.Limits (env : Env) : Failure → Prop
  | cancelled : env.cancelled = true → Limits env (.plain "context canceled")
  | steps (lane : Nat) : 0 < env.maxSteps → Limits env (stepLimitReached lane env.maxSteps)

/-- A run has ended at a limit. -/
def Env.CutsOff (env : Env) : Ending α → Prop
  | (.error (.abort (.failed e)), _) => env.Limits e
  | _ => False

namespace Exec

/-- The first computation comes to what the second does, or ends at a limit. -/
def UpTo (env : Env) (x y : Exec α) : Prop :=
  ∀ s r, outcome x s = some r → outcome y s = some r ∨ env.CutsOff r

theorem UpTo.refl (x : Exec α) : UpTo env x x := fun _ _ h => .inl h

theorem UpTo.bind {x y : Exec α} {f g : α → Exec β} (hxy : UpTo env x y)
    (hfg : ∀ a, UpTo env (f a) (g a)) : UpTo env (x >>= f) (y >>= g) := by
  intro s r h
  rw [outcome_bind] at h ⊢
  obtain ⟨⟨ra, s'⟩, hx, hf⟩ := Option.bind_eq_some_iff.mp h
  rcases hxy s _ hx with hy | hcut
  · rw [hy]
    cases ra with
    | ok a => exact hfg a s' r hf
    | error e => exact .inl hf
  · cases ra with
    | ok a => exact hcut.elim
    | error e =>
        cases hf
        cases e with
        | abort cause =>
            cases cause with
            | failed e => exact .inr hcut
            | crashed message => exact hcut.elim
        | trap code => exact hcut.elim
        | outOfFuel => exact hcut.elim

theorem upTo_checkCancelled (env : Env) :
    UpTo env (checkCancelled env) (checkCancelled env.unlimited) := by
  intro s r h
  cases hcancelled : env.cancelled with
  | true =>
      rw [checkCancelled, hcancelled] at h
      cases h
      exact .inr (.cancelled hcancelled)
  | false =>
      rw [checkCancelled, hcancelled] at h
      exact .inl h

theorem upTo_dispatch (env : Env) (id : BlockId) :
    UpTo env (dispatch env id) (dispatch env.unlimited id) := by
  refine (upTo_checkCancelled env).bind fun _ => (UpTo.refl _).bind fun _ => (UpTo.refl _).bind
    fun s => ?_
  intro t r h
  dsimp only at h ⊢
  by_cases hmany : (0 < env.maxSteps && env.maxSteps < s.lane.steps) = true
  · rw [if_pos hmany] at h
    cases h
    rw [Bool.and_eq_true, decide_eq_true_eq] at hmany
    exact .inr (.steps _ hmany.1)
  · rw [if_neg hmany] at h
    exact .inl h

/-- Limits do nothing to the steps of a run but end it. -/
theorem preserved_upTo (env : Env) :
    Preserved bare bare env env.unlimited 0 (fun (_ : Unit) _ => True) (fun _ _ => True)
      (fun _ {_} => UpTo env) :=
  Composes.preserved
    { exe := rfl
      part := fun _ _ _ _ => trivial
      body := fun _ _ _ => trivial
      pure := fun _ => .refl _
      bind := UpTo.bind
      outOfFuel := fun y hy => by
        rw [hy rfl]
        exact .refl _
      reached := .refl _
      checkCancelled := upTo_checkCancelled env
      dispatch := fun _ _ => upTo_dispatch env _
      called := fun _ _ => ⟨(), trivial, fun _ _ => id⟩ }
    fun _ => .refl _

/-- Limits do nothing to a call but end it. -/
theorem upTo_call (env : Env) (n : Nat) (f : Shader.Function) (args : List Datum) :
    UpTo env (call env n f args) (call env.unlimited n f args) :=
  ((preserved_upTo env).run_bare n ()).2.2.2 f args trivial

end Exec

/-- The run of an entry point ends at a limit, or as without limits. -/
theorem Lane.enter_unlimited (hx : Runnable env.exe) {name : String} {f : Shader.Function}
    (hf : env.exe.module.function? name = some f) {n : Nat} {ln : Lane}
    {y : Except Abort Outcome × Lane} (h : ln.enter env n name = some y) :
    ln.enter env.unlimited n name = some y ∨ ∃ e, env.Limits e ∧ y.1 = .error (.failed e) := by
  have hx' : Runnable env.unlimited.exe := hx
  have hf' : env.unlimited.exe.module.function? name = some f := hf
  rw [enter_eq hx hf] at h
  rw [enter_eq hx' hf']
  obtain ⟨⟨r, s⟩, hr, hleave⟩ := Option.bind_eq_some_iff.mp h
  rcases Exec.upTo_call env n f [] ln.entering _ hr with hsame | hcut
  · exact .inl (Option.bind_eq_some_iff.mpr ⟨_, hsame, hleave⟩)
  · cases r with
    | ok a => exact hcut.elim
    | error stop =>
        cases stop with
        | trap code => exact hcut.elim
        | outOfFuel => exact hcut.elim
        | abort cause =>
            cases cause with
            | crashed message => exact hcut.elim
            | failed e =>
                cases hleave
                exact .inr ⟨e, hcut, rfl⟩

end WasmShader.Execution
