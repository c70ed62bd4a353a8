import WasmShader.Proofs.Invocations

/-!
# What the dispatcher looks at

In front of a block the dispatcher looks at words of the stack: at the trap code, at the stack
pointer, and at the number on top. They say whether it stops, and looking changes no word. So the
lane that a dispatcher has left is one that it leaves again at once.
-/

namespace WasmShader.Execution

open Emit Compile
open Shader (Stmt Expr StmtsLawful)

/-- A word of the stack, by its place in the buffer. -/
def Lane.read (ln : Lane) (idx : UInt32) : Except Stop UInt32 := do
  let (r, i) ← ln.locate stackBuffer idx
  return (ln.words r).getD i 0

/-- The number on top of the stack is that of a host function. -/
def Lane.pollTop (ln : Lane) (sp : UInt32) : Except Stop Bool := do
  let top ← ln.read (ln.base .stack + 2 + sp + 0xffffffff)
  return BlockId.hostBit ≤ top

/-- The stack is empty, or on top of it is the number of a host function. -/
def Lane.pollStack (ln : Lane) : Except Stop Bool := do
  let sp ← ln.read (ln.base .stack)
  if sp = 0 then return true else ln.pollTop sp

/-- Whether the dispatcher stops in front of the next block. -/
def Lane.poll (ln : Lane) : Except Stop Bool := do
  let trap ← ln.read (ln.base .stack + 1)
  if trap ≠ 0 then return true else ln.pollStack

/-- What the dispatcher does before it runs a block. -/
def looking : List Stmt :=
  [stopIf (Expr.isNonzero (.load stackBuffer trapPlace)),
   readSp,
   stopIf (.binary .eq (.var spVar) (.u32 0)),
   .assign numberVar (.load stackBuffer (dataAt 0xffffffff)),
   stopIf (.binary .ge (.var numberVar) (.u32 BlockId.hostBit))]

/-- The statement that runs the block with the number. -/
def running (blocks : List (BlockId × String)) : Stmt :=
  .switch (.var numberVar) (blocks.map fun (id, name) => Shader.Case.mk [id.val] [callOnly name])
    (trapStmts .invalidBlock)

theorem body_dispatcher (blocks : List (BlockId × String)) :
    (dispatcher blocks).body = [.loop dispatchLabel (looking ++ [running blocks])] := rfl

section Looking

open Exec

variable {env : Env} {d : Pair} {s : State} {sp number : Datum}

/-- The dispatcher is running: the bases are found, and it has two variables. -/
structure Polling (d : Pair) (s : State) (sp number : Datum) : Prop where
  twin : Twin d s s
  vars : s.vars = [(numberVar, number), (spVar, sp)]

theorem Polling.withVars (h : Polling d s sp number) (sp' number' : Datum) :
    Polling d { s with vars := [(numberVar, number'), (spVar, sp')] } sp' number' where
  twin := h.twin.withVars (by
    intro v hv
    simp only [List.mem_cons, List.not_mem_nil, or_false] at hv
    rcases hv with rfl | rfl
    · exact (by decide : numberVar ∉ baseNames)
    · exact (by decide : spVar ∉ baseNames))
  vars := rfl

theorem Twin.eval_base {t : State} (h : Twin d s t) (l : Layout) {name : String} {v : UInt32}
    (hname : name ∈ baseNames) (hbase : (d.bases d.index).lookup name = some (.ofU32 v)) :
    Execution.eval l s (.var name) = .ok (.ofU32 v) := by
  have hvars : s.vars.lookup name = none :=
    lookup_eq_none fun v hv hv' => h.clear v hv (hv' ▸ hname)
  rw [Execution.eval, State.lookup, hvars, h.bases, hbase]

theorem Twin.eval_header {t : State} (h : Twin d s t) (l : Layout) :
    Execution.eval l s (.var headerBase) = .ok (.ofU32 (s.lane.base .stack)) :=
  h.eval_base l (by decide) (by rw [h.base]; rfl)

theorem Twin.eval_data {t : State} (h : Twin d s t) (l : Layout) :
    Execution.eval l s (.var dataBase) = .ok (.ofU32 (s.lane.base .stack + 2)) :=
  h.eval_base l (by decide) (by rw [h.base]; rfl)

theorem eval_read {l : Layout} {place : Expr} {idx : UInt32}
    (h : eval l s place = .ok (.ofU32 idx)) :
    eval l s (.load stackBuffer place) = (s.lane.read idx).map .ofU32 := by
  rw [eval, h]
  change s.load stackBuffer idx = _
  rw [State.load, Lane.read]
  cases s.lane.locate stackBuffer idx <;> rfl

theorem Polling.eval_trap (h : Polling d s sp number) (l : Layout) :
    eval l s (.load stackBuffer trapPlace) = (s.lane.read (s.lane.base .stack + 1)).map .ofU32 :=
  eval_read (eval_offset (h.twin.eval_header l) _)

theorem Polling.eval_sp (h : Polling d s sp number) (l : Layout) :
    eval l s (.load stackBuffer (.var headerBase))
      = (s.lane.read (s.lane.base .stack)).map .ofU32 :=
  eval_read (h.twin.eval_header l)

theorem Polling.eval_top {v : UInt32} (h : Polling d s (.ofU32 v) number) (l : Layout) :
    eval l s (.load stackBuffer (dataAt 0xffffffff))
      = (s.lane.read (s.lane.base .stack + 2 + v + 0xffffffff)).map .ofU32 := by
  refine eval_read (eval_offset (eval_sum (h.twin.eval_data l) ?_) _)
  rw [eval, State.lookup, h.vars]
  rfl

theorem value_error {α : Type} {e : Expr} {stop : Stop} {k : Datum → Exec α}
    (h : eval env.exe.layout s e = .error stop) (a : α) (s' : State) :
    outcome (value env e >>= k) s ≠ some (.ok a, s') := by
  have hvalue : outcome (value env e) s = outcome (Exec.ofExcept (.error stop)) s := by
    rw [← h]
    rfl
  rw [outcome_bind, hvalue]
  intro hok
  obtain ⟨⟨r, s''⟩, hr, hk⟩ := Option.bind_eq_some_iff.mp hok
  obtain ⟨stop', hstop⟩ := error_of_ofExcept hr
  rw [show r = .error stop' from hstop] at hk
  cases hk

theorem outcome_stopIf {cond : Expr} {c : Datum} (h : eval env.exe.layout s cond = .ok c)
    (n : Nat) : outcome (stmt env (n + 3) (stopIf cond)) s
      = some (.ok (if c.truth then .leave dispatchLabel else .next), s) := by
  rw [stopIf, stmt, outcome_bind_ok (outcome_value_ok h)]
  split <;> rfl

theorem outcome_assign_local {name : String} {e : Expr} {v : Datum} {vars : Vars}
    (h : eval env.exe.layout s e = .ok v) (hset : s.vars.set? name v = some vars) (n : Nat) :
    outcome (stmt env (n + 1) (.assign name e)) s = some (.ok .next, { s with vars }) := by
  have hassign : s.assign? name v = some { s with vars } := by rw [State.assign?, hset]
  rw [stmt, outcome_bind_ok (outcome_value_ok h), outcome_bind_ok (outcome_assign hassign)]
  rfl

theorem stmts_of_next {st : Stmt} {rest : List Stmt} {s' : State} {n : Nat}
    (h : outcome (stmt env n st) s = some (.ok .next, s')) :
    outcome (stmts env (n + 1) (st :: rest)) s = outcome (stmts env n rest) s' := by
  rw [outcome_stmts_cons, h]
  rfl

theorem stmts_of_leave {st : Stmt} {rest : List Stmt} {s' : State} {n : Nat} {label : String}
    (h : outcome (stmt env n st) s = some (.ok (.leave label), s')) :
    outcome (stmts env (n + 1) (st :: rest)) s = some (.ok (.leave label), s') := by
  rw [outcome_stmts_cons, h]
  rfl

theorem stmts_of_never {st : Stmt} {rest : List Stmt} {n : Nat}
    (h : ∀ flow s', outcome (stmt env n st) s ≠ some (.ok flow, s')) (flow : Flow) (s' : State) :
    outcome (stmts env (n + 1) (st :: rest)) s ≠ some (.ok flow, s') := by
  intro hok
  rw [outcome_stmts_cons] at hok
  obtain ⟨⟨r, s''⟩, hr, hk⟩ := Option.bind_eq_some_iff.mp hok
  cases r with
  | error e => cases hk
  | ok flow' => exact h flow' s'' hr

/-- What comes of looking, if that is to tell whether to stop: the dispatcher stops or goes on, or it
cannot look. -/
inductive Looked (p : Except Stop Bool) (s : State) (tail : State → Option (Ending Flow)) :
    Option (Ending Flow) → Prop
  | stops {s' : State} : p = .ok true → s'.lane = s.lane → s'.privates = s.privates →
      Looked p s tail (some (.ok (.leave dispatchLabel), s'))
  | goes (sp number : Datum) : p = .ok false →
      Looked p s tail (tail { s with vars := [(numberVar, number), (spVar, sp)] })
  | fails {y : Option (Ending Flow)} : (∀ b, p ≠ .ok b) → (∀ flow s', y ≠ some (.ok flow, s')) →
      Looked p s tail y

theorem Looked.of_vars {p : Except Stop Bool} {vars : Vars}
    {tail : State → Option (Ending Flow)} {y : Option (Ending Flow)}
    (h : Looked p { s with vars } tail y) : Looked p s tail y := by
  cases h with
  | stops hpoll hlane hprivates => exact .stops hpoll hlane hprivates
  | goes sp number hpoll => exact .goes sp number hpoll
  | fails hpoll hnever => exact .fails hpoll hnever

theorem Polling.lookTop {v : UInt32} (h : Polling d s (.ofU32 v) number) (rest : List Stmt)
    (n : Nat) : Looked (s.lane.pollTop v) s (outcome (stmts env (n + 3) rest))
      (outcome (stmts env (n + 5)
        (.assign numberVar (.load stackBuffer (dataAt 0xffffffff))
          :: stopIf (.binary .ge (.var numberVar) (.u32 BlockId.hostBit)) :: rest)) s) := by
  have htop := h.eval_top env.exe.layout
  rw [Lane.pollTop]
  cases hread : s.lane.read (s.lane.base .stack + 2 + v + 0xffffffff) with
  | error e =>
      rw [hread] at htop
      refine .fails nofun (stmts_of_never fun flow s' => ?_)
      rw [stmt]
      exact value_error htop flow s'
  | ok top =>
      rw [hread] at htop
      have hset : s.vars.set? numberVar (.ofU32 top)
          = some [(numberVar, .ofU32 top), (spVar, .ofU32 v)] := by
        rw [h.vars]
        rfl
      rw [stmts_of_next (outcome_assign_local htop hset (n + 3))]
      have hcond : eval env.exe.layout
          { s with vars := [(numberVar, .ofU32 top), (spVar, .ofU32 v)] }
          (.binary .ge (.var numberVar) (.u32 BlockId.hostBit))
            = .ok (.ofBool (BlockId.hostBit ≤ top)) := rfl
      have hstop := outcome_stopIf hcond n
      by_cases hhost : BlockId.hostBit ≤ top
      · rw [decide_eq_true hhost] at hstop
        rw [stmts_of_leave hstop]
        exact .stops (by rw [← decide_eq_true hhost]; rfl) rfl rfl
      · rw [decide_eq_false hhost] at hstop
        rw [stmts_of_next hstop]
        exact .goes _ _ (by rw [← decide_eq_false hhost]; rfl)

theorem Polling.lookStack (h : Polling d s sp number) (rest : List Stmt) (n : Nat) :
    Looked s.lane.pollStack s (outcome (stmts env (n + 3) rest))
      (outcome (stmts env (n + 7)
        (readSp :: stopIf (.binary .eq (.var spVar) (.u32 0))
          :: .assign numberVar (.load stackBuffer (dataAt 0xffffffff))
          :: stopIf (.binary .ge (.var numberVar) (.u32 BlockId.hostBit)) :: rest)) s) := by
  have hsp := h.eval_sp env.exe.layout
  rw [Lane.pollStack]
  cases hread : s.lane.read (s.lane.base .stack) with
  | error e =>
      rw [hread] at hsp
      refine .fails nofun (stmts_of_never fun flow s' => ?_)
      rw [readSp, stmt]
      exact value_error hsp flow s'
  | ok v =>
      rw [hread] at hsp
      have hset : s.vars.set? spVar (.ofU32 v) = some [(numberVar, number), (spVar, .ofU32 v)] := by
        rw [h.vars]
        rfl
      rw [readSp, stmts_of_next (outcome_assign_local hsp hset (n + 5))]
      have hnext := h.withVars (.ofU32 v) number
      have hcond : eval env.exe.layout
          { s with vars := [(numberVar, number), (spVar, .ofU32 v)] }
          (.binary .eq (.var spVar) (.u32 0)) = .ok (.ofBool (v == 0)) := rfl
      have hstop := outcome_stopIf hcond (n + 2)
      by_cases hempty : v = 0
      · subst hempty
        rw [stmts_of_leave hstop]
        exact .stops rfl rfl rfl
      · rw [beq_eq_false_iff_ne.mpr hempty] at hstop
        have hpoll : (do
            let sp ← (Except.ok v : Except Stop UInt32)
            if sp = 0 then return true else s.lane.pollTop sp) = s.lane.pollTop v := if_neg hempty
        rw [stmts_of_next hstop, hpoll]
        exact (hnext.lookTop rest n).of_vars

/-- Looking tells whether the dispatcher stops. -/
theorem Polling.look (h : Polling d s sp number) (env : Env) (rest : List Stmt) (n : Nat) :
    Looked s.lane.poll s (outcome (stmts env (n + 3) rest))
      (outcome (stmts env (n + 8) (looking ++ rest)) s) := by
  have htrap := h.eval_trap env.exe.layout
  rw [Lane.poll, looking, List.cons_append]
  cases hread : s.lane.read (s.lane.base .stack + 1) with
  | error e =>
      rw [hread] at htrap
      refine .fails nofun (stmts_of_never fun flow s' => ?_)
      rw [stopIf, stmt]
      have hcond : eval env.exe.layout s (Expr.isNonzero (.load stackBuffer trapPlace))
          = .error e := by
        rw [Expr.isNonzero, eval, htrap]
        rfl
      exact value_error hcond flow s'
  | ok trap =>
      rw [hread] at htrap
      have hcond : eval env.exe.layout s (Expr.isNonzero (.load stackBuffer trapPlace))
          = .ok (.ofBool (trap != 0)) := by
        rw [Expr.isNonzero, eval, htrap]
        rfl
      have hstop := outcome_stopIf hcond (n + 4)
      by_cases hzero : trap = 0
      · have hfalse : (trap != 0) = false := bne_eq_false_iff_eq.mpr hzero
        have hpoll : (do
            let trap ← (Except.ok trap : Except Stop UInt32)
            if trap ≠ 0 then return true else s.lane.pollStack) = s.lane.pollStack :=
          if_neg (not_not_intro hzero)
        rw [hfalse] at hstop
        rw [stmts_of_next hstop, hpoll]
        exact h.lookStack rest n
      · have htrue : (trap != 0) = true := bne_iff_ne.mpr hzero
        have hpoll : (do
            let trap ← (Except.ok trap : Except Stop UInt32)
            if trap ≠ 0 then return true else s.lane.pollStack) = .ok true := if_pos hzero
        rw [htrue] at hstop
        rw [stmts_of_leave hstop, hpoll]
        exact .stops rfl rfl rfl

/-! ## Running a block -/

theorem bind_ok {α β : Type} {y : Exec α} {k : α → Exec β} {b : β} {s' : State}
    (h : outcome (y >>= k) s = some (.ok b, s')) :
    ∃ a s₁, outcome y s = some (.ok a, s₁) ∧ outcome (k a) s₁ = some (.ok b, s') := by
  rw [outcome_bind] at h
  obtain ⟨⟨r, s₁⟩, hr, hk⟩ := Option.bind_eq_some_iff.mp h
  cases r with
  | error e => cases hk
  | ok a => exact ⟨a, s₁, hr, hk⟩

theorem throw_ne {α : Type} (e : Stop) (a : α) (s' : State) :
    outcome (throw e : Exec α) s ≠ some (.ok a, s') := by
  intro h
  cases e <;> cases h

/-- A function comes back from its end or from a return. -/
theorem of_resultsOf {f : Shader.Function} {flow : Flow} {got : List Datum} {s' : State}
    (h : outcome (resultsOf f flow) s = some (.ok got, s')) :
    s' = s ∧ (flow = .next ∨ ∃ values, flow = .ret values) := by
  cases flow with
  | ret values =>
      cases h
      exact ⟨rfl, .inr ⟨_, rfl⟩⟩
  | next =>
      rw [resultsOf] at h
      split at h
      · cases h
        exact ⟨rfl, .inl rfl⟩
      · exact absurd h (throw_ne _ _ _)
  | leave label | again label => exact absurd h (throw_ne _ _ _)

/-- A function that comes back has run its body to its end or to a return, and leaves the variables of
its caller as they were. -/
theorem ok_of_call {n : Nat} {f : Shader.Function} {args got : List Datum} {s' : State}
    (h : outcome (call env n f args) s = some (.ok got, s')) :
    ∃ m flow s₁, outcome (stmts env m f.body) { s with vars := frame f args } = some (.ok flow, s₁)
      ∧ s' = { s₁ with vars := s.vars } ∧ (flow = .next ∨ ∃ values, flow = .ret values) := by
  cases n with
  | zero => exact absurd h (throw_ne _ _ _)
  | succ n =>
      by_cases hlen : args.length = f.params.length
      · rw [outcome_call n hlen] at h
        obtain ⟨flow, s₁, hbody, h⟩ := bind_ok h
        obtain ⟨_, s₂, hset, h⟩ := bind_ok h
        cases hset
        exact ⟨n, flow, s₁, hbody, of_resultsOf h⟩
      · rw [call, if_pos hlen] at h
        obtain ⟨_, s₁, hthrow, -⟩ := bind_ok h
        exact absurd hthrow (throw_ne _ _ _)

theorem eq_of_modify {change : State → State} {u : PUnit} {s' : State}
    (h : outcome (modify change : Exec PUnit) s = some (.ok u, s')) : s' = change s := by
  cases h
  rfl

theorem eq_of_checkCancelled {u : Unit} {s' : State}
    (h : outcome (checkCancelled env) s = some (.ok u, s')) : s' = s := by
  unfold checkCancelled at h
  split at h
  · exact absurd h (throw_ne _ _ _)
  · cases h
    rfl

theorem vars_of_dispatch {id : BlockId} {u : Unit} {s' : State}
    (h : outcome (dispatch env id) s = some (.ok u, s')) : s'.vars = s.vars := by
  unfold dispatch at h
  obtain ⟨_, s₁, hcheck, h⟩ := bind_ok h
  obtain ⟨_, s₂, hcount, h⟩ := bind_ok h
  obtain ⟨s₃, s₄, hget, h⟩ := bind_ok h
  have hvars : s₄.vars = s.vars := by
    cases hget
    rw [eq_of_modify hcount, eq_of_checkCancelled hcheck]
  rw [← hvars]
  dsimp only at h
  split at h
  · obtain ⟨_, s₅, hthrow, -⟩ := bind_ok h
    exact absurd hthrow (throw_ne _ _ _)
  · split at h
    · rw [eq_of_modify h]
    · cases h
      rfl

/-- A call without arguments and results goes on behind it, with the variables as they were. If the
function is none of a block, nothing is done but to run it. -/
theorem ok_of_callOnly {n : Nat} {name : String} {flow : Flow} {s' : State}
    (h : outcome (stmt env n (callOnly name)) s = some (.ok flow, s')) :
    flow = .next ∧ s'.vars = s.vars ∧ ∃ f, env.exe.module.function? name = some f
      ∧ (env.exe.blockNamed? name = none →
        ∃ m got, outcome (call env m f []) s = some (.ok got, s')) := by
  cases n with
  | zero => exact absurd h (throw_ne _ _ _)
  | succ n =>
      rw [callOnly, stmt] at h
      split at h
      · exact absurd h (throw_ne _ _ _)
      · next f hf =>
        have hrest {s₁ : State} (h : outcome (do
            let vs ← values env []
            let got ← call env n f vs
            if got.length ≠ ([] : List String).length then
              fault (name ++ " returned " ++ toString got.length ++ " values, want "
                ++ toString ([] : List String).length)
            assignAll [] got
            return Flow.next) s₁ = some (.ok flow, s')) :
            flow = .next ∧ ∃ got, outcome (call env n f []) s₁ = some (.ok got, s') := by
          obtain ⟨vs, s₂, hvalues, h⟩ := bind_ok h
          obtain ⟨got, s₃, hcall, h⟩ := bind_ok h
          have hcall : outcome (call env n f []) s₁ = some (.ok got, s₃) := by
            cases hvalues
            exact hcall
          dsimp only at h
          split at h
          · obtain ⟨_, s₄, hthrow, -⟩ := bind_ok h
            exact absurd hthrow (throw_ne _ _ _)
          · obtain ⟨_, s₄, hassign, h⟩ := bind_ok h
            cases hassign
            cases h
            exact ⟨rfl, got, hcall⟩
        split at h
        · next id hid =>
          obtain ⟨_, s₁, hdispatch, h⟩ := bind_ok h
          obtain ⟨rfl, got, hcall⟩ := hrest h
          obtain ⟨-, -, s₂, -, heq, -⟩ := ok_of_call hcall
          have hvars : s'.vars = s.vars := by
            rw [heq, ← vars_of_dispatch hdispatch]
          refine ⟨rfl, hvars, f, hf, fun hnone => ?_⟩
          rw [hid] at hnone
          cases hnone
        · obtain ⟨rfl, got, hcall⟩ := hrest h
          obtain ⟨-, -, s₂, -, heq, -⟩ := ok_of_call hcall
          exact ⟨rfl, by rw [heq], f, hf, fun _ => ⟨n, got, hcall⟩⟩

theorem of_value {e : Expr} {v : Datum} {s' : State}
    (h : outcome (value env e) s = some (.ok v, s')) : eval env.exe.layout s e = .ok v ∧ s' = s := by
  have hvalue : outcome (value env e) s = outcome (Exec.ofExcept (eval env.exe.layout s e)) s := rfl
  rw [hvalue] at h
  cases heval : eval env.exe.layout s e with
  | ok d =>
      rw [heval] at h
      cases h
      exact ⟨rfl, rfl⟩
  | error stop =>
      rw [heval] at h
      obtain ⟨stop', hstop⟩ := error_of_ofExcept h
      cases hstop

theorem ok_of_singleton {n : Nat} {st : Stmt} {flow : Flow} {s' : State}
    (h : outcome (stmts env n [st]) s = some (.ok flow, s')) :
    ∃ m, outcome (stmt env m st) s = some (.ok flow, s') := by
  cases n with
  | zero => exact absurd h (throw_ne _ _ _)
  | succ n =>
      rw [outcome_stmts_cons] at h
      obtain ⟨⟨r, s₁⟩, hr, hk⟩ := Option.bind_eq_some_iff.mp h
      refine ⟨n, hr.trans ?_⟩
      cases r with
      | error e => cases hk
      | ok flow' =>
          cases flow' with
          | next =>
              cases n with
              | zero =>
                  have hnil : outcome (stmts env 0 []) s₁ = some (.ok flow, s') := hk
                  rw [stmts_zero] at hnil
                  exact absurd hnil (throw_ne _ _ _)
              | succ n => exact hk
          | _ => exact hk

theorem ok_of_cons {n : Nat} {st : Stmt} {rest : List Stmt} {flow : Flow} {s' : State}
    (h : outcome (stmts env n (st :: rest)) s = some (.ok flow, s')) :
    ∃ m flow₁ s₁, outcome (stmt env m st) s = some (.ok flow₁, s₁)
      ∧ (flow₁ = .next → outcome (stmts env m rest) s₁ = some (.ok flow, s')) := by
  cases n with
  | zero => exact absurd h (throw_ne _ _ _)
  | succ n =>
      rw [outcome_stmts_cons] at h
      obtain ⟨⟨r, s₁⟩, hr, hk⟩ := Option.bind_eq_some_iff.mp h
      cases r with
      | error e => cases hk
      | ok flow₁ => exact ⟨n, flow₁, s₁, hr, fun hnext => by rw [hnext] at hk; exact hk⟩

/-- A block that comes back does so without a jump. -/
theorem next_of_running {n : Nat} {blocks : List (BlockId × String)} {flow : Flow} {s' : State}
    (h : outcome (stmts env n [running blocks]) s = some (.ok flow, s')) :
    flow = .next ∧ s'.vars = s.vars := by
  obtain ⟨m, h⟩ := ok_of_singleton h
  cases m with
  | zero => exact absurd h (throw_ne _ _ _)
  | succ m =>
      rw [running, stmt] at h
      obtain ⟨v, s₁, hvalue, h⟩ := bind_ok h
      rw [(of_value hvalue).2] at h
      split at h
      · next c hc =>
        obtain ⟨b, -, rfl⟩ := List.mem_map.mp (List.mem_of_find?_eq_some hc)
        obtain ⟨k, h⟩ := ok_of_singleton h
        exact (ok_of_callOnly h).imp id And.left
      · obtain ⟨k, h⟩ := ok_of_singleton h
        cases k with
        | zero => exact absurd h (throw_ne _ _ _)
        | succ k => cases h

/-! ## The loop of the dispatcher -/

theorem Twin.of_run {α : Type} {y : Exec α} (hy : Lockstep d y y) (h : Twin d s s)
    {r : Except Stop α} {s' : State} (hrun : outcome y s = some (r, s')) : Twin d s' s' := by
  have hrel := hy s s h
  rw [hrun] at hrel
  cases hrel with
  | some hended => exact hended.2

theorem Twin.matches (h : Twin d s s) : d.Matches := .inl (h.index.symm.trans h.index')

/-- The dispatcher leaves its loop where it stops. -/
theorem Polling.loop_ends {blocks : List (BlockId × String)} {P : Shader.CallSite → Prop}
    {W : String → Prop} (hwritable : Writable d W) (hlawful : Lawful env.exe.module P W)
    (hblocks : (dispatcher blocks).Lawful P W) {n : Nat} {flow : Flow} {s' : State}
    (h : Polling d s sp number)
    (hloop : outcome (loop env n dispatchLabel (looking ++ [running blocks])) s
      = some (.ok flow, s')) : s'.lane.poll = .ok true ∧ Twin d s' s' := by
  have hround : StmtsLawful P W (looking ++ [running blocks]) := by
    have hbody := hblocks.body
    rw [body_dispatcher, StmtsLawful, Stmt.Lawful] at hbody
    exact hbody.1
  induction n generalizing s sp number with
  | zero => exact absurd hloop (throw_ne _ _ _)
  | succ n ih =>
      rw [loop] at hloop
      obtain ⟨flow₁, s₁, hrun, hloop⟩ := bind_ok hloop
      have htwin := h.twin.of_run ((lockstep_run h.twin.matches hwritable hlawful n).1 _ hround) hrun
      have hmore : outcome (stmts env (n + 8) (looking ++ [running blocks])) s
          = some (.ok flow₁, s₁) :=
        (growing_stmts env _).le (Nat.le_add_right n 8) s _ hrun
      have hlook := h.look env [running blocks] n
      generalize hy : outcome (stmts env (n + 8) (looking ++ [running blocks])) s = y at hlook
      rw [hmore] at hy
      cases hlook with
      | stops hpoll hlane hprivates =>
          cases hy
          dsimp only at hloop
          rw [if_pos rfl] at hloop
          cases hloop
          exact ⟨hlane ▸ hpoll, htwin⟩
      | goes sp' number' _ =>
          obtain ⟨rfl, hvars⟩ := next_of_running hy.symm
          obtain ⟨_, s₂, hcheck, hloop⟩ := bind_ok hloop
          rw [eq_of_checkCancelled hcheck] at hloop
          exact ih ⟨htwin, hvars⟩ hloop
      | fails _ hnever => exact absurd hy.symm (hnever _ _)

/-- A dispatcher that is to stop does so at once. -/
theorem Polling.loop_stops (env : Env) (blocks : List (BlockId × String))
    (h : Polling d s sp number)
    (hpoll : s.lane.poll = .ok true) (n : Nat) :
    ∃ s', outcome (loop env (n + 9) dispatchLabel (looking ++ [running blocks])) s
      = some (.ok .next, s') ∧ s'.lane = s.lane ∧ s'.privates = s.privates := by
  have hlook := h.look env [running blocks] n
  generalize hy : outcome (stmts env (n + 8) (looking ++ [running blocks])) s = y at hlook
  cases hlook with
  | stops _ hlane hprivates =>
      refine ⟨_, ?_, hlane, hprivates⟩
      rw [loop, outcome_bind_ok hy]
      rfl
  | goes sp' number' hgoes =>
      rw [hpoll] at hgoes
      cases hgoes
  | fails hnone _ => exact absurd hpoll (hnone true)

end Looking

end WasmShader.Execution
