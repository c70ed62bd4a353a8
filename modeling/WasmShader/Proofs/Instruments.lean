import WasmShader.Execution.Exec

/-!
# Runs with instruments

An instrument says what goes on around the steps of a run: it may note the states that are gone
through, or be asked before a function is entered. Without one a run is the run (`bare_run`).

Runs with two instruments are compared by what their steps have in common. Relations that are kept
by sequencing, and that hold of the steps of all code that may run, hold of every run of such code
(`Sustained.run`). What may run can depend on how it was come to, so it is said of a world, and a call
may lead to another one. Most relations are said of all computations alike and hold of any two steps
that are the same; for these little is left to show (`Composes.preserved`).
-/

namespace WasmShader

namespace Shader

/-- The lists of statements that a statement has. -/
def Stmt.parts : Stmt → List (List Stmt)
  | .ifElse _ body alternative => [body, alternative]
  | .block _ body | .loop _ body => [body]
  | .switch _ cases fallback => cases.map Case.body ++ [fallback]
  | .assign _ _ | .store _ _ _ | .leave _ | .again _ | .ret _ | .call _ _ _ | .trap _ | .absent => []

/-- The expression whose value decides which part of a statement runs. -/
def Stmt.test? : Stmt → Option Expr
  | .ifElse cond _ _ => some cond
  | .switch selector _ _ => some selector
  | _ => none

/-- The statement runs nothing but itself. -/
def Stmt.isSimple : Stmt → Bool
  | .assign _ _ | .store _ _ _ | .leave _ | .again _ | .ret _ | .trap _ | .absent => true
  | .ifElse _ _ _ | .block _ _ | .loop _ _ | .switch _ _ _ | .call _ _ _ => false

end Shader

namespace Execution

open Shader

/-! ## The interpreter -/

/-- What goes on around the steps of a run. -/
structure Instrument (m : Type → Type) where
  /-- A step of a run. -/
  lift {α : Type} : Exec α → m α
  /-- What is done in front of a statement. -/
  reached : m Unit
  /-- Accounts for a block that is about to run. -/
  dispatch : Env → BlockId → m Unit
  /-- What is done around the run of a function that is called by its name. -/
  called {α : Type} : String → m α → m α

namespace Exec

/-- Checks the arguments of a function and gives it variables of its own. Returns the caller's. -/
def openFrame (f : Shader.Function) (args : List Datum) : Exec Vars := do
  if args.length ≠ f.params.length then
    fault (f.name ++ ": " ++ toString args.length ++ " arguments, want "
      ++ toString f.params.length)
  let outer := (← get).vars
  modify fun s => { s with vars := frame f args }
  return outer

/-- Gives the caller its variables back. -/
def closeFrame (f : Shader.Function) (outer : Vars) (flow : Flow) : Exec (List Datum) := do
  modify fun s => { s with vars := outer }
  resultsOf f flow

/-- Takes what a called function returned. -/
def receive (name : String) (results : List String) (got : List Datum) : Exec Unit := do
  if got.length ≠ results.length then
    fault (name ++ " returned " ++ toString got.length ++ " values, want "
      ++ toString results.length)
  assignAll results got

end Exec

namespace Instrument

variable {m : Type → Type} [Monad m] (I : Instrument m)

/-- The run of the body of a function, from arguments to results. -/
def framed (f : Shader.Function) (args : List Datum) (body : m Flow) : m (List Datum) := do
  let outer ← I.lift (Exec.openFrame f args)
  let flow ← body
  I.lift (Exec.closeFrame f outer flow)

mutual

/-- Runs statements one after the other until one changes the flow. -/
def stmts (env : Env) : (fuel : Nat) → List Stmt → m Flow
  | 0, _ => I.lift (throw .outOfFuel)
  | _ + 1, [] => pure .next
  | fuel + 1, s :: rest => do
    match ← stmt env fuel s with
    | .next => stmts env fuel rest
    | flow => pure flow

/-- Runs a statement. -/
def stmt (env : Env) : (fuel : Nat) → Stmt → m Flow
  | 0, _ => I.lift (throw .outOfFuel)
  | fuel + 1, s => do
    I.reached
    match s with
    | .ifElse cond body alternative => do
      let c ← I.lift (Exec.value env cond)
      if c.truth then stmts env fuel body else stmts env fuel alternative
    | .block label body => do
      match ← stmts env fuel body with
      | .leave l => pure (if l = label then .next else .leave l)
      | flow => pure flow
    | .loop label body => loop env fuel label body
    | .switch selector cases fallback => do
      let v ← I.lift (Exec.value env selector)
      match cases.find? (·.values.contains v.x) with
      | some c => stmts env fuel c.body
      | none => stmts env fuel fallback
    | .call name args results =>
      match env.exe.module.function? name with
      | none => I.lift (Exec.fault ("call to undefined function " ++ Text.quote name))
      | some f => do
        match env.exe.blockNamed? name with
        | some id => I.dispatch env id
        | none => pure ()
        let vs ← I.lift (Exec.values env args)
        let got ← I.called name (call env fuel f vs)
        I.lift (Exec.receive name results got)
        pure .next
    | s => I.lift (Exec.stmt env 1 s)

/-- Runs the body of a loop until it is left. -/
def loop (env : Env) : (fuel : Nat) → String → List Stmt → m Flow
  | 0, _, _ => I.lift (throw .outOfFuel)
  | fuel + 1, label, body => do
    match ← stmts env fuel body with
    | .leave l => if l = label then pure .next else pure (.leave l)
    | .again l =>
      if l = label then do
        I.lift (Exec.checkCancelled env)
        loop env fuel label body
      else pure (.again l)
    | .next => do
      I.lift (Exec.checkCancelled env)
      loop env fuel label body
    | .ret vs => pure (.ret vs)

/-- Runs a function on arguments. -/
def call (env : Env) : (fuel : Nat) → Shader.Function → List Datum → m (List Datum)
  | 0, _, _ => I.lift (throw .outOfFuel)
  | fuel + 1, f, args => I.framed f args (stmts env fuel f.body)

end

theorem stmts_zero (env : Env) (ss : List Stmt) :
    I.stmts env 0 ss = I.lift (throw .outOfFuel) := by
  cases ss <;> rw [stmts]

theorem stmts_nil (env : Env) (fuel : Nat) : I.stmts env (fuel + 1) [] = pure .next := by
  rw [stmts]

theorem stmt_of_isSimple (env : Env) (fuel : Nat) {st : Stmt} (h : st.isSimple) :
    I.stmt env (fuel + 1) st = (do I.reached; I.lift (Exec.stmt env 1 st)) := by
  cases st with
  | ifElse | block | loop | switch | call => cases h
  | _ => simp only [stmt]

end Instrument

/-! ## Steps depend on the executable alone -/

namespace Exec

variable {env env' : Env}

theorem value_congr (h : env'.exe = env.exe) (e : Expr) : value env' e = value env e := by
  simp only [value, h]

theorem values_congr (h : env'.exe = env.exe) (es : List Expr) :
    values env' es = values env es := by
  simp only [values, h]

theorem stmt_congr (h : env'.exe = env.exe) {st : Stmt} (hst : st.isSimple) :
    stmt env' 1 st = stmt env 1 st := by
  cases st with
  | ifElse | block | loop | switch | call => cases hst
  | _ => simp only [stmt, value_congr h, values_congr h]

end Exec

/-! ## Runs without an instrument -/

/-- Nothing goes on around the steps. -/
def bare : Instrument Exec where
  lift x := x
  reached := pure ()
  dispatch := Exec.dispatch
  called _ x := x

namespace Exec

theorem framed_bare (f : Shader.Function) (args : List Datum) (x : Exec Flow) :
    bare.framed f args x = (do
      if args.length ≠ f.params.length then
        fault (f.name ++ ": " ++ toString args.length ++ " arguments, want "
          ++ toString f.params.length)
      let outer := (← get).vars
      modify fun s => { s with vars := frame f args }
      let flow ← x
      modify fun s => { s with vars := outer }
      resultsOf f flow) := by
  rw [Instrument.framed]
  change (openFrame f args >>= fun outer => x >>= fun flow => closeFrame f outer flow) = _
  unfold openFrame
  split
  · rw [bind_assoc]
    rfl
  · rfl

theorem receive_bind (name : String) (results : List String) (got : List Datum) :
    (do receive name results got
        return Flow.next) = (do
      if got.length ≠ results.length then
        fault (name ++ " returned " ++ toString got.length ++ " values, want "
          ++ toString results.length)
      assignAll results got
      return Flow.next) := by
  unfold receive
  split
  · rw [bind_assoc]
  · rfl

end Exec

/-- A run without an instrument is the run. -/
theorem bare_run (env : Env) (n : Nat) :
    (∀ ss, bare.stmts env n ss = Exec.stmts env n ss)
      ∧ (∀ st, bare.stmt env n st = Exec.stmt env n st)
      ∧ (∀ label body, bare.loop env n label body = Exec.loop env n label body)
      ∧ ∀ f args, bare.call env n f args = Exec.call env n f args := by
  induction n with
  | zero =>
      refine ⟨fun ss => ?_, fun st => ?_, fun label body => ?_, fun f args => ?_⟩
      · rw [bare.stmts_zero]
        cases ss <;> rw [Exec.stmts] <;> rfl
      · rw [Instrument.stmt, Exec.stmt]; rfl
      · rw [Instrument.loop, Exec.loop]; rfl
      · rw [Instrument.call, Exec.call]; rfl
  | succ n ih =>
      obtain ⟨ihStmts, ihStmt, ihLoop, ihCall⟩ := ih
      refine ⟨fun ss => ?_, fun st => ?_, fun label body => ?_, fun f args => ?_⟩
      · cases ss with
        | nil => rw [Instrument.stmts, Exec.stmts]
        | cons st rest =>
            rw [Instrument.stmts, Exec.stmts, ihStmt]
            congr 1
            funext flow
            cases flow with
            | next => exact ihStmts rest
            | _ => rfl
      · cases st with
        | ifElse cond body alternative =>
            rw [Instrument.stmt, Exec.stmt, ihStmts, ihStmts]
            rfl
        | block label body =>
            rw [Instrument.stmt, Exec.stmt, ihStmts]
            rfl
        | loop label body =>
            rw [Instrument.stmt, Exec.stmt, ihLoop]
            rfl
        | switch selector cases fallback =>
            rw [Instrument.stmt, Exec.stmt]
            change (Exec.value env selector >>= _) = (Exec.value env selector >>= _)
            congr 1
            funext v
            cases cases.find? (·.values.contains v.x) with
            | some c => exact ihStmts c.body
            | none => exact ihStmts fallback
        | call name args results =>
            rw [Instrument.stmt, Exec.stmt]
            cases env.exe.module.function? name with
            | none => rfl
            | some f =>
                cases env.exe.blockNamed? name with
                | none => simp only [← Exec.receive_bind, ← ihCall]; rfl
                | some id => simp only [← Exec.receive_bind, ← ihCall]; rfl
        | _ =>
            rw [bare.stmt_of_isSimple env n rfl]
            simp only [Exec.stmt]
            rfl
      · rw [Instrument.loop, Exec.loop, ihStmts]
        congr 1
        funext flow
        cases flow with
        | next => simp only [ihLoop]; rfl
        | again l => simp only [ihLoop]; rfl
        | _ => rfl
      · rw [Instrument.call, Exec.call, Exec.framed_bare, ihStmts]

/-! ## Relations that runs keep -/

theorem ite_related {α β : Type} {R : α → β → Prop} {c : Prop} [Decidable c] {x x' : α} {y y' : β}
    (hx : R x y) (hx' : R x' y') : R (if c then x else x') (if c then y else y') := by
  split
  · exact hx
  · exact hx'

section Sustained

variable {m m' : Type → Type} [Monad m] [Monad m'] {World : Type}

/-- A relation between the computations of two instruments holds of what is done around the steps of
a run. It is said for a world, which tells which code may run. -/
structure Around (I : Instrument m) (J : Instrument m') (env env' : Env)
    (may : World → Stmt → Prop) (mayCall : World → Shader.Function → Prop)
    (R : World → ∀ {α : Type}, m α → m' α → Prop) : Prop where
  exe : env'.exe = env.exe
  part {w : World} {st : Stmt} {part : List Stmt} : may w st → part ∈ st.parts →
    ∀ s ∈ part, may w s
  body {w : World} {f : Shader.Function} : mayCall w f → ∀ s ∈ f.body, may w s
  reached {w : World} : R w I.reached J.reached
  checkCancelled {w : World} :
    R w (I.lift (Exec.checkCancelled env)) (J.lift (Exec.checkCancelled env'))
  dispatch {w : World} {name : String} {args : List Expr} {results : List String} {id : BlockId} :
    may w (.call name args results) → env.exe.blockNamed? name = some id →
    R w (I.dispatch env id) (J.dispatch env' id)
  called {w : World} {name : String} {args : List Expr} {results : List String}
    {f : Shader.Function} :
    may w (.call name args results) → env.exe.module.function? name = some f →
    ∃ w', mayCall w' f ∧ ∀ (x : m (List Datum)) (y : m' (List Datum)), R w' x y →
      R w (I.called name x) (J.called name y)

/-- Relations hold of the steps of code that may run: `F` of those that say how control goes on, `R`
of the others. -/
structure Steps (I : Instrument m) (J : Instrument m') (env env' : Env)
    (may : World → Stmt → Prop) (mayCall : World → Shader.Function → Prop)
    (F : World → m Flow → m' Flow → Prop)
    (R : World → ∀ {α : Type}, m α → m' α → Prop) : Prop where
  simple {w : World} {st : Stmt} : may w st → st.isSimple →
    F w (I.lift (Exec.stmt env 1 st)) (J.lift (Exec.stmt env' 1 st))
  test {w : World} {st : Stmt} {e : Expr} : may w st → st.test? = some e →
    R w (I.lift (Exec.value env e)) (J.lift (Exec.value env' e))
  undefined {w : World} {name : String} {args : List Expr} {results : List String} :
    may w (.call name args results) →
    F w (I.lift (Exec.fault ("call to undefined function " ++ Text.quote name)))
      (J.lift (Exec.fault ("call to undefined function " ++ Text.quote name)))
  values {w : World} {name : String} {args : List Expr} {results : List String} :
    may w (.call name args results) →
    R w (I.lift (Exec.values env args)) (J.lift (Exec.values env' args))
  receive {w : World} {name : String} {args : List Expr} {results : List String} :
    may w (.call name args results) → ∀ got : List Datum,
    R w (I.lift (Exec.receive name results got)) (J.lift (Exec.receive name results got))
  framed {w : World} {f : Shader.Function} {x : m Flow} {y : m' Flow} : mayCall w f → F w x y →
    ∀ args, R w (I.framed f args x) (J.framed f args y)

/-- Relations are kept by what makes runs out of steps, and hold of the steps. Control goes on as
`flows` tells. The second run may have more fuel. -/
structure Sustained (I : Instrument m) (J : Instrument m') (env env' : Env) (more : Nat)
    (may : World → Stmt → Prop) (mayCall : World → Shader.Function → Prop)
    (flows : World → Flow → Prop) (F : World → m Flow → m' Flow → Prop)
    (R : World → ∀ {α : Type}, m α → m' α → Prop) : Prop
    extends Around I J env env' may mayCall R, Steps I J env env' may mayCall F R where
  next {w : World} : flows w .next
  pure {w : World} {flow : Flow} : flows w flow → F w (pure flow) (pure flow)
  bind {w : World} {α : Type} {x : m α} {y : m' α} {k : α → m Flow} {l : α → m' Flow} :
    R w x y → (∀ a, F w (k a) (l a)) → F w (x >>= k) (y >>= l)
  andThen {w : World} {x : m Flow} {y : m' Flow} {k : Flow → m Flow} {l : Flow → m' Flow} :
    F w x y → (∀ flow, flows w flow → F w (k flow) (l flow)) → F w (x >>= k) (y >>= l)
  outOfFuel {w : World} (y : m' Flow) : (more = 0 → y = J.lift (throw .outOfFuel)) →
    F w (I.lift (throw .outOfFuel)) y
  noCall {w : World} (y : m' (List Datum)) : (more = 0 → y = J.lift (throw .outOfFuel)) →
    R w (I.lift (throw .outOfFuel)) y

namespace Sustained

variable {I : Instrument m} {J : Instrument m'} {env env' : Env} {more : Nat}
  {may : World → Stmt → Prop} {mayCall : World → Shader.Function → Prop}
  {flows : World → Flow → Prop} {F : World → m Flow → m' Flow → Prop}
  {R : World → ∀ {α : Type}, m α → m' α → Prop} {n : Nat} {w : World}

theorem parts_of_find? {selector : Expr} {cases : List Case} {fallback : List Stmt} {c : Case}
    {p : Case → Bool} (h : cases.find? p = some c) : c.body ∈ (Stmt.switch selector cases fallback).parts :=
  List.mem_append_left _ (List.mem_map_of_mem (List.mem_of_find?_eq_some h))

variable (I J env env' more may mayCall F R) in
/-- Runs of code that may run are related, for an amount of fuel. -/
structure Runs (n : Nat) : Prop where
  stmts {w : World} (ss : List Stmt) : (∀ s ∈ ss, may w s) →
    F w (I.stmts env n ss) (J.stmts env' (n + more) ss)
  stmt {w : World} (st : Stmt) : may w st → F w (I.stmt env n st) (J.stmt env' (n + more) st)
  loop {w : World} (label : String) (body : List Stmt) : (∀ s ∈ body, may w s) →
    F w (I.loop env n label body) (J.loop env' (n + more) label body)
  call {w : World} (f : Shader.Function) (args : List Datum) : mayCall w f →
    R w (I.call env n f args) (J.call env' (n + more) f args)

theorem runs_zero (h : Sustained I J env env' more may mayCall flows F R) :
    Runs I J env env' more may mayCall F R 0 where
  stmts ss _ := by
    rw [I.stmts_zero]
    refine h.outOfFuel _ fun hmore => ?_
    rw [hmore, J.stmts_zero]
  stmt st _ := by
    rw [Instrument.stmt]
    refine h.outOfFuel _ fun hmore => ?_
    rw [hmore, Instrument.stmt]
  loop label body _ := by
    rw [Instrument.loop]
    refine h.outOfFuel _ fun hmore => ?_
    rw [hmore, Instrument.loop]
  call f args _ := by
    rw [Instrument.call]
    refine h.noCall _ fun hmore => ?_
    rw [hmore, Instrument.call]

theorem stmts_succ (h : Sustained I J env env' more may mayCall flows F R)
    (ih : Runs I J env env' more may mayCall F R n) (ss : List Stmt) (hss : ∀ s ∈ ss, may w s) :
    F w (I.stmts env (n + 1) ss) (J.stmts env' (n + more + 1) ss) := by
  cases ss with
  | nil =>
      rw [Instrument.stmts, Instrument.stmts]
      exact h.pure h.next
  | cons st rest =>
      obtain ⟨hst, hrest⟩ := List.forall_mem_cons.mp hss
      rw [Instrument.stmts, Instrument.stmts]
      refine h.andThen (ih.stmt st hst) fun flow hflow => ?_
      cases flow with
      | next => exact ih.stmts rest hrest
      | _ => exact h.pure hflow

theorem loop_succ (h : Sustained I J env env' more may mayCall flows F R)
    (ih : Runs I J env env' more may mayCall F R n) (label : String) (body : List Stmt)
    (hbody : ∀ s ∈ body, may w s) :
    F w (I.loop env (n + 1) label body) (J.loop env' (n + more + 1) label body) := by
  have hagain := h.bind h.checkCancelled fun _ : Unit => ih.loop label body hbody
  rw [Instrument.loop, Instrument.loop]
  refine h.andThen (ih.stmts body hbody) fun flow hflow => ?_
  cases flow with
  | next => exact hagain
  | again l => exact ite_related hagain (h.pure hflow)
  | leave l => exact ite_related (h.pure h.next) (h.pure hflow)
  | ret vs => exact h.pure hflow

theorem call_succ (h : Sustained I J env env' more may mayCall flows F R)
    (ih : Runs I J env env' more may mayCall F R n) (f : Shader.Function) (args : List Datum)
    (hf : mayCall w f) : R w (I.call env (n + 1) f args) (J.call env' (n + more + 1) f args) := by
  rw [Instrument.call, Instrument.call]
  exact h.framed hf (ih.stmts f.body (h.body hf)) args

/-- What is behind the dispatch of a call. -/
theorem callRest (h : Sustained I J env env' more may mayCall flows F R)
    (ih : Runs I J env env' more may mayCall F R n) {name : String} {args : List Expr}
    {results : List String} (hst : may w (.call name args results)) {f : Shader.Function}
    (hf : env.exe.module.function? name = some f) :
    F w
      (do let vs ← I.lift (Exec.values env args)
          let got ← I.called name (I.call env n f vs)
          I.lift (Exec.receive name results got)
          Pure.pure Flow.next)
      (do let vs ← J.lift (Exec.values env' args)
          let got ← J.called name (J.call env' (n + more) f vs)
          J.lift (Exec.receive name results got)
          Pure.pure Flow.next) := by
  obtain ⟨w', hcallee, hcalled⟩ := h.called hst hf
  exact h.bind (h.values hst) fun vs => h.bind (hcalled _ _ (ih.call f vs hcallee)) fun got =>
    h.bind (h.receive hst got) fun _ => h.pure h.next

theorem stmt_call (h : Sustained I J env env' more may mayCall flows F R)
    (ih : Runs I J env env' more may mayCall F R n) {name : String} {args : List Expr}
    {results : List String} (hst : may w (.call name args results)) :
    F w (I.stmt env (n + 1) (.call name args results))
      (J.stmt env' (n + more + 1) (.call name args results)) := by
  rw [Instrument.stmt, Instrument.stmt, h.exe]
  refine h.bind h.reached fun _ => ?_
  cases hf : env.exe.module.function? name with
  | none => exact h.undefined hst
  | some f =>
      dsimp only
      cases hid : env.exe.blockNamed? name with
      | none => exact h.callRest ih hst hf
      | some id => exact h.bind (h.dispatch hst hid) fun _ => h.callRest ih hst hf

theorem stmt_succ (h : Sustained I J env env' more may mayCall flows F R)
    (ih : Runs I J env env' more may mayCall F R n) (st : Stmt) (hst : may w st) :
    F w (I.stmt env (n + 1) st) (J.stmt env' (n + more + 1) st) := by
  cases st with
  | ifElse cond body alternative =>
      rw [Instrument.stmt, Instrument.stmt]
      exact h.bind h.reached fun _ => h.bind (h.test hst rfl) fun c =>
        ite_related (ih.stmts body (h.part hst (by simp [Stmt.parts])))
          (ih.stmts alternative (h.part hst (by simp [Stmt.parts])))
  | block label body =>
      rw [Instrument.stmt, Instrument.stmt]
      refine h.bind h.reached fun _ =>
        h.andThen (ih.stmts body (h.part hst (by simp [Stmt.parts]))) fun flow hflow => ?_
      cases flow with
      | leave l =>
          refine h.pure ?_
          split
          · exact h.next
          · exact hflow
      | _ => exact h.pure hflow
  | loop label body =>
      rw [Instrument.stmt, Instrument.stmt]
      exact h.bind h.reached fun _ => ih.loop label body (h.part hst (by simp [Stmt.parts]))
  | switch selector cases fallback =>
      rw [Instrument.stmt, Instrument.stmt]
      refine h.bind h.reached fun _ => h.bind (h.test hst rfl) fun v => ?_
      cases hfind : cases.find? (·.values.contains v.x) with
      | some c => exact ih.stmts c.body (h.part hst (parts_of_find? hfind))
      | none => exact ih.stmts fallback (h.part hst (by simp [Stmt.parts]))
  | call name args results => exact h.stmt_call ih hst
  | _ =>
      rw [I.stmt_of_isSimple env n rfl, J.stmt_of_isSimple env' (n + more) rfl]
      exact h.bind h.reached fun _ => h.simple hst rfl

/-- Relations that the steps of runs keep hold of runs: of statements, of one statement, of a loop
and of a call. -/
theorem run (h : Sustained I J env env' more may mayCall flows F R) (n : Nat) :
    Runs I J env env' more may mayCall F R n := by
  induction n with
  | zero => exact h.runs_zero
  | succ n ih =>
      refine ⟨fun ss hss => ?_, fun st hst => ?_, fun label body hbody => ?_, fun f args hf => ?_⟩
      all_goals rw [Nat.add_right_comm]
      · exact h.stmts_succ ih ss hss
      · exact h.stmt_succ ih st hst
      · exact h.loop_succ ih label body hbody
      · exact h.call_succ ih f args hf

end Sustained

/-- The same for runs without instruments. -/
theorem Sustained.run_bare {env env' : Env} {more : Nat} {may : World → Stmt → Prop}
    {mayCall : World → Shader.Function → Prop} {flows : World → Flow → Prop}
    {F : World → Exec Flow → Exec Flow → Prop} {R : World → ∀ {α : Type}, Exec α → Exec α → Prop}
    (h : Sustained bare bare env env' more may mayCall flows F R) (n : Nat) (w : World) :
    (∀ ss, (∀ s ∈ ss, may w s) → F w (Exec.stmts env n ss) (Exec.stmts env' (n + more) ss))
      ∧ (∀ st, may w st → F w (Exec.stmt env n st) (Exec.stmt env' (n + more) st))
      ∧ (∀ label body, (∀ s ∈ body, may w s) →
        F w (Exec.loop env n label body) (Exec.loop env' (n + more) label body))
      ∧ ∀ f args, mayCall w f → R w (Exec.call env n f args) (Exec.call env' (n + more) f args) := by
  obtain ⟨hstmts, hstmt, hloop, hcall⟩ := bare_run env n
  obtain ⟨hstmts', hstmt', hloop', hcall'⟩ := bare_run env' (n + more)
  have hruns := h.run n
  refine ⟨fun ss hss => ?_, fun st hst => ?_, fun label body hbody => ?_, fun f args hf => ?_⟩
  · rw [← hstmts, ← hstmts']
    exact hruns.stmts ss hss
  · rw [← hstmt, ← hstmt']
    exact hruns.stmt st hst
  · rw [← hloop, ← hloop']
    exact hruns.loop label body hbody
  · rw [← hcall, ← hcall']
    exact hruns.call f args hf

/-- One relation is kept by what makes runs out of steps, however control goes on. -/
structure Composes (I : Instrument m) (J : Instrument m') (env env' : Env) (more : Nat)
    (may : World → Stmt → Prop) (mayCall : World → Shader.Function → Prop)
    (R : World → ∀ {α : Type}, m α → m' α → Prop) : Prop
    extends Around I J env env' may mayCall R where
  pure {w : World} {α : Type} (a : α) : R w (pure a) (pure a)
  bind {w : World} {α β : Type} {x : m α} {y : m' α} {k : α → m β} {l : α → m' β} :
    R w x y → (∀ a, R w (k a) (l a)) → R w (x >>= k) (y >>= l)
  outOfFuel {w : World} {α : Type} (y : m' α) : (more = 0 → y = J.lift (throw .outOfFuel)) →
    R w (I.lift (throw .outOfFuel)) y

/-- The relation also holds of the steps of code that may run. -/
structure Preserved (I : Instrument m) (J : Instrument m') (env env' : Env) (more : Nat)
    (may : World → Stmt → Prop) (mayCall : World → Shader.Function → Prop)
    (R : World → ∀ {α : Type}, m α → m' α → Prop) : Prop
    extends Composes I J env env' more may mayCall R,
      Steps I J env env' may mayCall (fun w => R w) R

section Uniform

variable {I : Instrument m} {J : Instrument m'} {env env' : Env} {more : Nat}
  {may : World → Stmt → Prop} {mayCall : World → Shader.Function → Prop}
  {R : World → ∀ {α : Type}, m α → m' α → Prop}

theorem Preserved.sustained (h : Preserved I J env env' more may mayCall R) :
    Sustained I J env env' more may mayCall (fun _ _ => True) (fun w => R w) R where
  toAround := h.toAround
  toSteps := h.toSteps
  next := trivial
  pure _ := h.pure _
  bind := h.bind
  andThen hx hk := h.bind hx fun flow => hk flow trivial
  outOfFuel := h.outOfFuel
  noCall := h.outOfFuel

/-- A relation that the steps of runs keep holds of runs. -/
theorem Preserved.run (h : Preserved I J env env' more may mayCall R) (n : Nat) :
    Sustained.Runs I J env env' more may mayCall (fun w => R w) R n :=
  h.sustained.run n

/-- Where the same steps are always related, nothing else is left to show. -/
theorem Composes.preserved (h : Composes I J env env' more may mayCall R)
    (lift : ∀ {w : World} {α : Type} (x : Exec α), R w (I.lift x) (J.lift x)) :
    Preserved I J env env' more may mayCall R where
  toComposes := h
  simple _ hst := by
    rw [Exec.stmt_congr h.exe hst]
    exact lift _
  test _ _ := by
    rw [Exec.value_congr h.exe]
    exact lift _
  undefined _ := lift _
  values _ := by
    rw [Exec.values_congr h.exe]
    exact lift _
  receive _ _ := lift _
  framed _ hx _ := h.bind (lift _) fun _ => h.bind hx fun _ => lift _

end Uniform

/-- The same for runs without instruments. -/
theorem Preserved.run_bare {env env' : Env} {more : Nat} {may : World → Stmt → Prop}
    {mayCall : World → Shader.Function → Prop} {R : World → ∀ {α : Type}, Exec α → Exec α → Prop}
    (h : Preserved bare bare env env' more may mayCall R) (n : Nat) (w : World) :
    (∀ ss, (∀ s ∈ ss, may w s) → R w (Exec.stmts env n ss) (Exec.stmts env' (n + more) ss))
      ∧ (∀ st, may w st → R w (Exec.stmt env n st) (Exec.stmt env' (n + more) st))
      ∧ (∀ label body, (∀ s ∈ body, may w s) →
        R w (Exec.loop env n label body) (Exec.loop env' (n + more) label body))
      ∧ ∀ f args, mayCall w f → R w (Exec.call env n f args) (Exec.call env' (n + more) f args) :=
  h.sustained.run_bare n w

end Sustained

end Execution

end WasmShader
