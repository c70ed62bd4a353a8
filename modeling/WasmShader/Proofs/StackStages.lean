import WasmShader.Proofs.StackTurns
import WasmShader.Proofs.Watching

/-!
# Stages of the stack

The stages of a run are its dispatches, its requests to the host and its end, each with the data words
in use (`Stage`). Where these are a pile (`Stage.Stands`), what the next stage finds is what a turn, or
the answer to the request, has made of them (`Follows`), and so stage after stage (`Path`).

What a watched run goes through is told by a triple (`Walks`). Code that calls no block goes through no
stage (`silent_run`), so what matters is the dispatcher: every turn of its loop is one stage, and leaves
the stack to the next.
-/

namespace WasmShader.Execution

open Compile Emit
open Shader (Stmt Expr CallSite)

/-- A point of a run, with the data words in use. -/
inductive Stage
  /-- A block is about to run. -/
  | running (id : BlockId) (used : List UInt32)
  /-- The lane waits for the host. -/
  | waiting (request : Pending) (used : List UInt32)
  /-- The invocation has ended with its results. -/
  | ended (used : List UInt32)
  deriving DecidableEq, Repr

def Stage.used : Stage → List UInt32
  | .running _ ws | .waiting _ ws | .ended ws => ws

/-- The stage of a block that has been counted. -/
def Event.stage? : Event → Option Stage
  | .dispatched id s => some (.running id s.lane.stack.used)
  | .reached _ | .yielded _ => none

/-- The stages of code that runs. -/
def stages (es : List Event) : List Stage := es.filterMap Event.stage?

theorem stages_append (es es' : List Event) : stages (es ++ es') = stages es ++ stages es' :=
  List.filterMap_append ..

section Paths

variable (frames : List Frames) (out : Compiled) (inv : Invoked)

/-- The words in use are a pile, with what the stage is about on top; and there are none at the end. -/
inductive Stage.Stands : Stage → Prop
  | block {fr : Frames} {k : Nat} {b : Block} {below frame : List UInt32} :
      OnPile frames out inv fr k b below frame →
      Stands (.running ((out.blockContext fr).numberOf k) (below ++ frame))
  | exit {values : List UInt32} : values.length = out.layout.sizeOf inv.results →
      Stands (.running inv.exit (values ++ [inv.exit.val]))
  | host {request : Pending} {below args : List UInt32} :
      out.hosts.lookup? request.func.id = some request.func →
      Suspended frames out inv request.func.results below →
      args.length = out.layout.sizeOf request.func.params →
      Stands (.waiting request (below ++ (args ++ [request.func.id.val])))
  | ended : Stands (.ended [])

/-- What comes behind a stage finds these words in use. -/
inductive Follows : Stage → List UInt32 → Prop
  | turn {id : BlockId} {ws ws' : List UInt32} : Turn frames out inv ws ws' →
      Follows (.running id ws) ws'
  | answer {request : Pending} {ws ws' : List UInt32} : Answer frames out inv request.func ws ws' →
      Follows (.waiting request ws) ws'

/-- From words in use through stages, each of which finds what the one before has left, to words in use,
unless the run stops before that. -/
inductive Path : List UInt32 → List Stage → Option (List UInt32) → Prop
  | nil {ws : List UInt32} : Path ws [] (some ws)
  | stop {ws : List UInt32} : Path ws [] none
  | last {stage : Stage} : stage.Stands frames out inv → Path stage.used [stage] none
  | step {stage : Stage} {ws : List UInt32} {ss : List Stage} {o : Option (List UInt32)} :
      stage.Stands frames out inv → Follows frames out inv stage ws → Path ws ss o →
      Path stage.used (stage :: ss) o

end Paths

section Path

variable {p : Program} {frames : List Frames} {out : Compiled} {inv : Invoked} {ws ws' : List UInt32}
  {ss ss' : List Stage} {o : Option (List UInt32)}

theorem Path.append (h : Path frames out inv ws ss (some ws')) (h' : Path frames out inv ws' ss' o) :
    Path frames out inv ws (ss ++ ss') o := by
  generalize hend : some ws' = e at h
  induction h with
  | nil =>
      cases hend
      exact h'
  | stop => cases hend
  | last => cases hend
  | step hstands hfollows _ ih => exact .step hstands hfollows (ih hend)

/-- What every stage of a path is like, and how each follows on the one before. -/
theorem Path.spec (h : Path frames out inv ws ss o) :
    (∀ stage ∈ ss, stage.Stands frames out inv)
      ∧ ss.IsChain (fun stage next => Follows frames out inv stage next.used)
      ∧ ∀ stage ∈ ss.head?, stage.used = ws := by
  induction h with
  | nil => exact ⟨List.forall_mem_nil _, .nil, nofun⟩
  | stop => exact ⟨List.forall_mem_nil _, .nil, nofun⟩
  | last hstands =>
      refine ⟨List.forall_mem_singleton.mpr hstands, .singleton _, fun stage hstage => ?_⟩
      cases hstage
      rfl
  | step hstands hfollows _ ih =>
      obtain ⟨hall, hchain, hhead⟩ := ih
      refine ⟨List.forall_mem_cons.mpr ⟨hstands, hall⟩,
        List.isChain_cons.mpr ⟨fun next hnext => (hhead next hnext).symm ▸ hfollows, hchain⟩,
        fun stage hstage => ?_⟩
      cases hstage
      rfl

/-- A pile with the number of a block on top. -/
theorem Piled.running (hlinked : Linked p frames out) (h : Piled frames out inv ws) {id : BlockId}
    {f : Shader.Function} (hid : ws.getLast? = some id.val) (hruns : Runs out id f) :
    Stage.Stands frames out inv (.running id ws) := by
  have hsame {id' : BlockId} {low : List UInt32} (hws : ws = low ++ [id'.val]) : id = id' := by
    rw [hws, List.getLast?_concat] at hid
    exact (congrArg BlockId.mk (Option.some.inj hid)).symm
  cases h with
  | @block fr k b below frame hpile =>
      have hframe := hpile.frame
      obtain ⟨payload, -, rfl⟩ := hframe
      obtain rfl := hsame (List.append_assoc ..).symm
      exact .block hpile
  | exit hvalues =>
      obtain rfl := hsame rfl
      exact .exit hvalues
  | host hfunc =>
      obtain rfl := hsame (List.append_assoc ..).symm
      rw [hruns.lookup? hlinked] at hfunc
      cases hfunc

end Path

namespace Watched

/-! ## Code that goes through no stage -/

section Silent

variable {α β : Type} {env : Env} {P : CallSite → Prop}

/-- The code goes through no stage. -/
def Silent (x : Watched α) : Prop := ∀ s, stages (x s).1 = []

theorem Silent.pure (a : α) : Silent (Pure.pure a : Watched α) := fun _ => rfl

theorem Silent.lift (x : Exec α) : Silent (watching.lift x) := fun _ => rfl

theorem silent_reached : Silent (see .reached) := fun _ => rfl

theorem Silent.bind {x : Watched α} {k : α → Watched β} (hx : Silent x) (hk : ∀ a, Silent (k a)) :
    Silent (x >>= k) := by
  intro s
  change stages (Watched.bind x k s).1 = []
  have hxs := hx s
  rw [Watched.bind]
  generalize x s = rx at hxs
  obtain ⟨es, r, s'⟩ := rx
  cases r with
  | error e => exact hxs
  | ok a =>
      dsimp only at hxs ⊢
      rw [stages_append, hxs, hk a s']
      rfl

/-- None of the functions that are called are blocks, and neither are those that they call. -/
def CallsNoBlock (x : Compile.Executable) (P : CallSite → Prop) : Prop :=
  ∀ c, P c → x.blockNamed? c.func = none
    ∧ ∀ f, x.module.function? c.func = some f → ∀ c' ∈ f.calls, P c'

theorem mem_stmtsCalls {ss : List Stmt} {s : Stmt} (hs : s ∈ ss) : ∀ c ∈ s.calls,
    c ∈ Shader.stmtsCalls ss := by
  intro c hc
  rw [Shader.stmtsCalls_eq]
  exact List.mem_flatMap.mpr ⟨s, hs, hc⟩

/-- The steps of code that calls no block, at any depth, go through no stage. -/
theorem preserved_silent (hP : CallsNoBlock env.exe P) :
    Preserved watching watching env env 0 (fun (_ : Unit) st => ∀ c ∈ st.calls, P c)
      (fun _ f => ∀ c ∈ f.calls, P c) (fun _ {_} x _ => Silent x) where
  exe := rfl
  part hst hpart s hs c hc :=
    hst c (Shader.mem_calls.mpr (.inr ⟨_, hpart, mem_stmtsCalls hs c hc⟩))
  body hf s hs c hc := hf c (mem_stmtsCalls hs c hc)
  pure := Silent.pure
  bind := Silent.bind
  outOfFuel _ _ := .lift _
  reached := silent_reached
  checkCancelled := .lift _
  dispatch hst hid := by
    rw [(hP _ (hst _ (List.mem_singleton_self _))).1] at hid
    cases hid
  called hst hf := ⟨(), (hP _ (hst _ (List.mem_singleton_self _))).2 _ hf, fun _ _ => id⟩
  simple _ _ := .lift _
  test _ _ := .lift _
  undefined _ := .lift _
  values _ := .lift _
  receive _ _ := .lift _
  framed _ hx _ := (Silent.lift _).bind fun _ => hx.bind fun _ => .lift _

theorem silent_stmts (hP : CallsNoBlock env.exe P) (n : Nat) {ss : List Stmt}
    (h : ∀ c ∈ Shader.stmtsCalls ss, P c) : Silent (watching.stmts env n ss) :=
  ((preserved_silent hP).run n).stmts ss (w := ()) fun _ hs c hc => h c (mem_stmtsCalls hs c hc)

theorem silent_call (hP : CallsNoBlock env.exe P) (n : Nat) {f : Shader.Function}
    (h : ∀ c ∈ f.calls, P c) (args : List Datum) : Silent (watching.call env n f args) :=
  ((preserved_silent hP).run n).call f args (w := ()) h

end Silent

/-! ## Stages of code -/

section Walks

open Exec (outcome)

variable {α β : Type} {p : Program} {frames : List Frames} {out : Compiled} {inv : Invoked} {env : Env}
  {s : State} {ws : List UInt32} {Q : α → State → List UInt32 → Prop}
  {R : β → State → List UInt32 → Prop}

variable (frames out inv) in
/-- The stages of the computation are a path from the words in use in front of it. Where it comes to its
end, that is where the path leads. -/
structure Walks (x : Watched α) (s : State) (ws : List UInt32) (Q : α → State → List UInt32 → Prop) :
    Prop where
  ends : ∀ es a s', x s = (es, .ok a, s') →
    ∃ ws', Path frames out inv ws (stages es) (some ws') ∧ Q a s' ws'
  path : Path frames out inv ws (stages (x s).1) none

theorem Walks.mono {Q' : α → State → List UInt32 → Prop} {x : Watched α}
    (h : Walks frames out inv x s ws Q) (himp : ∀ a s' ws', Q a s' ws' → Q' a s' ws') :
    Walks frames out inv x s ws Q' where
  ends es a s' hx := by
    obtain ⟨ws', hpath, hQ⟩ := h.ends es a s' hx
    exact ⟨ws', hpath, himp a s' ws' hQ⟩
  path := h.path

theorem Walks.bind {x : Watched α} {k : α → Watched β} (h : Walks frames out inv x s ws Q)
    (hk : ∀ a s' ws', Q a s' ws' → Walks frames out inv (k a) s' ws' R) :
    Walks frames out inv (x >>= k) s ws R := by
  have hends := h.ends
  have hpath := h.path
  have hbind : (x >>= k) s = Watched.bind x k s := rfl
  rw [Watched.bind] at hbind
  generalize x s = rx at hends hpath hbind
  obtain ⟨es, r, s'⟩ := rx
  cases r with
  | error e =>
      refine ⟨fun es' b s'' hx => ?_, ?_⟩
      · rw [hbind] at hx
        cases hx
      · rw [hbind]
        exact hpath
  | ok a =>
      obtain ⟨ws', hfront, hQ⟩ := hends es a s' rfl
      have hback := hk a s' ws' hQ
      refine ⟨fun es' b s'' hx => ?_, ?_⟩
      · rw [hbind] at hx
        obtain ⟨rfl, hrest⟩ := Prod.mk.inj hx
        obtain ⟨ws'', hlast, hR⟩ := hback.ends _ b s'' (Prod.ext rfl hrest)
        rw [stages_append]
        exact ⟨ws'', hfront.append hlast, hR⟩
      · rw [hbind]
        dsimp only
        rw [stages_append]
        exact hfront.append hback.path

theorem outcome_run {x : Watched α} {es : List Event} {a : α} {s' : State}
    (h : x s = (es, .ok a, s')) : outcome x.run s = some (.ok a, s') := by
  change Ending.settle (x s).2 = _
  rw [h]
  rfl

/-- Code that goes through no stage leads to where it comes to. -/
theorem Walks.of_silent {x : Watched α} (hx : Silent x)
    (h : ∀ a s', outcome x.run s = some (.ok a, s') → Q a s' ws) : Walks frames out inv x s ws Q where
  ends es a s' hxs := by
    have hsilent := hx s
    rw [hxs] at hsilent
    dsimp only at hsilent
    rw [hsilent]
    exact ⟨ws, .nil, h a s' (outcome_run hxs)⟩
  path := by
    rw [hx s]
    exact .stop

theorem Walks.lift {x : Exec α} (h : ∀ a s', outcome x s = some (.ok a, s') → Q a s' ws) :
    Walks frames out inv (watching.lift x) s ws Q :=
  .of_silent (.lift x) h

theorem Walks.pure {a : α} (h : Q a s ws) : Walks frames out inv (Pure.pure a) s ws Q :=
  .of_silent (.pure a) fun _ _ hrun => by cases hrun; exact h

/-- What comes behind the count of a block, if it goes through no stage and comes to its end, makes a
turn of the words in use. -/
theorem Walks.stage {x : Watched α} {id : BlockId} (hused : s.lane.stack.used = ws)
    (hstands : Stage.Stands frames out inv (.running id ws)) (hx : Silent x)
    (h : ∀ a s', outcome x.run s = some (.ok a, s') →
      ∃ ws', Follows frames out inv (.running id ws) ws' ∧ Q a s' ws') :
    Walks frames out inv (see (.dispatched id) >>= fun _ => x) s ws Q := by
  have hbind : (see (.dispatched id) >>= fun _ => x) s = (.dispatched id s :: (x s).1, (x s).2) := rfl
  have hstages (es : List Event) :
      stages (.dispatched id s :: es) = .running id ws :: stages es := by
    rw [← hused]
    rfl
  refine ⟨fun es a s' hrun => ?_, ?_⟩
  · rw [hbind] at hrun
    obtain ⟨rfl, hend⟩ := Prod.mk.inj hrun
    obtain ⟨ws', hfollows, hQ⟩ := h a s' (outcome_run (Prod.ext rfl hend))
    rw [hstages, hx s]
    exact ⟨ws', .step hstands hfollows .nil, hQ⟩
  · rw [hbind]
    dsimp only
    rw [hstages, hx s]
    exact .last hstands

theorem bind_bind {γ : Type} (x : Watched α) (k : α → Watched β) (l : β → Watched γ) :
    x >>= k >>= l = x >>= fun a => k a >>= l := by
  funext s
  change Watched.bind (Watched.bind x k) l s = Watched.bind x (fun a => Watched.bind (k a) l) s
  unfold Watched.bind
  generalize x s = rx
  obtain ⟨es, r, s'⟩ := rx
  cases r with
  | error e => rfl
  | ok a =>
      dsimp only
      generalize k a s' = ry
      obtain ⟨es', r', s''⟩ := ry
      cases r' with
      | error e => rfl
      | ok b => exact congrArg (·, (l b s'').2) (List.append_assoc ..)

theorem dispatch_bind (id : BlockId) (x : Watched α) :
    (watching.dispatch env id >>= fun _ => x)
      = (watching.lift (Exec.dispatch env id) >>= fun _ => see (.dispatched id) >>= fun _ => x) :=
  bind_bind _ _ _

/-- Goes on with statements if nothing else is said. -/
def onNext (x : Watched Flow) : Flow → Watched Flow
  | .next => x
  | flow => Pure.pure flow

theorem stmts_cons (n : Nat) (st : Stmt) (rest : List Stmt) :
    watching.stmts env (n + 1) (st :: rest) = watching.stmt env n st >>= onNext (watching.stmts env n rest) := by
  rw [Instrument.stmts]
  exact congrArg (watching.stmt env n st >>= ·) (funext fun flow => by cases flow <;> rfl)

theorem stmts_append (n : Nat) (xs ys : List Stmt) :
    watching.stmts env n (xs ++ ys) = watching.stmts env n xs >>= onNext (watching.stmts env (n - xs.length) ys) := by
  induction xs generalizing n with
  | nil =>
      cases n with
      | zero =>
          rw [List.nil_append, Instrument.stmts_zero, Instrument.stmts_zero]
          rfl
      | succ n =>
          rw [List.nil_append, watching.stmts_nil env n]
          rfl
  | cons st xs ih =>
      cases n with
      | zero =>
          rw [Instrument.stmts_zero, Instrument.stmts_zero]
          rfl
      | succ n =>
          rw [List.cons_append, stmts_cons, stmts_cons, bind_bind, ih, List.length_cons,
            Nat.add_sub_add_right]
          exact congrArg (watching.stmt env n st >>= ·) (funext fun flow => by cases flow <;> rfl)

section Statements

variable {Q R : Flow → State → List UInt32 → Prop}

theorem Walks.onNext {x : Watched Flow} {flow : Flow}
    (hx : flow = .next → Walks frames out inv x s ws R) (hother : flow ≠ .next → R flow s ws) :
    Walks frames out inv (onNext x flow) s ws R := by
  cases flow with
  | next => exact hx rfl
  | leave | again | ret => exact .pure (hother nofun)

/-- One list of statements and then another. -/
theorem Walks.append {xs ys : List Stmt} (hx : ∀ n, Walks frames out inv (watching.stmts env n xs) s ws Q)
    (hy : ∀ s' ws', Q .next s' ws' → ∀ n, Walks frames out inv (watching.stmts env n ys) s' ws' R)
    (hother : ∀ flow s' ws', flow ≠ .next → Q flow s' ws' → R flow s' ws') (n : Nat) :
    Walks frames out inv (watching.stmts env n (xs ++ ys)) s ws R := by
  rw [stmts_append]
  refine (hx n).bind fun flow s' ws' hQ => .onNext (fun hnext => ?_) fun hne => hother _ _ _ hne hQ
  subst hnext
  exact hy s' ws' hQ _

theorem Walks.singleton {st : Stmt} (h : ∀ n, Walks frames out inv (watching.stmt env n st) s ws Q) (n : Nat) :
    Walks frames out inv (watching.stmts env n [st]) s ws Q := by
  cases n with
  | zero =>
      rw [Instrument.stmts_zero]
      exact .lift fun a s' hrun => absurd hrun (throw_ne _ a s')
  | succ n =>
      rw [stmts_cons]
      refine (h n).bind fun flow s' ws' hQ => .onNext (fun hnext => ?_) fun _ => hQ
      subst hnext
      cases n with
      | zero =>
          rw [Instrument.stmts_zero]
          exact .lift fun a s' hrun => absurd hrun (throw_ne _ a s')
      | succ n =>
          rw [Instrument.stmts]
          exact .pure hQ

/-- A function is run with variables of its own, and comes back to those of its caller. -/
theorem Walks.call_succ {f : Shader.Function} (hparams : f.params = [])
    {T : State → List UInt32 → Prop} {n : Nat}
    (hbody : Walks frames out inv (watching.stmts env n f.body) { s with vars := Exec.frame f [] } ws Q)
    (hend : ∀ flow s₁ ws', Q flow s₁ ws' → (flow = .next ∨ ∃ values, flow = .ret values) →
      T { s₁ with vars := s.vars } ws') :
    Walks frames out inv (watching.call env (n + 1) f []) s ws fun _ => T := by
  rw [Instrument.call, Instrument.framed]
  refine (Walks.lift (Q := fun outer s' ws' => outer = s.vars
    ∧ s' = { s with vars := Exec.frame f [] } ∧ ws' = ws) fun outer s' hrun => ?_).bind ?_
  · rw [Exec.openFrame, hparams] at hrun
    cases hrun
    exact ⟨rfl, rfl, rfl⟩
  rintro _ _ _ ⟨rfl, rfl, rfl⟩
  refine hbody.bind fun flow s₁ ws' hQ => .lift fun got s' hrun => ?_
  obtain ⟨_, s₂, hset, hresults⟩ := bind_ok hrun
  cases hset
  obtain ⟨rfl, hflow⟩ := of_resultsOf hresults
  exact hend _ _ _ hQ hflow

theorem Walks.call {f : Shader.Function} (hparams : f.params = []) {T : State → List UInt32 → Prop}
    (hbody : ∀ n, Walks frames out inv (watching.stmts env n f.body) { s with vars := Exec.frame f [] } ws Q)
    (hend : ∀ flow s₁ ws', Q flow s₁ ws' → (flow = .next ∨ ∃ values, flow = .ret values) →
      T { s₁ with vars := s.vars } ws') (n : Nat) :
    Walks frames out inv (watching.call env n f []) s ws fun _ => T := by
  cases n with
  | zero =>
      rw [Instrument.call]
      exact .lift fun a s' hrun => absurd hrun (throw_ne _ a s')
  | succ n => exact .call_succ hparams (hbody n) hend

end Statements

end Walks

/-! ## Stages of the dispatcher -/

section Dispatcher

open Exec (outcome)

variable {p : Program} {frames : List Frames} {out : Compiled} {inv : Invoked} {d : Pair} {env : Env}
  {s : State} {ws : List UInt32} {name : String} {f : Shader.Function}

variable (frames out inv) in
/-- The words in use in front of a turn of the dispatcher. -/
def Held (d : Pair) (s : State) (ws : List UInt32) : Prop :=
  InUse d ws s ∧ (ws = [] ∨ Piled frames out inv ws)

/-- A function that is none of a block is called. -/
theorem Walks.callOnly (hf : env.exe.module.function? name = some f)
    (hname : env.exe.blockNamed? name = none) {T : State → List UInt32 → Prop}
    (hcall : ∀ n, Walks frames out inv (watching.call env n f []) s ws fun _ => T) (n : Nat) :
    Walks frames out inv (watching.stmt env n (Emit.callOnly name)) s ws
      fun flow s' ws' => flow = .next ∧ T s' ws' := by
  cases n with
  | zero =>
      rw [Instrument.stmt]
      exact .lift fun a s' hrun => absurd hrun (throw_ne _ a s')
  | succ n =>
      rw [Emit.callOnly, Instrument.stmt]
      refine (Walks.of_silent (Q := fun _ s' ws' => s' = s ∧ ws' = ws) silent_reached
        fun _ s' hrun => by cases hrun; exact ⟨rfl, rfl⟩).bind ?_
      rintro _ s ws ⟨rfl, rfl⟩
      rw [hf, hname]
      refine (Walks.lift (Q := fun vs s₁ ws' => vs = [] ∧ s₁ = s ∧ ws' = ws)
        fun vs s₁ hrun => by cases hrun; exact ⟨rfl, rfl, rfl⟩).bind ?_
      rintro _ _ _ ⟨rfl, rfl, rfl⟩
      refine (hcall n).bind fun got s' ws' hT => ?_
      refine (Walks.lift (Q := fun _ s'' ws'' => s'' = s' ∧ ws'' = ws') fun _ s'' hrun => ?_).bind ?_
      · unfold Exec.receive at hrun
        split at hrun
        · obtain ⟨_, s₂, hthrow, -⟩ := bind_ok hrun
          exact absurd hthrow (throw_ne _ _ _)
        · cases hrun
          exact ⟨rfl, rfl⟩
      · rintro _ _ _ ⟨rfl, rfl⟩
        exact .pure ⟨rfl, hT⟩

/-- A block is called, which is a stage. -/
theorem Walks.block (hlinked : Linked p frames out) (hsize : d.size .stack < 2 ^ 32) {id : BlockId}
    (hf : env.exe.module.function? name = some f) (hname : env.exe.blockNamed? name = some id)
    (hstands : Stage.Stands frames out inv (.running id ws))
    (hsilent : ∀ n args, Silent (watching.call env n f args))
    (hvars : ∀ v ∈ f.params ++ f.locals, v.name ∉ baseNames)
    (hturn : ∀ s, InUse d ws s → ∀ n flow s',
      outcome (Exec.stmts env n f.body) s = some (.ok flow, s') → flow.Stays
        ∧ (flow = .next → ∃ ws', Turn frames out inv ws ws' ∧ InUse d ws' s'))
    (h : InUse d ws s) (n : Nat) :
    Walks frames out inv (watching.stmt env n (Emit.callOnly name)) s ws fun _ => Held frames out inv d := by
  cases n with
  | zero =>
      rw [Instrument.stmt]
      exact .lift fun a s' hrun => absurd hrun (throw_ne _ a s')
  | succ n =>
      rw [Emit.callOnly, Instrument.stmt]
      refine (Walks.of_silent (Q := fun _ s' ws' => s' = s ∧ ws' = ws) silent_reached
        fun _ s' hrun => by cases hrun; exact ⟨rfl, rfl⟩).bind ?_
      rintro _ s ws ⟨rfl, rfl⟩
      rw [hf, hname]
      dsimp only
      rw [dispatch_bind]
      refine (Walks.lift (Q := fun _ s₁ ws' => InUse d ws s₁ ∧ ws' = ws) fun _ s₁ hrun =>
        ⟨h.steady (fun _ _ => Steady.dispatch env id) hrun, rfl⟩).bind ?_
      rintro _ s₁ ws ⟨h₁, rfl⟩
      refine .stage (h₁.used hsize) hstands ?_ fun flow s' hrun => ?_
      · exact (Silent.lift _).bind fun vs => (hsilent n vs).bind fun _ => (Silent.lift _).bind fun _ =>
          .pure _
      · rw [run_bind, run_look] at hrun
        obtain ⟨vs, s₂, hvalues, hcalled⟩ := bind_ok hrun
        rw [run_bind, run_called, (run_watched env n).2.2.2] at hcalled
        obtain ⟨got, s₃, hcall, hassigned⟩ := bind_ok hcalled
        rw [run_bind, run_look] at hassigned
        obtain ⟨_, s₄, hlast, hend⟩ := bind_ok hassigned
        cases hvalues
        cases hend
        obtain rfl : s' = s₃ := by
          unfold Exec.receive at hlast
          split at hlast
          · obtain ⟨_, s₅, hthrow, -⟩ := bind_ok hlast
            exact absurd hthrow (throw_ne _ _ _)
          · cases hlast
            rfl
        obtain ⟨m, flow, s₅, hbody, rfl, hflow⟩ := ok_of_call hcall
        obtain ⟨hstays, hnext⟩ := hturn _ (h₁.withVars (clear_frame hvars [])) m flow s₅ hbody
        obtain ⟨ws', hturned, h'⟩ := hnext (hflow.resolve_right fun hret => hstays _ hret.choose_spec)
        exact ⟨ws', .turn hturned, h'.withVars h₁.clear, hturned.piled hlinked⟩

/-- Every turn of a loop leaves the next what it found itself. -/
theorem Walks.loop {label : String} {body : List Stmt} {I : State → List UInt32 → Prop}
    (hbody : ∀ n s ws, I s ws → Walks frames out inv (watching.stmts env n body) s ws fun _ => I) (n : Nat)
    (h : I s ws) : Walks frames out inv (watching.loop env n label body) s ws fun _ => I := by
  induction n generalizing s ws with
  | zero =>
      rw [Instrument.loop]
      exact .lift fun a s' hrun => absurd hrun (throw_ne _ a s')
  | succ n ih =>
      rw [Instrument.loop]
      refine (hbody n s ws h).bind fun flow s' ws' h' => ?_
      have hagain : Walks frames out inv (do
          watching.lift (Exec.checkCancelled env)
          watching.loop env n label body) s' ws' fun _ => I := by
        refine (Walks.lift (Q := fun _ s'' ws'' => s'' = s' ∧ ws'' = ws') fun _ s'' hrun =>
          ⟨eq_of_checkCancelled hrun, rfl⟩).bind ?_
        rintro _ _ _ ⟨rfl, rfl⟩
        exact ih h'
      cases flow with
      | next => exact hagain
      | again l =>
          dsimp only
          split
          · exact hagain
          · exact .pure h'
      | leave l =>
          dsimp only
          split <;> exact .pure h'
      | ret vs => exact .pure h'

/-- The regions are found by code that calls no block, and so are direct forms. -/
def OffStage (c : CallSite) : Prop := DirectSite c ∨ c.func = setupName

theorem callsNoBlock (hlinked : Linked p frames out) : CallsNoBlock out.toExecutable OffStage := by
  rintro c (hc | hc)
  · refine ⟨hlinked.runnable.unnumbered _ fun hstem => ?_, fun f hf c' hc' => .inl ?_⟩
    · rw [DirectSite, hstem] at hc
      exact absurd hc (by decide)
    · exact Shader.StmtsLawful.calls (hlinked.runnable.direct c hc f hf).body c' hc'
  · rw [hc]
    refine ⟨hlinked.runnable.unnumbered _ (by decide), fun f hf c' hc' => ?_⟩
    rw [hlinked.runnable.setup] at hf
    cases hf
    simp [Shader.Function.calls, setupFunction, Shader.stmtsCalls, Stmt.calls] at hc'

/-- Under its name a block is found with its number. -/
theorem blockNamed?_of_mem (hlinked : Linked p frames out) {b : BlockInfo} (hb : b ∈ out.blocks) :
    out.toExecutable.blockNamed? b.name = some b.id := by
  have hblock : out.toExecutable.block? b.id = some b := by
    rw [Executable.block?]
    cases hfind : out.blocks.reverse.find? (·.id == b.id) with
    | none =>
        exact absurd (beq_self_eq_true b.id) (List.find?_eq_none.mp hfind b (List.mem_reverse.mpr hb))
    | some b' =>
        have hmem := List.mem_reverse.mp (List.mem_of_find?_eq_some hfind)
        rw [List.inj_on_of_nodup_map hlinked.ids hmem hb (beq_iff_eq.mp (List.find?_some hfind :))]
  rw [Executable.blockNamed?]
  generalize htest : (fun b' : BlockInfo => b'.name == b.name
    && (out.toExecutable.block? b'.id).any (·.name == b.name)) = test
  have hnamed : test b = true := by
    rw [← htest]
    dsimp only
    rw [hblock, beq_self_eq_true, Option.any_some, beq_self_eq_true, Bool.and_self]
  cases hfind : out.blocks.find? test with
  | none => exact absurd hnamed (List.find?_eq_none.mp hfind b hb)
  | some b' =>
      have hfound := List.find?_some hfind
      rw [← htest, Bool.and_eq_true, beq_iff_eq, hlinked.names _ (List.mem_of_find?_eq_some hfind),
        hlinked.names b hb] at hfound
      rw [Option.map_some, blockName_inj hfound.1]

/-- The number on top has been read, and the block with this number is run. -/
theorem walks_running (hlinked : Linked p frames out) (hplaced : Placed out d env)
    (hexit : IsExit out inv.exit inv.results) (h : Held frames out inv d s ws) {w : UInt32}
    (hw : ws.getLast? = some w) (hnumber : s.vars.lookup numberVar = some (.ofU32 w)) (n : Nat) :
    Walks frames out inv (watching.stmt env n (running (out.blocks.map fun b => (b.id, b.name)))) s ws
      fun _ => Held frames out inv d := by
  obtain ⟨huse, hpiled⟩ := h
  have hpiled : Piled frames out inv ws := hpiled.resolve_left fun hnil => by
    rw [hnil] at hw
    cases hw
  have hexe : env.exe = out.toExecutable := hplaced.exe
  cases n with
  | zero =>
      rw [Instrument.stmt]
      exact .lift fun a s' hrun => absurd hrun (throw_ne _ a s')
  | succ n =>
      rw [running, Instrument.stmt]
      refine (Walks.of_silent (Q := fun _ s' ws' => s' = s ∧ ws' = ws) silent_reached
        fun _ s' hrun => by cases hrun; exact ⟨rfl, rfl⟩).bind ?_
      rintro _ s ws ⟨rfl, rfl⟩
      refine (Walks.lift (Q := fun v s' ws' => v = .ofU32 w ∧ s' = s ∧ ws' = ws)
        fun v s' hrun => ?_).bind ?_
      · obtain ⟨heval, hs⟩ := of_value hrun
        rw [Execution.eval, State.lookup_of_vars hnumber] at heval
        cases heval
        exact ⟨rfl, hs, rfl⟩
      rintro _ s ws ⟨rfl, rfl, rfl⟩
      split
      · next c hc =>
        obtain ⟨x, hx, rfl⟩ := List.mem_map.mp (List.mem_of_find?_eq_some hc)
        obtain ⟨info, hinfo, rfl⟩ := List.mem_map.mp hx
        have hvalues := List.find?_some hc
        obtain rfl : w = info.id.val := List.mem_singleton.mp (List.contains_iff_mem.mp hvalues)
        refine .singleton (fun n => ?_) n
        have hname := blockNamed?_of_mem hlinked hinfo
        cases hf : out.module.function? info.name with
        | none =>
            have hf' : env.exe.module.function? info.name = none := by rw [hexe]; exact hf
            refine .of_silent ?_ fun flow s' hrun => ?_
            · cases n with
              | zero =>
                  rw [Instrument.stmt]
                  exact .lift _
              | succ n =>
                  rw [Emit.callOnly, Instrument.stmt, hf']
                  exact silent_reached.bind fun _ => .lift _
            · rw [(run_watched env n).2.1] at hrun
              obtain ⟨-, -, f, hf, -⟩ := ok_of_callOnly hrun
              rw [hf'] at hf
              cases hf
        | some f =>
            have hruns : Runs out info.id f := ⟨info, hinfo, rfl, hf⟩
            obtain ⟨hlawful, hparams, hturn⟩ := hpiled.turn hlinked hplaced hexit hw hruns
            exact .block hlinked (by have := hplaced.bounds; omega) (by rw [hexe]; exact hf)
              (by rw [hexe]; exact hname) (hpiled.running hlinked hw hruns)
              (fun n args => silent_call (hexe ▸ callsNoBlock hlinked) n
                (fun c hc => .inl (hlawful.body.calls c hc)) args) hlawful.vars hturn huse n
      · have hsilent : Silent (watching.stmts env n (trapStmts .invalidBlock)) :=
          silent_stmts (hexe ▸ callsNoBlock hlinked) n (by
            simp [trapStmts, Shader.stmtsCalls, Stmt.calls])
        refine .of_silent hsilent fun flow s' hrun => ?_
        rw [(run_watched env n).1] at hrun
        obtain ⟨m, htrap⟩ := ok_of_singleton hrun
        cases m with
        | zero => exact absurd htrap (throw_ne _ _ _)
        | succ m => cases htrap

/-- A turn of the dispatcher: it stops, or the block on top is run, which is a stage. -/
theorem walks_look (hlinked : Linked p frames out) (hplaced : Placed out d env)
    (hexit : IsExit out inv.exit inv.results) (h : Held frames out inv d s ws) (n : Nat) :
    Walks frames out inv
      (watching.stmts env n (looking ++ [running (out.blocks.map fun b => (b.id, b.name))])) s ws
      fun _ => Held frames out inv d := by
  have hexe : env.exe = out.toExecutable := hplaced.exe
  refine Walks.append (Q := fun flow s' ws' => Held frames out inv d s' ws' ∧ (flow = .next →
    ∃ w, ws'.getLast? = some w ∧ s'.vars.lookup numberVar = some (.ofU32 w))) (fun n => ?_)
    (fun s' ws' hQ n => ?_) (fun _ _ _ _ hQ => hQ.1) n
  · refine .of_silent (silent_stmts (hexe ▸ callsNoBlock hlinked) n (by
      simp [looking, stopIf, readSp, Shader.stmtsCalls, Stmt.calls])) fun flow s' hrun => ?_
    rw [(run_watched env n).1] at hrun
    obtain ⟨huse, hflow⟩ := h.1.looking hplaced hrun
    refine ⟨⟨huse, h.2⟩, fun hnext => ?_⟩
    subst hnext
    exact (hflow.resolve_left fun hleave => by cases hleave).2
  · obtain ⟨hheld, hnext⟩ := hQ
    obtain ⟨w, hw, hnumber⟩ := hnext rfl
    exact .singleton (walks_running hlinked hplaced hexit hheld hw hnumber) n

/-- The dispatcher goes through stages, from one pile to the next. -/
theorem walks_dispatcher (hlinked : Linked p frames out) (hplaced : Placed out d env)
    (hexit : IsExit out inv.exit inv.results) (h : Held frames out inv d s ws) (n : Nat) :
    Walks frames out inv (watching.stmt env n (Emit.callOnly dispatcherName)) s ws
      fun _ => Held frames out inv d := by
  have hexe : env.exe = out.toExecutable := hplaced.exe
  have hvars : ∀ v ∈ [(⟨spVar, .u32⟩ : Shader.Variable), ⟨numberVar, .u32⟩], v.name ∉ baseNames := by
    decide
  have hbody (n : Nat) : Walks frames out inv (watching.stmts env n
      (dispatcher (out.blocks.map fun b => (b.id, b.name))).body)
      { s with vars := Exec.frame (dispatcher (out.blocks.map fun b => (b.id, b.name))) [] } ws
      fun _ => Held frames out inv d := by
    rw [body_dispatcher]
    refine .singleton (fun n => ?_) n
    cases n with
    | zero =>
        rw [Instrument.stmt]
        exact .lift fun a s' hrun => absurd hrun (throw_ne _ a s')
    | succ n =>
        rw [Instrument.stmt]
        have hclear := clear_frame (f := dispatcher (out.blocks.map fun b => (b.id, b.name))) hvars []
        refine (Walks.of_silent (Q := fun _ => Held frames out inv d) silent_reached
          fun _ s' hrun => by cases hrun; exact ⟨h.1.withVars hclear, h.2⟩).bind ?_
        exact fun _ s' ws' h' => .loop (fun n s ws h => walks_look hlinked hplaced hexit h n) n h'
  refine (Walks.callOnly (by rw [hexe]; exact hlinked.runnable.dispatcher)
    (by rw [hexe]; exact hlinked.runnable.unnumbered _ (by decide)) (.call rfl hbody
      fun flow s₁ ws' h' _ => ⟨h'.1.withVars h.1.clear, h'.2⟩) n).mono fun _ _ _ h' => h'.2

end Dispatcher

end Watched

end WasmShader.Execution
