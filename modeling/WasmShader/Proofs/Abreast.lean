import WasmShader.Proofs.Invocations
import WasmShader.Proofs.StackFree

/-!
# Lanes abreast

Two states of one lane that differ in the words of its stack, but for its header, run the same code
in the same way as long as it reads no word in which they differ. Code that leaves the stack alone
reads none (`Steady.run`), whatever the words of the stack are: it comes to the same on both, and
neither stack has changed behind it.

Runs that stop early stop with the same failure and at the same point, and what is left of the two
lanes may differ in the words of the stack again, and in nothing else.
-/

namespace WasmShader.Execution

open Shader (Expr Stmt Case CallSite AllApart StmtsApart CasesApart StmtsLawful CasesLawful)
open Emit (baseNames stackBuffer spVar)

/-- The lanes are equal but for the words of their stacks, and for what is recorded of blocks. -/
structure Lane.EqOffStack (a b : Lane) : Prop where
  index : b.index = a.index
  entry : b.entry = a.entry
  steps : b.steps = a.steps
  io : b.io = a.io
  globals : b.globals = a.globals
  size : b.stack.words.size = a.stack.words.size

/-- The lanes are at the same point of the same invocation. Of their stacks, the size and the header
are the same for sure, and nothing else. -/
structure Lane.Abreast (a b : Lane) : Prop extends Lane.EqOffStack a b where
  header : ∀ p < LaneStack.headerWords, b.stack.words[p]? = a.stack.words[p]?

/-- Running shaders that are equal but for the stacks of their lanes. -/
structure EqOffStack (s t : State) : Prop where
  lanes : s.lane.EqOffStack t.lane
  vars : t.vars = s.vars
  privates : t.privates = s.privates

/-- Running shaders on lanes abreast, with the same variables. -/
structure Abreast (s t : State) : Prop where
  lanes : s.lane.Abreast t.lane
  vars : t.vars = s.vars
  privates : t.privates = s.privates

theorem Abreast.offStack {s t : State} (h : Abreast s t) : EqOffStack s t :=
  ⟨h.lanes.toEqOffStack, h.vars, h.privates⟩

namespace Lane.EqOffStack

variable {a b : Lane}

theorem words (h : a.EqOffStack b) {r : Region} (hr : r ≠ .stack) : b.words r = a.words r := by
  cases r with
  | stack => exact absurd rfl hr
  | io => exact h.io
  | globals => exact h.globals

theorem sizes (h : a.EqOffStack b) (r : Region) : (b.words r).size = (a.words r).size := by
  cases r with
  | stack => exact h.size
  | io => exact congrArg Array.size h.io
  | globals => exact congrArg Array.size h.globals

theorem locate (h : a.EqOffStack b) (buffer : String) (idx : UInt32) :
    b.locate buffer idx = a.locate buffer idx := by
  have hbase (r : Region) : b.base r = a.base r := by
    rw [Lane.base, Lane.base, h.index, h.sizes]
  unfold Lane.locate
  cases Region.ofBuffer? buffer with
  | none => rfl
  | some r =>
      dsimp only
      rw [hbase, h.sizes, h.index]

theorem setWord (h : a.EqOffStack b) (r : Region) (i : Nat) (v : UInt32) :
    (a.setWord r i v).EqOffStack (b.setWord r i v) := by
  cases r with
  | stack => exact { h with size := by simp only [Lane.setWord, Array.size_setIfInBounds, h.size] }
  | io => exact { h with io := congrArg (·.setIfInBounds i v) h.io }
  | globals => exact { h with globals := congrArg (·.setIfInBounds i v) h.globals }

end Lane.EqOffStack

namespace Lane.Abreast

variable {a b : Lane}

/-- The stacks are written to alike. -/
theorem withStack (h : a.Abreast b) {ws us : Array UInt32} (hsize : us.size = ws.size)
    (hheader : ∀ p < LaneStack.headerWords, us[p]? = ws[p]?) :
    (a.withWords .stack ws).Abreast (b.withWords .stack us) where
  index := h.index
  entry := h.entry
  steps := h.steps
  io := h.io
  globals := h.globals
  size := hsize
  header := hheader

theorem setWord (h : a.Abreast b) (r : Region) (i : Nat) (v : UInt32) :
    (a.setWord r i v).Abreast (b.setWord r i v) := by
  cases r with
  | stack =>
      refine h.withStack (by simp only [Array.size_setIfInBounds]; exact h.size) fun p hp => ?_
      simp only [Array.getElem?_setIfInBounds]
      exact ite_congr rfl (fun _ => by rw [h.size]) fun _ => h.header p hp
  | io => exact { h with io := congrArg (·.setIfInBounds i v) h.io }
  | globals => exact { h with globals := congrArg (·.setIfInBounds i v) h.globals }

end Lane.Abreast

theorem EqOffStack.lookup {s t : State} (h : EqOffStack s t) (name : String) :
    t.lookup name = s.lookup name := by
  rw [State.lookup, State.lookup, h.vars, h.privates]

theorem EqOffStack.trapped {s t : State} (h : EqOffStack s t) (code : TrapCode) :
    EqOffStack (s.trapped code) (t.trapped code) :=
  ⟨h.lanes.setWord .stack LaneStack.trapWord code.code, h.vars, h.privates⟩

/-! ## Expressions -/

section Eval

variable {s t : State}

theorem ofBuffer?_of_locate {ln : Lane} {buffer : String} {idx : UInt32} {r : Region} {i : Nat}
    (h : ln.locate buffer idx = .ok (r, i)) : Region.ofBuffer? buffer = some r := by
  unfold Lane.locate at h
  split at h
  · cases h
  · next r' hr' =>
    dsimp only at h
    split at h
    · cases h
    · cases h
      exact hr'

/-- What is read elsewhere than from the stack is the same. -/
theorem EqOffStack.load (h : EqOffStack s t) {buffer : String} (hbuffer : buffer ≠ stackBuffer)
    (idx : UInt32) : t.load buffer idx = s.load buffer idx := by
  rw [State.load, State.load, h.lanes.locate]
  cases hlocate : s.lane.locate buffer idx with
  | error e => rfl
  | ok place =>
      obtain ⟨r, i⟩ := place
      have hr : r ≠ .stack := by
        rintro rfl
        exact hbuffer (eq_stackBuffer (ofBuffer?_of_locate hlocate))
      change Except.ok (Datum.ofU32 ((t.lane.words r).getD i 0)) = _
      rw [h.lanes.words hr]
      rfl

mutual

/-- An expression that reads no word of the stack has the same value. -/
theorem EqOffStack.eval (h : EqOffStack s t) (l : Layout) :
    (e : Expr) → e.Apart → eval l t e = eval l s e
  | .lit _ _, _ | .absent, _ => by rw [Execution.eval, Execution.eval]
  | .var name, _ => by rw [Execution.eval, Execution.eval, h.lookup]
  | .laneIndex, _ => by rw [Execution.eval, Execution.eval, h.lanes.index]
  | .load buffer index, he => by
      rw [Expr.Apart] at he
      simp only [Execution.eval, h.eval l index he.2, h.load he.1]
  | .binary op left right, he => by
      rw [Expr.Apart] at he
      simp only [Execution.eval, h.eval l left he.1, h.eval l right he.2]
  | .unary op x, he | .extract x index, he | .bitcast type x, he | .convert x type, he => by
      rw [Expr.Apart] at he
      simp only [Execution.eval, h.eval l _ he]
  | .select cond onTrue onFalse, he => by
      rw [Expr.Apart] at he
      simp only [Execution.eval, h.eval l cond he.1, h.eval l onTrue he.2.1,
        h.eval l onFalse he.2.2]
  | .compose type parts, he => by
      rw [Expr.Apart] at he
      simp only [Execution.eval, h.evalAll l parts he]
  | .intrinsic op args params results, he => by
      rw [Expr.Apart] at he
      simp only [Execution.eval, h.evalAll l args he]

theorem EqOffStack.evalAll (h : EqOffStack s t) (l : Layout) :
    (es : List Expr) → AllApart es → evalAll l t es = evalAll l s es
  | [], _ => by rw [Execution.evalAll, Execution.evalAll]
  | e :: es, hes => by
      rw [AllApart] at hes
      simp only [Execution.evalAll, h.eval l e hes.1, h.evalAll l es hes.2]

end

end Eval

/-! ## Runs -/

section Runs

open Exec

variable {α β : Type} {s t : State} {Q : α → State → State → Prop}
  {R : β → State → State → Prop}

/-- The runs ended with the same value, in states as described; or they stopped alike, on lanes that
still have all in common but the words of their stacks. -/
inductive Meets (Q : α → State → State → Prop) : Ending α → Ending α → Prop
  | value {a : α} {s t : State} : Q a s t → Meets Q (.ok a, s) (.ok a, t)
  | stop {e : Stop} {s t : State} : s.lane.EqOffStack t.lane → Meets Q (.error e, s) (.error e, t)

/-- Both runs were cut off, or their ends meet. -/
abbrev Together (Q : α → State → State → Prop) : Option (Ending α) → Option (Ending α) → Prop :=
  Option.Rel (Meets Q)

theorem Together.andThen {x y : Option (Ending α)} {k k' : α → State → Option (Ending β)}
    (h : Together Q x y) (hk : ∀ a s t, Q a s t → Together R (k a s) (k' a t)) :
    Together R (x.bind (Execution.andThen k)) (y.bind (Execution.andThen k')) := by
  refine Option.Rel.bind h ?_
  rintro _ _ (hends | hlanes)
  · exact hk _ _ _ hends
  · exact .some (.stop hlanes)

theorem Together.bind {x y : Exec α} {f g : α → Exec β}
    (h : Together Q (outcome x s) (outcome y t))
    (hk : ∀ a s' t', Q a s' t' → Together R (outcome (f a) s') (outcome (g a) t')) :
    Together R (outcome (x >>= f) s) (outcome (y >>= g) t) := by
  rw [outcome_bind, outcome_bind]
  exact h.andThen hk

theorem Together.mono {Q' : α → State → State → Prop} {x y : Option (Ending α)}
    (h : Together Q x y) (himp : ∀ a s t, Q a s t → Q' a s t) : Together Q' x y := by
  refine Option.Rel.mono h ?_
  rintro _ _ (hends | hlanes)
  · exact .value (himp _ _ _ hends)
  · exact .stop hlanes

theorem together_throw (h : s.lane.EqOffStack t.lane) (e : Stop) :
    Together Q (outcome (throw e) s) (outcome (throw e) t) := by
  cases e with
  | outOfFuel => exact .none
  | trap | abort => exact .some (.stop h)

theorem EqOffStack.ofExcept (h : EqOffStack s t) (r : Except Stop α) :
    Together (fun a s' t' => r = .ok a ∧ s' = s ∧ t' = t)
      (outcome (Exec.ofExcept r) s) (outcome (Exec.ofExcept r) t) := by
  cases r with
  | ok a => exact .some (.value ⟨rfl, rfl, rfl⟩)
  | error e =>
      cases e with
      | trap code => exact .some (.stop (h.trapped code).lanes)
      | abort cause => exact .some (.stop h.lanes)
      | outOfFuel => exact .none

/-- An expression is evaluated alike if its value is the same. -/
theorem EqOffStack.value (h : EqOffStack s t) (env : Env) {e : Expr}
    (he : Execution.eval env.exe.layout t e = Execution.eval env.exe.layout s e) :
    Together (fun v s' t' => Execution.eval env.exe.layout s e = .ok v ∧ s' = s ∧ t' = t)
      (outcome (Exec.value env e) s) (outcome (Exec.value env e) t) := by
  have hvalue (s : State) : outcome (Exec.value env e) s
      = outcome (Exec.ofExcept (Execution.eval env.exe.layout s e)) s := rfl
  rw [hvalue, hvalue, he]
  exact h.ofExcept _

theorem EqOffStack.values (h : EqOffStack s t) (env : Env) {es : List Expr} (hes : AllApart es) :
    Together (fun vs s' t' => Execution.evalAll env.exe.layout s es = .ok vs ∧ s' = s ∧ t' = t)
      (outcome (Exec.values env es) s) (outcome (Exec.values env es) t) := by
  have hvalues (s : State) : outcome (Exec.values env es) s
      = outcome (Exec.ofExcept (Execution.evalAll env.exe.layout s es)) s := rfl
  rw [hvalues, hvalues, h.evalAll env.exe.layout es hes]
  exact h.ofExcept _

/-! ## Variables and words -/

/-- The regions of the lane are where the code looks for them, and no variable hides that. -/
structure Anchored (d : Pair) (s : State) : Prop where
  index : s.lane.index = d.index
  size : s.lane.stack.words.size = d.size .stack
  bases : s.privates = d.bases d.index
  clear : ∀ v ∈ s.vars, v.1 ∉ baseNames

variable {d : Pair}

/-- Only variables of the running function are assigned to. -/
theorem Abreast.assign (h : Abreast s t) (hs : Anchored d s) {name : String}
    (hname : name ∉ baseNames) (v : Datum) :
    Together (fun _ s' t' => ∃ vars, s.vars.set? name v = some vars
        ∧ s' = { s with vars } ∧ t' = { t with vars })
      (outcome (Exec.assign name v) s) (outcome (Exec.assign name v) t) := by
  have houtcome (s : State) (hnone : s.privates.set? name v = none) :
      outcome (Exec.assign name v) s = (s.vars.set? name v).elim
        (some (.error (.fault ("assignment to undefined variable " ++ Text.quote name)), s))
        fun vars => some (.ok (), { s with vars }) := by
    unfold Exec.assign
    rw [outcome_bind_ok (a := s) (t := s) rfl, hnone]
    cases s.vars.set? name v <;> rfl
  have hnone := set_eq_none v (d.ne_of_mem_bases d.index hname)
  rw [← hs.bases] at hnone
  rw [houtcome s hnone, houtcome t (h.privates ▸ hnone), h.vars]
  cases s.vars.set? name v with
  | none => exact .some (.stop h.lanes.toEqOffStack)
  | some vars => exact .some (.value ⟨vars, rfl, rfl, rfl⟩)

theorem Abreast.withVars (h : Abreast s t) (vars : Vars) :
    Abreast { s with vars } { t with vars } := ⟨h.lanes, rfl, h.privates⟩

theorem Anchored.withVars (h : Anchored d s) {vars : Vars} (hclear : ∀ v ∈ vars, v.1 ∉ baseNames) :
    Anchored d { s with vars } := ⟨h.index, h.size, h.bases, hclear⟩

/-- A word is written to the same place. -/
theorem EqOffStack.store (h : EqOffStack s t) (buffer : String) (idx v : UInt32) :
    Together (fun _ s' t' => ∃ r i, s.lane.locate buffer idx = .ok (r, i)
        ∧ s' = { s with lane := s.lane.setWord r i v }
        ∧ t' = { t with lane := t.lane.setWord r i v })
      (outcome (Exec.store buffer idx v) s) (outcome (Exec.store buffer idx v) t) := by
  unfold Exec.store
  rw [outcome_bind_ok (a := s) (t := s) rfl, outcome_bind_ok (a := t) (t := t) rfl,
    h.lanes.locate]
  refine (h.ofExcept _).bind ?_
  rintro ⟨r, i⟩ s' t' ⟨hlocate, rfl, rfl⟩
  exact .some (.value ⟨r, i, hlocate, rfl, rfl⟩)

theorem Abreast.checkCancelled (h : Abreast s t) (env : Env) :
    Together (fun _ s' t' => s' = s ∧ t' = t)
      (outcome (Exec.checkCancelled env) s) (outcome (Exec.checkCancelled env) t) := by
  unfold Exec.checkCancelled
  split
  · exact together_throw h.lanes.toEqOffStack _
  · exact .some (.value ⟨rfl, rfl⟩)

/-- The state with another count of steps and another record of blocks. -/
def State.counted (s : State) (steps : Nat) (trace : List (BlockId × UInt32)) : State :=
  { s with lane := { s.lane with steps, trace } }

/-- A block is accounted for alike, whatever is recorded of it. -/
theorem Abreast.dispatch (h : Abreast s t) (env : Env) (id : BlockId) :
    Together (fun _ s' t' => ∃ trace trace', s' = s.counted (s.lane.steps + 1) trace
        ∧ t' = t.counted (t.lane.steps + 1) trace')
      (outcome (Exec.dispatch env id) s) (outcome (Exec.dispatch env id) t) := by
  unfold Exec.dispatch
  refine (h.checkCancelled env).bind ?_
  rintro _ s t ⟨rfl, rfl⟩
  rw [outcome_bind_ok (s := s) (a := ()) (t := s.counted (s.lane.steps + 1) s.lane.trace) rfl,
    outcome_bind_ok (s := t) (a := ()) (t := t.counted (t.lane.steps + 1) t.lane.trace) rfl,
    outcome_bind_ok (x := get) (a := s.counted (s.lane.steps + 1) s.lane.trace) rfl,
    outcome_bind_ok (x := get) (a := t.counted (t.lane.steps + 1) t.lane.trace) rfl]
  dsimp only [State.counted]
  rw [h.lanes.index, h.lanes.steps]
  split
  · exact .some (.stop ⟨rfl, h.lanes.entry, rfl, h.lanes.io, h.lanes.globals, h.lanes.size⟩)
  · split
    · exact .some (.value ⟨_, _, rfl, rfl⟩)
    · exact .some (.value ⟨_, _, rfl, rfl⟩)

end Runs

/-! ## Code that leaves the stack alone -/

section Steady

open Exec

variable {α β : Type} {d : Pair} {σ τ : LaneStack}

/-- Lanes abreast with the stacks `σ` and `τ`, in front of code that finds its regions. What the
variable with the stack pointer holds, if it is there, is `o`. -/
structure Undisturbed (d : Pair) (σ τ : LaneStack) (o : Option Datum) (s t : State) : Prop
    extends Abreast s t, Anchored d s where
  own : s.lane.stack = σ
  other : t.lane.stack = τ
  sp : s.vars.lookup spVar = o

/-- The computation comes to the same whatever the words of the stacks are, and changes neither of
the stacks. -/
def Steady (d : Pair) (σ τ : LaneStack) (x : Exec α) : Prop :=
  ∀ o s t, Undisturbed d σ τ o s t →
    Together (fun _ => Undisturbed d σ τ o) (outcome x s) (outcome x t)

namespace Steady

theorem pure (a : α) : Steady d σ τ (Pure.pure a) := fun _ _ _ h => .some (.value h)

theorem bind {x : Exec α} {f : α → Exec β} (hx : Steady d σ τ x) (hf : ∀ a, Steady d σ τ (f a)) :
    Steady d σ τ (x >>= f) :=
  fun o s t h => (hx o s t h).bind fun a s' t' h' => hf a o s' t' h'

theorem throw (e : Stop) : Steady d σ τ (MonadExcept.throw e : Exec α) :=
  fun _ _ _ h => together_throw h.lanes.toEqOffStack e

theorem trap (code : TrapCode) : Steady d σ τ (Exec.trap code : Exec α) :=
  fun _ _ _ h => .some (.stop (h.offStack.trapped code).lanes)

theorem value (env : Env) {e : Expr} (he : e.Apart) : Steady d σ τ (Exec.value env e) := by
  intro o s t h
  refine (h.offStack.value env (h.offStack.eval env.exe.layout e he)).mono ?_
  rintro v s' t' ⟨-, rfl, rfl⟩
  exact h

theorem values (env : Env) {es : List Expr} (hes : AllApart es) :
    Steady d σ τ (Exec.values env es) := by
  intro o s t h
  refine (h.offStack.values env hes).mono ?_
  rintro v s' t' ⟨-, rfl, rfl⟩
  exact h

theorem assign {name : String} (hname : name ∉ baseNames) (hsp : name ≠ spVar) (v : Datum) :
    Steady d σ τ (Exec.assign name v) := by
  intro o s t h
  refine (h.toAbreast.assign h.toAnchored hname v).mono ?_
  rintro _ _ _ ⟨vars, hset, rfl, rfl⟩
  refine ⟨h.toAbreast.withVars vars, h.toAnchored.withVars (clear_set hset h.clear), h.own, h.other,
    ?_⟩
  change vars.lookup spVar = o
  rw [Vars.lookup_set? hset, if_neg (Ne.symm hsp), h.sp]

theorem assignAll {names : List String} (hnames : ∀ n ∈ names, n ∉ baseNames)
    (hsp : ∀ n ∈ names, n ≠ spVar) (vs : List Datum) : Steady d σ τ (Exec.assignAll names vs) := by
  induction names generalizing vs with
  | nil => cases vs <;> exact pure ()
  | cons name names ih =>
      cases vs with
      | nil => exact pure ()
      | cons v vs =>
          obtain ⟨hname, hnames⟩ := List.forall_mem_cons.mp hnames
          obtain ⟨hne, hsp⟩ := List.forall_mem_cons.mp hsp
          exact (assign hname hne v).bind fun _ => ih hnames hsp vs

theorem store {buffer : String} (hbuffer : buffer ≠ stackBuffer) (idx v : UInt32) :
    Steady d σ τ (Exec.store buffer idx v) := by
  intro o s t h
  refine (h.offStack.store buffer idx v).mono ?_
  rintro _ _ _ ⟨r, i, hlocate, rfl, rfl⟩
  have hr : r ≠ .stack := by
    rintro rfl
    exact hbuffer (eq_stackBuffer (ofBuffer?_of_locate hlocate))
  have hlanes := h.lanes.setWord r i v
  cases r with
  | stack => exact absurd rfl hr
  | io | globals =>
      exact ⟨⟨hlanes, h.vars, h.privates⟩, ⟨h.index, h.size, h.bases, h.clear⟩, h.own, h.other, h.sp⟩

theorem checkCancelled (env : Env) : Steady d σ τ (Exec.checkCancelled env) := by
  intro o s t h
  refine (h.toAbreast.checkCancelled env).mono ?_
  rintro _ _ _ ⟨rfl, rfl⟩
  exact h

theorem dispatch (env : Env) (id : BlockId) : Steady d σ τ (Exec.dispatch env id) := by
  intro o s t h
  refine (h.toAbreast.dispatch env id).mono ?_
  rintro _ _ _ ⟨trace, trace', rfl, rfl⟩
  exact ⟨⟨{ h.lanes with steps := congrArg (· + 1) h.lanes.steps }, h.vars, h.privates⟩,
    ⟨h.index, h.size, h.bases, h.clear⟩, h.own, h.other, h.sp⟩

theorem resultsOf (f : Shader.Function) (flow : Flow) : Steady d σ τ (Exec.resultsOf f flow) := by
  cases flow with
  | ret values => exact pure values
  | next =>
      rw [Exec.resultsOf]
      split
      · exact pure []
      · exact throw _
  | leave label | again label => exact throw _

/-- A function with variables of its own. Where it ends, the caller's are back. -/
theorem framed {x : Exec Flow} (hx : Steady d σ τ x) {f : Shader.Function}
    (hf : ∀ v ∈ f.params ++ f.locals, v.name ∉ baseNames) (args : List Datum) :
    Steady d σ τ (bare.framed f args x) := by
  have hframed : Steady d σ τ (do
      let outer := (← get).vars
      modify fun s : State => { s with vars := Exec.frame f args }
      let flow ← x
      modify fun s : State => { s with vars := outer }
      Exec.resultsOf f flow) := by
    intro o s t h
    have hframe := clear_frame hf args
    rw [outcome_bind_ok (a := s) (t := s) rfl, outcome_bind_ok (a := t) (t := t) rfl,
      outcome_bind_ok (a := ()) (t := { s with vars := Exec.frame f args }) rfl,
      outcome_bind_ok (a := ()) (t := { t with vars := Exec.frame f args }) rfl]
    refine (hx _ _ _
      ⟨h.toAbreast.withVars _, h.toAnchored.withVars hframe, h.own, h.other, rfl⟩).bind ?_
    intro flow s' t' h'
    have hback : Undisturbed d σ τ o { s' with vars := s.vars } { t' with vars := s.vars } :=
      ⟨h'.toAbreast.withVars s.vars, h'.toAnchored.withVars h.clear, h'.own, h'.other, h.sp⟩
    rw [outcome_bind_ok (a := ()) (t := { s' with vars := s.vars }) rfl, h.vars,
      outcome_bind_ok (a := ()) (t := { t' with vars := s.vars }) rfl]
    exact resultsOf f flow o _ _ hback
  rw [Exec.framed_bare]
  split
  · exact (throw _).bind fun _ => hframed
  · exact hframed

/-- The functions that may be called leave the stack alone. -/
def Calls (m : Shader.Module) (P : CallSite → Prop) : Prop :=
  ∀ c, P c → ∀ f, m.function? c.func = some f → StmtsApart f.body

section Code

variable {P : CallSite → Prop} {W : String → Prop} {env : Env}

theorem apart_part {st : Stmt} (h : st.Apart) {part : List Stmt} (hpart : part ∈ st.parts) :
    ∀ s ∈ part, s.Apart := by
  rw [← Shader.stmtsApart_iff]
  cases st with
  | ifElse cond body alternative =>
      rw [Stmt.Apart] at h
      rcases List.mem_pair.mp hpart with rfl | rfl
      · exact h.2.1
      · exact h.2.2
  | block label body | loop label body =>
      rw [Stmt.Apart] at h
      exact List.mem_singleton.mp hpart ▸ h
  | switch selector cases fallback =>
      rw [Stmt.Apart] at h
      rcases List.mem_append.mp hpart with hcase | hfallback
      · obtain ⟨c, hc, rfl⟩ := List.mem_map.mp hcase
        exact Shader.casesApart_iff.mp h.2.1 c hc
      · exact List.mem_singleton.mp hfallback ▸ h.2.2
  | _ => cases hpart

theorem apart_test {st : Stmt} (h : st.Apart) {e : Expr} (he : st.test? = some e) : e.Apart := by
  cases st with
  | ifElse | switch =>
      rw [Stmt.Apart] at h
      cases he
      exact h.1
  | _ => cases he

theorem simple (env : Env) {st : Stmt} (hlawful : st.Lawful P W) (h : st.Apart)
    (hst : st.isSimple) : Steady d σ τ (stmt env 1 st) := by
  cases st with
  | ifElse | block | loop | switch | call => cases hst
  | assign name e =>
      rw [Stmt.Lawful] at hlawful
      rw [Stmt.Apart] at h
      rw [stmt]
      exact (value env h.2).bind fun v => (assign hlawful.1 h.1 v).bind fun _ => pure _
  | store buffer index e =>
      rw [Stmt.Apart] at h
      rw [stmt]
      exact (value env h.2.1).bind fun i => (value env h.2.2).bind fun v =>
        (store h.1 i.x v.x).bind fun _ => pure _
  | ret es =>
      rw [Stmt.Apart] at h
      rw [stmt]
      exact (values env h).bind fun vs => pure _
  | leave label => rw [stmt]; exact pure _
  | again label => rw [stmt]; exact pure _
  | trap code => rw [stmt]; exact trap _
  | absent => rw [stmt]; exact throw _

theorem receive {results : List String} (hnames : ∀ n ∈ results, n ∉ baseNames)
    (hsp : ∀ n ∈ results, n ≠ spVar) (name : String) (got : List Datum) :
    Steady d σ τ (Exec.receive name results got) := by
  unfold Exec.receive
  split
  · exact (throw _).bind fun _ => assignAll hnames hsp got
  · exact assignAll hnames hsp got

/-- The steps of code that leaves the stack alone come to the same whatever the words of the stack
are. -/
theorem preserved (hlawful : Lawful env.exe.module P W) (hcalls : Calls env.exe.module P) :
    Preserved bare bare env env 0 (fun (_ : Unit) st => st.Lawful P W ∧ st.Apart)
      (fun _ f => f.Lawful P W ∧ StmtsApart f.body) (fun _ {_} x _ => Steady d σ τ x) where
  exe := rfl
  part hst hpart s hs := ⟨lawful_part hst.1 hpart s hs, apart_part hst.2 hpart s hs⟩
  body hf s hs := ⟨Shader.stmtsLawful_iff.mp hf.1.body s hs, Shader.stmtsApart_iff.mp hf.2 s hs⟩
  pure := pure
  bind := bind
  outOfFuel _ _ := throw _
  reached := pure ()
  checkCancelled := checkCancelled env
  dispatch _ _ := dispatch env _
  called hst hf := by
    obtain ⟨hst, -⟩ := hst
    rw [Stmt.Lawful] at hst
    exact ⟨(), ⟨hlawful _ hst.1 _ hf, hcalls _ hst.1 _ hf⟩, fun _ _ => id⟩
  simple hst := simple env hst.1 hst.2
  test hst he := value env (apart_test hst.2 he)
  undefined _ := throw _
  values hst := by
    obtain ⟨-, hst⟩ := hst
    rw [Stmt.Apart] at hst
    exact values env hst.1
  receive hst got := by
    obtain ⟨hst, hapart⟩ := hst
    rw [Stmt.Lawful] at hst
    rw [Stmt.Apart] at hapart
    exact receive hst.2.2 hapart.2 _ got
  framed hf hx args := hx.framed hf.1.vars args

/-- Code that leaves the stack alone comes to the same whatever the words of the stack are. -/
theorem run (hlawful : Lawful env.exe.module P W) (hcalls : Calls env.exe.module P) {ss : List Stmt}
    (hss : StmtsLawful P W ss) (hapart : StmtsApart ss) (n : Nat) :
    Steady d σ τ (stmts env n ss) :=
  ((preserved hlawful hcalls).run_bare n ()).1 ss fun s hs =>
    ⟨Shader.stmtsLawful_iff.mp hss s hs, Shader.stmtsApart_iff.mp hapart s hs⟩

end Code

end Steady

end Steady

end WasmShader.Execution
