import WasmShader.Proofs.Instruments
import WasmShader.Proofs.Partiality

/-!
# What statements mean without fuel

`Exec` bounds the depth of an evaluation by fuel. A run that ends within its fuel ends
the same way with more, so statements have a meaning that no longer mentions it:
`meaning` is the end of the run with enough fuel, or `none` if no fuel is enough. The
equations of this module say what each form of statement means in terms of its parts,
and later proofs use only these.
-/

namespace WasmShader.Execution

open Shader

variable {α β : Type}

/-- How a run ended and the state behind it. -/
abbrev Ending (α : Type) := Except Stop α × State

/-- The end of a run, none if it was cut off. -/
def Ending.settle : Ending α → Option (Ending α)
  | (.error .outOfFuel, _) => none
  | r => some r

/-- Goes on behind a run that ended without a stop. -/
def andThen (k : α → State → Option (Ending β)) : Ending α → Option (Ending β)
  | (.ok a, s) => k a s
  | (.error e, s) => some (.error e, s)

namespace Exec

/-- What a computation comes to. -/
def outcome (x : Exec α) (s : State) : Option (Ending α) := Ending.settle (x.run.run s)

theorem outcome_pure (a : α) (s : State) : outcome (pure a) s = some (.ok a, s) := rfl

theorem outcome_bind (x : Exec α) (f : α → Exec β) (s : State) :
    outcome (x >>= f) s = (outcome x s).bind (andThen fun a => outcome (f a)) := by
  have hrun : (x >>= f).run.run s = match x.run.run s with
      | (.ok a, s') => (f a).run.run s'
      | (.error e, s') => (.error e, s') := by
    change (match x.run.run s with | (r, s') => ((ExceptT.bindCont f r).run s' : Ending β)) = _
    rcases x.run.run s with ⟨r, s'⟩
    cases r <;> rfl
  unfold outcome
  rw [hrun]
  rcases x.run.run s with ⟨r, s'⟩
  cases r with
  | ok a => rfl
  | error e => cases e <;> rfl

theorem outcome_bind_ok {x : Exec α} {f : α → Exec β} {a : α} {s t : State}
    (h : outcome x s = some (.ok a, t)) : outcome (x >>= f) s = outcome (f a) t := by
  rw [outcome_bind, h]; rfl

theorem outcome_bind_error {x : Exec α} {f : α → Exec β} {e : Stop} {s t : State}
    (h : outcome x s = some (.error e, t)) : outcome (x >>= f) s = some (.error e, t) := by
  rw [outcome_bind, h]; rfl

/-! ## Limits -/

/-- Whatever `x` comes to, `y` comes to. -/
def Below (x y : Exec α) : Prop := ∀ s r, outcome x s = some r → outcome y s = some r

theorem Below.refl (x : Exec α) : Below x x := fun _ _ h => h

theorem Below.bind {x y : Exec α} {f g : α → Exec β} (hxy : Below x y)
    (hfg : ∀ a, Below (f a) (g a)) : Below (x >>= f) (y >>= g) := by
  intro s r h
  rw [outcome_bind] at h ⊢
  obtain ⟨⟨ra, s'⟩, hx, hf⟩ := Option.bind_eq_some_iff.mp h
  rw [hxy s _ hx]
  cases ra with
  | ok a => exact hfg a s' r hf
  | error e => exact hf

theorem below_outOfFuel (y : Exec α) : Below (throw .outOfFuel) y := by
  intro s r h
  cases h

/-- More fuel keeps an end. -/
def Growing (x : Nat → Exec α) : Prop := ∀ n, Below (x n) (x (n + 1))

theorem Growing.le {x : Nat → Exec α} (hx : Growing x) {n m : Nat} (hle : n ≤ m) :
    Below (x n) (x m) := by
  induction hle with
  | refl => exact Below.refl _
  | step _ ih => exact fun s r h => hx _ s r (ih s r h)

/-- What a family of computations comes to with enough fuel. -/
noncomputable def limit (x : Nat → Exec α) (s : State) : Option (Ending α) :=
  eventual fun n => outcome (x n) s

theorem limit_eq_some_iff {x : Nat → Exec α} (hx : Growing x) {s : State} {r : Ending α} :
    limit x s = some r ↔ ∃ n, outcome (x n) s = some r :=
  eventual_eq_some_iff (x := fun n => outcome (x n) s) fun n r => hx n s r

theorem limit_const (x : Exec α) (s : State) : limit (fun _ => x) s = outcome x s := by
  apply Option.ext
  intro r
  rw [limit_eq_some_iff (fun _ => Below.refl _)]
  exact ⟨fun ⟨_, h⟩ => h, fun h => ⟨0, h⟩⟩

theorem limit_succ {x : Nat → Exec α} (hx : Growing x) (s : State) :
    limit (fun n => x (n + 1)) s = limit x s := by
  apply Option.ext
  intro r
  rw [limit_eq_some_iff hx, limit_eq_some_iff (fun n => hx (n + 1))]
  exact ⟨fun ⟨n, h⟩ => ⟨n + 1, h⟩, fun ⟨n, h⟩ => ⟨n, hx n s r h⟩⟩

theorem limit_bind {x : Nat → Exec α} {f : Nat → α → Exec β} (hx : Growing x)
    (hf : ∀ a, Growing fun n => f n a) (s : State) :
    limit (fun n => x n >>= f n) s
      = (limit x s).bind (andThen fun a => limit fun n => f n a) := by
  have hxf : Growing fun n => x n >>= f n := fun n => (hx n).bind fun a => hf a n
  apply Option.ext
  intro r
  rw [limit_eq_some_iff hxf, Option.bind_eq_some_iff]
  constructor
  · rintro ⟨n, hn⟩
    rw [outcome_bind] at hn
    obtain ⟨⟨ra, s'⟩, hxn, hfn⟩ := Option.bind_eq_some_iff.mp hn
    refine ⟨(ra, s'), (limit_eq_some_iff hx).mpr ⟨n, hxn⟩, ?_⟩
    cases ra with
    | ok a => exact (limit_eq_some_iff (hf a)).mpr ⟨n, hfn⟩
    | error e => exact hfn
  · rintro ⟨⟨ra, s'⟩, hxl, hfl⟩
    obtain ⟨n, hn⟩ := (limit_eq_some_iff hx).mp hxl
    cases ra with
    | ok a =>
        obtain ⟨m, hm⟩ := (limit_eq_some_iff (hf a)).mp hfl
        refine ⟨max n m, ?_⟩
        rw [outcome_bind, hx.le (Nat.le_max_left n m) s _ hn]
        exact (hf a).le (Nat.le_max_right n m) s' r hm
    | error e =>
        refine ⟨n, ?_⟩
        rw [outcome_bind, hn]
        exact hfl

theorem limit_of_outcome {x : Nat → Exec β} {y : Nat → Exec α} {s s' : State}
    {k : α → State → Option (Ending β)} (hx : Growing x) (hy : Growing y)
    (h : ∀ n, outcome (x n) s = (outcome (y n) s').bind (andThen k)) :
    limit x s = (limit y s').bind (andThen k) := by
  apply Option.ext
  intro r
  rw [limit_eq_some_iff hx, Option.bind_eq_some_iff]
  constructor
  · rintro ⟨n, hn⟩
    rw [h] at hn
    obtain ⟨a, hy', hk⟩ := Option.bind_eq_some_iff.mp hn
    exact ⟨a, (limit_eq_some_iff hy).mpr ⟨n, hy'⟩, hk⟩
  · rintro ⟨a, hy', hk⟩
    obtain ⟨n, hn⟩ := (limit_eq_some_iff hy).mp hy'
    exact ⟨n, by rw [h, hn]; exact hk⟩

/-! ## More fuel -/

attribute [grind =] stmts stmt loop call

theorem stmts_zero (env : Env) (ss : List Stmt) : stmts env 0 ss = throw .outOfFuel := by
  cases ss <;> rw [stmts]

/-- One more unit of fuel keeps every end. -/
theorem preserved_below (env : Env) :
    Preserved bare bare env env 1 (fun (_ : Unit) _ => True) (fun _ _ => True)
      (fun _ {_} => Below) :=
  Composes.preserved
    { exe := rfl
      part := fun _ _ _ _ => trivial
      body := fun _ _ _ => trivial
      pure := fun _ => .refl _
      bind := Below.bind
      outOfFuel := fun y _ => below_outOfFuel y
      reached := .refl _
      checkCancelled := .refl _
      dispatch := fun _ _ => .refl _
      called := fun _ _ => ⟨(), trivial, fun _ _ => id⟩ }
    fun _ => .refl _

theorem growing_stmts (env : Env) (ss : List Stmt) : Growing fun n => stmts env n ss :=
  fun n => ((preserved_below env).run_bare n ()).1 ss fun _ _ => trivial

theorem growing_stmt (env : Env) (st : Stmt) : Growing fun n => stmt env n st :=
  fun n => ((preserved_below env).run_bare n ()).2.1 st trivial

theorem growing_loop (env : Env) (label : String) (body : List Stmt) :
    Growing fun n => loop env n label body :=
  fun n => ((preserved_below env).run_bare n ()).2.2.1 label body fun _ _ => trivial

theorem growing_call (env : Env) (f : Shader.Function) (args : List Datum) :
    Growing fun n => call env n f args :=
  fun n => ((preserved_below env).run_bare n ()).2.2.2 f args trivial

end Exec

/-! ## Meanings -/

/-- What statements come to with enough fuel. -/
noncomputable def meaning (env : Env) (ss : List Stmt) : State → Option (Ending Flow) :=
  Exec.limit fun n => Exec.stmts env n ss

/-- What a statement comes to with enough fuel. -/
noncomputable def stmtMeaning (env : Env) (st : Stmt) : State → Option (Ending Flow) :=
  Exec.limit fun n => Exec.stmt env n st

/-- What a call comes to with enough fuel. -/
noncomputable def callMeaning (env : Env) (f : Shader.Function) (args : List Datum) :
    State → Option (Ending (List Datum)) :=
  Exec.limit fun n => Exec.call env n f args

/-- What a loop comes to with enough fuel. -/
noncomputable def loopMeaning (env : Env) (label : String) (body : List Stmt) :
    State → Option (Ending Flow) :=
  Exec.limit fun n => Exec.loop env n label body

/-! ## Sequences -/

/-- Goes on behind statements that ended in the ordinary way. -/
def onNext (k : State → Option (Ending Flow)) : Flow → State → Option (Ending Flow)
  | .next, s => k s
  | flow, s => some (.ok flow, s)

variable {env : Env} {s s' : State}

theorem meaning_nil : meaning env [] s = some (.ok .next, s) := by
  rw [meaning, ← Exec.limit_succ (Exec.growing_stmts env [])]
  simp only [Exec.stmts]
  exact Exec.limit_const _ s

theorem meaning_cons (st : Stmt) (rest : List Stmt) :
    meaning env (st :: rest) s
      = (stmtMeaning env st s).bind (andThen (onNext (meaning env rest))) := by
  rw [meaning, ← Exec.limit_succ (Exec.growing_stmts env _)]
  simp only [Exec.stmts]
  rw [Exec.limit_bind (Exec.growing_stmt env st)]
  · congr 1
    funext r
    obtain ⟨r, s'⟩ := r
    cases r with
    | error e => rfl
    | ok flow =>
        cases flow with
        | next => rfl
        | _ => exact Exec.limit_const _ s'
  · intro flow
    cases flow with
    | next => exact Exec.growing_stmts env rest
    | _ => exact fun _ => Exec.Below.refl _

theorem bind_andThen {x : Option (Ending Flow)} {k k' : State → Option (Ending Flow)} :
    (x.bind (andThen (onNext k))).bind (andThen (onNext k'))
      = x.bind (andThen (onNext fun s => (k s).bind (andThen (onNext k')))) := by
  cases x with
  | none => rfl
  | some r =>
      obtain ⟨r, s'⟩ := r
      cases r with
      | error e => rfl
      | ok flow => cases flow <;> rfl

theorem meaning_append (ss ts : List Stmt) :
    meaning env (ss ++ ts) s = (meaning env ss s).bind (andThen (onNext (meaning env ts))) := by
  induction ss generalizing s with
  | nil => rw [meaning_nil]; rfl
  | cons st rest ih =>
      rw [List.cons_append, meaning_cons, meaning_cons, bind_andThen]
      congr 3
      funext s
      exact ih

theorem meaning_cons_next {st : Stmt} {rest : List Stmt}
    (h : stmtMeaning env st s = some (.ok .next, s')) :
    meaning env (st :: rest) s = meaning env rest s' := by
  rw [meaning_cons, h]; rfl

theorem meaning_append_next {ss ts : List Stmt} (h : meaning env ss s = some (.ok .next, s')) :
    meaning env (ss ++ ts) s = meaning env ts s' := by
  rw [meaning_append, h]; rfl

theorem meaning_singleton (st : Stmt) : meaning env [st] s = stmtMeaning env st s := by
  rw [meaning_cons]
  cases hx : stmtMeaning env st s with
  | none => rfl
  | some r =>
      obtain ⟨r, s'⟩ := r
      cases r with
      | error e => rfl
      | ok flow =>
          cases flow with
          | next => exact meaning_nil
          | _ => rfl

/-! ## Single statements -/

/-- The state with a trap recorded. -/
def State.trapped (s : State) (code : TrapCode) : State :=
  { s with lane := { s.lane with stack := s.lane.stack.setTrap code } }

/-- The state with a variable changed, if there is one of that name. -/
def State.assign? (s : State) (name : String) (v : Datum) : Option State :=
  match s.vars.set? name v with
  | some vars => some { s with vars }
  | none => (s.privates.set? name v).map fun privates => { s with privates }

theorem stmtMeaning_of_succ {st : Stmt} {x : Exec Flow}
    (h : ∀ n, Exec.stmt env (n + 1) st = x) : stmtMeaning env st s = Exec.outcome x s := by
  rw [stmtMeaning, ← Exec.limit_succ (Exec.growing_stmt env st)]
  simp only [h]
  exact Exec.limit_const x s

theorem outcome_value_ok {e : Expr} {d : Datum} (h : eval env.exe.layout s e = .ok d) :
    Exec.outcome (Exec.value env e) s = some (.ok d, s) := by
  have : (Exec.value env e).run.run s = (.ok d, s) := by
    change (Exec.ofExcept (eval env.exe.layout s e)).run.run s = _
    rw [h]; rfl
  rw [Exec.outcome, this]; rfl

theorem outcome_value_trap {e : Expr} {code : TrapCode}
    (h : eval env.exe.layout s e = .error (.trap code)) :
    Exec.outcome (Exec.value env e) s = some (.error (.trap code), s.trapped code) := by
  have : (Exec.value env e).run.run s = (.error (.trap code), s.trapped code) := by
    change (Exec.ofExcept (eval env.exe.layout s e)).run.run s = _
    rw [h]; rfl
  rw [Exec.outcome, this]; rfl

theorem outcome_values_ok {es : List Expr} {ds : List Datum}
    (h : evalAll env.exe.layout s es = .ok ds) :
    Exec.outcome (Exec.values env es) s = some (.ok ds, s) := by
  have : (Exec.values env es).run.run s = (.ok ds, s) := by
    change (Exec.ofExcept (evalAll env.exe.layout s es)).run.run s = _
    rw [h]; rfl
  rw [Exec.outcome, this]; rfl

theorem outcome_assign {name : String} {v : Datum} (h : s.assign? name v = some s') :
    Exec.outcome (Exec.assign name v) s = some (.ok (), s') := by
  have hrun : (Exec.assign name v).run.run s = (.ok (), s') := by
    unfold State.assign? at h
    change (ExceptT.run (match s.vars.set? name v with
      | some vars => set { s with vars }
      | none => match s.privates.set? name v with
        | some privates => set { s with privates }
        | none => Exec.fault ("assignment to undefined variable " ++ Text.quote name))).run s = _
    split at h
    · cases h; rfl
    · obtain ⟨privates, hp, rfl⟩ := Option.map_eq_some_iff.mp h
      rw [hp]; rfl
  rw [Exec.outcome, hrun]; rfl

theorem stmtMeaning_assign {name : String} {e : Expr} {d : Datum}
    (he : eval env.exe.layout s e = .ok d) (hs : s.assign? name d = some s') :
    stmtMeaning env (.assign name e) s = some (.ok .next, s') := by
  rw [stmtMeaning_of_succ fun n => by rw [Exec.stmt],
    Exec.outcome_bind_ok (outcome_value_ok he), Exec.outcome_bind_ok (outcome_assign hs)]
  rfl

theorem outcome_store {buffer : String} {idx v : UInt32} {r : Region} {k : Nat}
    (hat : s.lane.locate buffer idx = .ok (r, k)) :
    Exec.outcome (Exec.store buffer idx v) s
      = some (.ok (), { s with lane := s.lane.setWord r k v }) := by
  have hrun : (Exec.store buffer idx v).run.run s
      = (.ok (), { s with lane := s.lane.setWord r k v }) := by
    change ((Exec.ofExcept (s.lane.locate buffer idx) >>= fun place =>
      modify fun s => { s with lane := s.lane.setWord place.1 place.2 v } : Exec Unit).run.run s) = _
    rw [hat]; rfl
  rw [Exec.outcome, hrun]; rfl

theorem stmtMeaning_store {buffer : String} {index e : Expr} {i v : Datum} {r : Region} {k : Nat}
    (hi : eval env.exe.layout s index = .ok i) (he : eval env.exe.layout s e = .ok v)
    (hat : s.lane.locate buffer i.x = .ok (r, k)) :
    stmtMeaning env (.store buffer index e) s
      = some (.ok .next, { s with lane := s.lane.setWord r k v.x }) := by
  rw [stmtMeaning_of_succ fun n => by rw [Exec.stmt],
    Exec.outcome_bind_ok (outcome_value_ok hi), Exec.outcome_bind_ok (outcome_value_ok he),
    Exec.outcome_bind_ok (outcome_store hat)]
  rfl

theorem stmtMeaning_leave (label : String) :
    stmtMeaning env (.leave label) s = some (.ok (.leave label), s) := by
  rw [stmtMeaning_of_succ fun n => by rw [Exec.stmt]]; rfl

theorem stmtMeaning_again (label : String) :
    stmtMeaning env (.again label) s = some (.ok (.again label), s) := by
  rw [stmtMeaning_of_succ fun n => by rw [Exec.stmt]]; rfl

theorem stmtMeaning_ret {es : List Expr} {ds : List Datum}
    (h : evalAll env.exe.layout s es = .ok ds) :
    stmtMeaning env (.ret es) s = some (.ok (.ret ds), s) := by
  rw [stmtMeaning_of_succ fun n => by rw [Exec.stmt],
    Exec.outcome_bind_ok (outcome_values_ok h)]
  rfl

theorem stmtMeaning_trap (code : UInt32) :
    stmtMeaning env (.trap code) s = some (.error (.trap ⟨code⟩), s.trapped ⟨code⟩) := by
  rw [stmtMeaning_of_succ fun n => by rw [Exec.stmt]]; rfl

/-! ## Constructs -/

theorem stmtMeaning_ifElse {cond : Expr} {body alternative : List Stmt} {c : Datum}
    (hc : eval env.exe.layout s cond = .ok c) :
    stmtMeaning env (.ifElse cond body alternative) s
      = if c.truth then meaning env body s else meaning env alternative s := by
  rw [stmtMeaning, ← Exec.limit_succ (Exec.growing_stmt env _)]
  simp only [Exec.stmt]
  rw [Exec.limit_bind (fun _ => Exec.Below.refl _), Exec.limit_const, outcome_value_ok hc]
  · change (Exec.limit fun n => if c.truth then _ else _) s = _
    split
    · rfl
    · rfl
  · exact fun c n => ite_related (R := Exec.Below) (Exec.growing_stmts env _ n)
      (Exec.growing_stmts env _ n)

/-- What a block makes of the flow of its body. -/
def catchLeave (label : String) : Flow → Flow
  | .leave l => if l = label then .next else .leave l
  | flow => flow

theorem stmtMeaning_block (label : String) (body : List Stmt) :
    stmtMeaning env (.block label body) s
      = (meaning env body s).bind (andThen fun flow s' => some (.ok (catchLeave label flow), s')) := by
  rw [stmtMeaning, ← Exec.limit_succ (Exec.growing_stmt env _)]
  simp only [Exec.stmt]
  rw [Exec.limit_bind (Exec.growing_stmts env body) fun _ _ => Exec.Below.refl _]
  congr 2
  funext flow s'
  rw [Exec.limit_const]
  cases flow with
  | leave l => simp only [catchLeave]; split <;> rfl
  | _ => rfl

theorem stmtMeaning_switch {selector : Expr} {cases : List Case} {fallback : List Stmt}
    {v : Datum} (hv : eval env.exe.layout s selector = .ok v) :
    stmtMeaning env (.switch selector cases fallback) s
      = match cases.find? (·.values.contains v.x) with
        | some c => meaning env c.body s
        | none => meaning env fallback s := by
  rw [stmtMeaning, ← Exec.limit_succ (Exec.growing_stmt env _)]
  simp only [Exec.stmt]
  rw [Exec.limit_bind (fun _ => Exec.Below.refl _), Exec.limit_const, outcome_value_ok hv]
  · change Exec.limit _ s = _
    cases cases.find? (·.values.contains v.x) with
    | some c => rfl
    | none => rfl
  · intro v n
    dsimp only
    split
    · exact Exec.growing_stmts env _ n
    · exact Exec.growing_stmts env _ n

/-- What the end of a loop's body means for the loop: it is left, or goes on. -/
def roundEnd (label : String) : Ending Flow → State ⊕ Ending Flow
  | (.ok .next, s) => .inl s
  | (.ok (.again l), s) => if l = label then .inl s else .inr (.ok (.again l), s)
  | (.ok flow, s) => .inr (.ok (catchLeave label flow), s)
  | (.error e, s) => .inr (.error e, s)

/-- One round of a loop. -/
noncomputable def loopRound (env : Env) (label : String) (body : List Stmt) (s : State) :
    Option (State ⊕ Ending Flow) :=
  (meaning env body s).map (roundEnd label)

theorem outcome_checkCancelled (hc : env.cancelled = false) :
    Exec.outcome (Exec.checkCancelled env) s = some (.ok (), s) := by
  rw [Exec.checkCancelled, hc]; rfl

theorem loopMeaning_unfold (hc : env.cancelled = false) (label : String) (body : List Stmt) :
    loopMeaning env label body s
      = (loopRound env label body s).bind fun
        | .inl s' => loopMeaning env label body s'
        | .inr r => some r := by
  rw [loopMeaning, ← Exec.limit_succ (Exec.growing_loop env label body)]
  simp only [Exec.loop]
  have hagain : Exec.Growing fun n =>
      Exec.checkCancelled env >>= fun _ => Exec.loop env n label body :=
    fun n => (Exec.Below.refl _).bind fun _ => Exec.growing_loop env label body n
  have hlimit (s' : State) : Exec.limit (fun n =>
      Exec.checkCancelled env >>= fun _ => Exec.loop env n label body) s'
        = loopMeaning env label body s' := by
    rw [Exec.limit_bind (fun _ => Exec.Below.refl _) (fun _ => Exec.growing_loop env label body),
      Exec.limit_const, outcome_checkCancelled hc]
    rfl
  rw [Exec.limit_bind (Exec.growing_stmts env body)]
  · change (meaning env body s).bind _ = _
    rw [loopRound, Option.bind_map]
    congr 1
    funext r
    obtain ⟨r, s'⟩ := r
    cases r with
    | error e => rfl
    | ok flow =>
        cases flow with
        | next => exact hlimit s'
        | again l =>
            by_cases hl : l = label
            · simp only [andThen, Function.comp_apply, roundEnd, hl, if_true]; exact hlimit s'
            · simp only [andThen, Function.comp_apply, roundEnd, hl, if_false]; exact Exec.limit_const _ s'
        | leave l =>
            by_cases hl : l = label
            · simp only [andThen, Function.comp_apply, roundEnd, hl, if_true, catchLeave]
              exact Exec.limit_const _ s'
            · simp only [andThen, Function.comp_apply, roundEnd, hl, if_false, catchLeave]
              exact Exec.limit_const _ s'
        | ret vs => exact Exec.limit_const _ s'
  · intro flow
    cases flow with
    | next => exact hagain
    | again l => exact fun n =>
        ite_related (R := Exec.Below) (hagain n) (Exec.Below.refl _)
    | _ => exact fun _ => Exec.Below.refl _

theorem loopMeaning_of_outcome (hc : env.cancelled = false) {label : String} {body : List Stmt}
    {n : Nat} {r : Ending Flow} (h : Exec.outcome (Exec.loop env n label body) s = some r) :
    untilDone (loopRound env label body) s = some r := by
  induction n generalizing s with
  | zero => rw [Exec.loop] at h; cases h
  | succ n ih =>
      rw [Exec.loop, Exec.outcome_bind] at h
      obtain ⟨⟨rf, s'⟩, hbody, hk⟩ := Option.bind_eq_some_iff.mp h
      have hmeans : meaning env body s = some (rf, s') :=
        (Exec.limit_eq_some_iff (Exec.growing_stmts env body)).mpr ⟨n, hbody⟩
      have hround : loopRound env label body s = some (roundEnd label (rf, s')) := by
        rw [loopRound, hmeans]; rfl
      have hgo (s'' : State) (hk : Exec.outcome (do
          Exec.checkCancelled env; Exec.loop env n label body) s'' = some r) :
          untilDone (loopRound env label body) s'' = some r := by
        rw [Exec.outcome_bind_ok (outcome_checkCancelled hc)] at hk
        exact ih hk
      cases rf with
      | error e => rw [untilDone_of_done hround]; exact hk
      | ok flow =>
          cases flow with
          | next => rw [untilDone_of_next hround]; exact hgo s' hk
          | again l =>
              by_cases hl : l = label
              · simp only [roundEnd, hl, if_true] at hround
                rw [untilDone_of_next hround]
                simp only [andThen, hl, if_true] at hk
                exact hgo s' hk
              · simp only [roundEnd, hl, if_false] at hround
                rw [untilDone_of_done hround]
                simp only [andThen, hl, if_false] at hk
                exact hk
          | leave l =>
              rw [untilDone_of_done hround]
              by_cases hl : l = label
              · simp only [andThen, hl, if_true] at hk
                simp only [catchLeave, hl, if_true]; exact hk
              · simp only [andThen, hl, if_false] at hk
                simp only [catchLeave, hl, if_false]; exact hk
          | ret vs => rw [untilDone_of_done hround]; exact hk

/-- A loop repeats its rounds. -/
theorem stmtMeaning_loop (hc : env.cancelled = false) (label : String) (body : List Stmt) :
    stmtMeaning env (.loop label body) s = untilDone (loopRound env label body) s := by
  have hloop : stmtMeaning env (.loop label body) s = loopMeaning env label body s := by
    rw [stmtMeaning, ← Exec.limit_succ (Exec.growing_stmt env _)]
    simp only [Exec.stmt]
    rfl
  rw [hloop]
  apply Option.ext
  intro r
  constructor
  · intro h
    obtain ⟨n, hn⟩ := (Exec.limit_eq_some_iff (Exec.growing_loop env label body)).mp h
    exact loopMeaning_of_outcome hc hn
  · intro h
    obtain ⟨n, hn⟩ := untilDone_eq_some_iff.mp h
    clear h hloop
    induction n generalizing s with
    | zero => cases hn
    | succ n ih =>
        rw [loopMeaning_unfold hc]
        rw [within] at hn
        split at hn
        · cases hn
        · next heq => rw [heq]; exact ih hn
        · next heq => rw [heq]; exact hn

/-! ## Calls -/

/-- A call runs the body of the function with variables of its own. -/
theorem callMeaning_eq {f : Shader.Function} {args : List Datum}
    (hlen : args.length = f.params.length) :
    callMeaning env f args s
      = (meaning env f.body { s with vars := Exec.frame f args }).bind (andThen fun flow s' =>
          Exec.outcome (Exec.resultsOf f flow) { s' with vars := s.vars }) := by
  rw [callMeaning, ← Exec.limit_succ (Exec.growing_call env f args)]
  refine Exec.limit_of_outcome (fun n => Exec.growing_call env f args (n + 1))
    (Exec.growing_stmts env f.body) fun n => ?_
  simp only [Exec.call, hlen, ne_eq, not_true_eq_false, if_false]
  rw [Exec.outcome_bind_ok (a := s) (t := s) rfl]
  rw [Exec.outcome_bind_ok (a := ()) (t := { s with vars := Exec.frame f args }) rfl]
  rw [Exec.outcome_bind]
  rfl

/-- What happens in front of a call: a block that is about to run is accounted for. -/
def beforeCall (env : Env) (name : String) : Exec Unit :=
  match env.exe.blockNamed? name with
  | some id => Exec.dispatch env id
  | none => pure ()

theorem stmtMeaning_call {name : String} {args : List Expr} {results : List String}
    {f : Shader.Function} {ds : List Datum} (hf : env.exe.module.function? name = some f)
    (hbefore : Exec.outcome (beforeCall env name) s = some (.ok (), s'))
    (hargs : evalAll env.exe.layout s' args = .ok ds) :
    stmtMeaning env (.call name args results) s
      = (callMeaning env f ds s').bind (andThen fun got s'' =>
          if got.length = results.length then
            (Exec.outcome (Exec.assignAll results got) s'').bind
              (andThen fun _ s₃ => some (.ok .next, s₃))
          else some (.error (.fault (name ++ " returned " ++ toString got.length
            ++ " values, want " ++ toString results.length)), s'')) := by
  rw [stmtMeaning, ← Exec.limit_succ (Exec.growing_stmt env _)]
  refine Exec.limit_of_outcome (fun n => Exec.growing_stmt env _ (n + 1))
    (Exec.growing_call env f ds) fun n => ?_
  have hstmt : Exec.stmt env (n + 1) (.call name args results) = (do
      beforeCall env name
      let vs ← Exec.values env args
      let got ← Exec.call env n f vs
      if got.length = results.length then do
        Exec.assignAll results got
        pure .next
      else Exec.fault (name ++ " returned " ++ toString got.length
            ++ " values, want " ++ toString results.length)) := by
    have htail : (do
        let vs ← Exec.values env args
        let got ← Exec.call env n f vs
        if got.length ≠ results.length then do
          Exec.fault (name ++ " returned " ++ toString got.length
            ++ " values, want " ++ toString results.length)
        Exec.assignAll results got
        pure Flow.next) = (do
        let vs ← Exec.values env args
        let got ← Exec.call env n f vs
        if got.length = results.length then do
          Exec.assignAll results got
          pure .next
        else Exec.fault (name ++ " returned " ++ toString got.length
            ++ " values, want " ++ toString results.length)) := by
      congr 1; funext vs
      congr 1; funext got
      by_cases hlen : got.length = results.length
      · simp only [hlen, ne_eq, not_true_eq_false, if_false, if_true]
      · simp only [hlen, ne_eq, not_false_eq_true, if_false, if_true]
        rfl
    rw [Exec.stmt, hf, beforeCall, ← htail]
    cases env.exe.blockNamed? name with
    | some id => rfl
    | none => rfl
  rw [hstmt, Exec.outcome_bind_ok hbefore, Exec.outcome_bind_ok (outcome_values_ok hargs),
    Exec.outcome_bind]
  congr 2
  funext got s''
  split
  · rw [Exec.outcome_bind]; rfl
  · rfl

end WasmShader.Execution
