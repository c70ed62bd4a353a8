import WasmShader.Proofs.Watching

/-!
# The step limit

A lane counts the blocks that run, from the start of an invocation on, through all requests to the
host. Under a limit the block that is one too many is not run: the invocation fails, and the lane
is free again. That is all that a limit does. Until then the run goes through the same events as
without a limit, and a run that stays within the limit is the very same run (`limit_only_cuts`).

The two runs are compared for the same fuel, whether they end within it or not. So nothing is
assumed about the run without a limit; if it goes on for ever, and counts blocks for ever, then with
fuel enough it has counted one too many.
-/

namespace WasmShader.Execution

open Shader

/-- The settings with another limit. -/
def Env.withLimit (env : Env) (n : Nat) : Env := { env with maxSteps := n }

/-- The failure of a lane that has counted a block too many. -/
def stepLimitReached (lane limit : Nat) : Failure :=
  .report
    { phase := .runtime, kind := .stepLimit
      detail := "lane " ++ toString lane ++ " exceeded " ++ toString limit ++ " dispatches"
      value := some (toString limit) }

/-- The events in front of the dispatch behind the first `n`. -/
def upTo : Nat → List Event → List Event
  | _, [] => []
  | n, .dispatched id s :: es =>
    match n with
    | 0 => []
    | n + 1 => .dispatched id s :: upTo n es
  | n, e :: es => e :: upTo n es

/-! ## Events under a limit -/

theorem dispatches_cons (e : Event) (es : List Event) :
    dispatches (e :: es) = (if e.isDispatch then 1 else 0) + dispatches es := by
  rw [dispatches, dispatches, List.countP_cons, Nat.add_comm]

theorem upTo_cons_of_not_dispatch {e : Event} (he : e.isDispatch = false) (n : Nat)
    (es : List Event) : upTo n (e :: es) = e :: upTo n es := by
  cases e with
  | dispatched id s => cases he
  | reached s => rfl
  | yielded p => rfl

/-- Events within the limit stay, and lower the limit for those behind them. -/
theorem upTo_append_of_le {n : Nat} {es : List Event} (h : dispatches es ≤ n)
    (es' : List Event) : upTo n (es ++ es') = es ++ upTo (n - dispatches es) es' := by
  induction es generalizing n with
  | nil => rfl
  | cons e es ih =>
      rw [dispatches_cons] at h ⊢
      cases he : e.isDispatch with
      | false =>
          rw [he] at h
          rw [List.cons_append, upTo_cons_of_not_dispatch he, ih (by simpa using h)]
          simp
      | true =>
          rw [he, if_pos rfl] at h
          obtain ⟨n, rfl⟩ : ∃ k, n = k + 1 := ⟨n - 1, by omega⟩
          cases e with
          | dispatched id s =>
              rw [List.cons_append, upTo, ih (by omega), if_pos rfl]
              congr 3
              omega
          | reached s => cases he
          | yielded p => cases he

/-- Behind a dispatch too many nothing is seen. -/
theorem upTo_append_of_lt {n : Nat} {es : List Event} (h : n < dispatches es)
    (es' : List Event) : upTo n (es ++ es') = upTo n es := by
  induction es generalizing n with
  | nil => cases h
  | cons e es ih =>
      rw [dispatches_cons] at h
      cases he : e.isDispatch with
      | false =>
          rw [he] at h
          rw [List.cons_append, upTo_cons_of_not_dispatch he, upTo_cons_of_not_dispatch he,
            ih (by simpa using h)]
      | true =>
          rw [he, if_pos rfl] at h
          cases e with
          | dispatched id s =>
              cases n with
              | zero => rfl
              | succ n => rw [List.cons_append, upTo, upTo, ih (by omega)]
          | reached s => cases he
          | yielded p => cases he

/-! ## Code under a limit -/

namespace Watched

variable {α β : Type} {N : Nat} {x y : Watched α} {s : State}

/-- What a run under a limit comes to, next to the run without one: they are the same, or the
limited one stops in front of a dispatch too many. -/
inductive Cut (N : Nat) (s : State) (full limited : List Event × Ending α) : Prop
  | whole : s.lane.steps + dispatches full.1 ≤ N → limited = full → Cut N s full limited
  | short : N < s.lane.steps + dispatches full.1 →
      limited.1 = upTo (N - s.lane.steps) full.1 →
      limited.2.1 = .error (.abort (.failed (stepLimitReached s.lane.index N))) →
      limited.2.2.lane.steps = N + 1 → Cut N s full limited

/-- The lane counts the blocks that are dispatched, and stays the lane that it is. -/
def Counts (x : Watched α) : Prop :=
  ∀ s, (x s).2.2.lane.steps = s.lane.steps + dispatches (x s).1
    ∧ (x s).2.2.lane.index = s.lane.index

/-- The second computation is the first one under the limit. -/
structure Capped (N : Nat) (x y : Watched α) : Prop where
  counts : Counts x
  cut : ∀ s, s.lane.steps ≤ N → Cut N s (x s) (y s)

/-- A computation that leaves the count and the number of the lane alone. -/
def Quiet (x : Exec α) : Prop :=
  ∀ s, (x.run.run s).2.lane.steps = s.lane.steps ∧ (x.run.run s).2.lane.index = s.lane.index

theorem Capped.pure (a : α) : Capped N (pure a : Watched α) (Pure.pure a) where
  counts _ := ⟨rfl, rfl⟩
  cut _ hs := .whole hs rfl

theorem Quiet.capped {x : Exec α} (h : Quiet x) : Capped N (look x) (look x) where
  counts := h
  cut _ hs := .whole hs rfl

theorem capped_see {event : State → Event} (h : ∀ s, (event s).isDispatch = false) :
    Capped N (see event) (see event) where
  counts s := by
    have hnone : dispatches [event s] = 0 := by rw [dispatches_cons, h]; rfl
    exact ⟨by change s.lane.steps = _ + dispatches [event s]; rw [hnone]; rfl, rfl⟩
  cut s hs := by
    have hnone : dispatches [event s] = 0 := by rw [dispatches_cons, h]; rfl
    exact .whole (by change s.lane.steps + dispatches [event s] ≤ N; rw [hnone]; exact hs) rfl

theorem Capped.bind {k l : α → Watched β} (h : Capped N x y) (hk : ∀ a, Capped N (k a) (l a)) :
    Capped N (x >>= k) (y >>= l) where
  counts s := by
    obtain ⟨hsteps, hindex⟩ := h.counts s
    change (Watched.bind x k s).2.2.lane.steps = _ + dispatches (Watched.bind x k s).1
      ∧ (Watched.bind x k s).2.2.lane.index = _
    rw [Watched.bind]
    generalize x s = rx at hsteps hindex ⊢
    obtain ⟨es, r, s'⟩ := rx
    cases r with
    | error e => exact ⟨hsteps, hindex⟩
    | ok a =>
        obtain ⟨hsteps', hindex'⟩ := (hk a).counts s'
        dsimp only at hsteps hindex ⊢
        rw [dispatches_append, hsteps', hindex', hsteps, hindex]
        exact ⟨by omega, rfl⟩
  cut s hs := by
    obtain ⟨hsteps, hindex⟩ := h.counts s
    have hcut := h.cut s hs
    change Cut N s (Watched.bind x k s) (Watched.bind y l s)
    rw [Watched.bind, Watched.bind]
    generalize x s = rx at hsteps hindex hcut ⊢
    obtain ⟨es, r, s'⟩ := rx
    generalize y s = ry at hcut ⊢
    dsimp only at hsteps hindex
    cases hcut with
    | whole hle heq =>
        subst heq
        dsimp only at hle
        cases r with
        | error e => exact .whole hle rfl
        | ok a =>
            -- the rest starts with what is left of the limit
            have hleft : N - s.lane.steps - dispatches es = N - s'.lane.steps := by omega
            dsimp only
            generalize hkl : l a s' = rl
            have hrest := (hk a).cut s' (by omega)
            rw [hkl] at hrest
            cases hrest with
            | whole hle' heq' =>
                refine .whole ?_ (by rw [heq'])
                dsimp only
                rw [dispatches_append]
                omega
            | short hlt hseen hend hcount =>
                refine .short ?_ ?_ ?_ hcount
                · dsimp only
                  rw [dispatches_append]
                  omega
                · dsimp only
                  rw [upTo_append_of_le (by omega), hleft, hseen]
                · dsimp only
                  rw [hend, hindex]
    | short hlt hseen hend hcount =>
        obtain ⟨es', r', s''⟩ := ry
        dsimp only at hlt hseen hend hcount
        subst hend
        dsimp only
        cases r with
        | error e => exact .short hlt hseen rfl hcount
        | ok a =>
            refine .short ?_ ?_ rfl hcount
            · dsimp only
              rw [dispatches_append]
              omega
            · dsimp only
              rw [upTo_append_of_lt (by omega), hseen]

/-! ## Computations without dispatches -/

theorem Quiet.pure (a : α) : Quiet (Pure.pure a : Exec α) := fun _ => ⟨rfl, rfl⟩

theorem quiet_throw (e : Stop) : Quiet (throw e : Exec α) := fun _ => ⟨rfl, rfl⟩

theorem quiet_get : Quiet (get : Exec State) := fun _ => ⟨rfl, rfl⟩

theorem quiet_modify {change : State → State}
    (h : ∀ s, (change s).lane.steps = s.lane.steps ∧ (change s).lane.index = s.lane.index) :
    Quiet (modify change : Exec PUnit) := h

theorem ending_bind (x : Exec α) (k : α → Exec β) (s : State) :
    (x >>= k).run.run s = match x.run.run s with
      | (.ok a, s') => (k a).run.run s'
      | (.error e, s') => (.error e, s') := by
  change (match x.run.run s with | (r, s') => ((ExceptT.bindCont k r).run s' : Ending β)) = _
  rcases x.run.run s with ⟨r, s'⟩
  cases r <;> rfl

theorem Quiet.bind {x : Exec α} {k : α → Exec β} (hx : Quiet x) (hk : ∀ a, Quiet (k a)) :
    Quiet (x >>= k) := by
  intro s
  have hfirst := hx s
  rw [ending_bind]
  generalize x.run.run s = rx at hfirst ⊢
  obtain ⟨r, s'⟩ := rx
  cases r with
  | error e => exact hfirst
  | ok a =>
      obtain ⟨hsteps, hindex⟩ := hk a s'
      exact ⟨hsteps.trans hfirst.1, hindex.trans hfirst.2⟩

theorem quiet_trap (code : TrapCode) : Quiet (Exec.trap code : Exec α) := fun _ => ⟨rfl, rfl⟩

theorem quiet_ofExcept (r : Except Stop α) : Quiet (Exec.ofExcept r) := by
  cases r with
  | ok a => exact .pure a
  | error e =>
      cases e with
      | trap code => exact quiet_trap code
      | _ => exact quiet_throw _

theorem quiet_value (env : Env) (e : Expr) : Quiet (Exec.value env e) :=
  quiet_get.bind fun _ => quiet_ofExcept _

theorem quiet_values (env : Env) (es : List Expr) : Quiet (Exec.values env es) :=
  quiet_get.bind fun _ => quiet_ofExcept _

theorem quiet_assign (name : String) (v : Datum) : Quiet (Exec.assign name v) := by
  intro s
  -- the state that is written is the one that was read
  have hread : (get : Exec State).run.run s = (.ok s, s) := rfl
  rw [Exec.assign, ending_bind, hread]
  dsimp only
  cases s.vars.set? name v with
  | some vars => exact ⟨rfl, rfl⟩
  | none => cases s.privates.set? name v <;> exact ⟨rfl, rfl⟩

theorem quiet_assignAll (names : List String) (vs : List Datum) :
    Quiet (Exec.assignAll names vs) := by
  induction names generalizing vs with
  | nil => cases vs <;> exact .pure _
  | cons name names ih =>
      cases vs with
      | nil => exact .pure _
      | cons v vs =>
          rw [Exec.assignAll]
          exact (quiet_assign name v).bind fun _ => ih vs

theorem quiet_store (buffer : String) (idx v : UInt32) : Quiet (Exec.store buffer idx v) := by
  rw [Exec.store]
  refine quiet_get.bind fun s => (quiet_ofExcept _).bind fun place => ?_
  refine quiet_modify fun s => ?_
  cases place.1 <;> exact ⟨rfl, rfl⟩

theorem quiet_checkCancelled (env : Env) : Quiet (Exec.checkCancelled env) := by
  rw [Exec.checkCancelled]
  split
  · exact quiet_throw _
  · exact .pure _

theorem quiet_resultsOf (f : Shader.Function) (flow : Flow) : Quiet (Exec.resultsOf f flow) := by
  cases flow with
  | ret values => exact .pure values
  | next =>
      rw [Exec.resultsOf]
      split
      · exact .pure _
      · exact quiet_throw _
  | leave label => exact quiet_throw _
  | again label => exact quiet_throw _

/-! ## Dispatches -/

/-- The state behind the count of a block. -/
def counted (s : State) : State := { s with lane := { s.lane with steps := s.lane.steps + 1 } }

/-- The state behind the record of a block, if blocks are recorded. -/
def recorded (env : Env) (id : BlockId) (s : State) : State :=
  if env.tracing then
    { s with lane := { s.lane with trace := (id, s.lane.stack.sp) :: s.lane.trace } }
  else s

theorem ending_dispatch {env : Env} (hcancelled : env.cancelled = false) (id : BlockId)
    (s : State) :
    (Exec.dispatch env id).run.run s =
      if 0 < env.maxSteps && env.maxSteps < s.lane.steps + 1 then
        (.error (.abort (.failed (stepLimitReached s.lane.index env.maxSteps))), counted s)
      else (.ok (), recorded env id (counted s)) := by
  have hcheck : (Exec.checkCancelled env).run.run s = (.ok (), s) := by
    rw [Exec.checkCancelled, hcancelled]
    rfl
  rw [Exec.dispatch, ending_bind, hcheck]
  dsimp only
  rw [ending_bind]
  change (if 0 < env.maxSteps && env.maxSteps < s.lane.steps + 1 then _ else _ : Exec Unit).run.run
    (counted s) = _
  split
  · rfl
  · unfold recorded
    split <;> rfl

theorem dispatch_eq (env : Env) (id : BlockId) (s : State) :
    watching.dispatch env id s =
      if env.cancelled then ([], .error (.fault "context canceled"), s)
      else if 0 < env.maxSteps && env.maxSteps < s.lane.steps + 1 then
        ([], .error (.abort (.failed (stepLimitReached s.lane.index env.maxSteps))), counted s)
      else ([.dispatched id (recorded env id (counted s))], .ok (),
        recorded env id (counted s)) := by
  change Watched.bind (look (Exec.dispatch env id)) (fun _ => see (.dispatched id)) s = _
  rw [Watched.bind, look]
  cases hcancelled : env.cancelled with
  | true =>
      have hcheck : (Exec.checkCancelled env).run.run s
          = (.error (.fault "context canceled"), s) := by
        rw [Exec.checkCancelled, hcancelled]
        rfl
      rw [Exec.dispatch, ending_bind, hcheck]
      rfl
  | false =>
      rw [ending_dispatch hcancelled, if_neg Bool.false_ne_true]
      by_cases hlimit : (0 < env.maxSteps && env.maxSteps < s.lane.steps + 1) = true
      · rw [if_pos hlimit, if_pos hlimit]
      · rw [if_neg hlimit, if_neg hlimit]
        rfl

theorem lane_recorded (env : Env) (id : BlockId) (s : State) :
    (recorded env id s).lane.steps = s.lane.steps
      ∧ (recorded env id s).lane.index = s.lane.index := by
  unfold recorded
  split <;> exact ⟨rfl, rfl⟩

theorem capped_dispatch (env : Env) (hN : 0 < N) (id : BlockId) :
    Capped N (watching.dispatch (env.withLimit 0) id) (watching.dispatch (env.withLimit N) id) := by
  have hfull (s : State) : watching.dispatch (env.withLimit 0) id s =
      if env.cancelled then ([], .error (.fault "context canceled"), s)
      else ([.dispatched id (recorded env id (counted s))], .ok (), recorded env id (counted s)) :=
    dispatch_eq (env.withLimit 0) id s
  have hlimited (s : State) : watching.dispatch (env.withLimit N) id s =
      if env.cancelled then ([], .error (.fault "context canceled"), s)
      else if 0 < N && N < s.lane.steps + 1 then
        ([], .error (.abort (.failed (stepLimitReached s.lane.index N))), counted s)
      else ([.dispatched id (recorded env id (counted s))], .ok (), recorded env id (counted s)) :=
    dispatch_eq (env.withLimit N) id s
  constructor
  case counts =>
    intro s
    rw [hfull]
    split
    · exact ⟨rfl, rfl⟩
    · exact lane_recorded env id (counted s)
  case cut =>
    intro s hs
    rw [hfull, hlimited]
    split
    · exact .whole hs rfl
    · by_cases hmany : N < s.lane.steps + 1
      · have hall : s.lane.steps = N := by omega
        rw [if_pos (by simp [hN, hmany])]
        refine .short hmany ?_ rfl ?_
        · rw [hall, Nat.sub_self]
          rfl
        · change s.lane.steps + 1 = N + 1
          rw [hall]
      · rw [if_neg (by simp [hmany])]
        exact .whole (Nat.le_of_not_lt hmany) rfl

/-! ## Statements under a limit -/

theorem quiet_openFrame (f : Shader.Function) (args : List Datum) :
    Quiet (Exec.openFrame f args) := by
  have hframe : Quiet (do
      let outer := (← get).vars
      modify fun s => { s with vars := Exec.frame f args }
      return outer) := fun _ => ⟨rfl, rfl⟩
  unfold Exec.openFrame
  split
  · exact (quiet_throw _).bind fun _ => hframe
  · exact hframe

theorem quiet_closeFrame (f : Shader.Function) (outer : Vars) (flow : Flow) :
    Quiet (Exec.closeFrame f outer flow) :=
  Quiet.bind (fun _ => ⟨rfl, rfl⟩) fun _ => quiet_resultsOf f flow

theorem quiet_receive (name : String) (results : List String) (got : List Datum) :
    Quiet (Exec.receive name results got) := by
  unfold Exec.receive
  split
  · exact (quiet_throw _).bind fun _ => quiet_assignAll results got
  · exact quiet_assignAll results got

theorem quiet_simple (env : Env) {st : Stmt} (hst : st.isSimple) : Quiet (Exec.stmt env 1 st) := by
  cases st with
  | ifElse | block | loop | switch | call => cases hst
  | assign name e =>
      rw [Exec.stmt]
      exact (quiet_value env e).bind fun v => (quiet_assign name v).bind fun _ => .pure _
  | store buffer index e =>
      rw [Exec.stmt]
      exact (quiet_value env index).bind fun i => (quiet_value env e).bind fun v =>
        (quiet_store buffer i.x v.x).bind fun _ => .pure _
  | ret es =>
      rw [Exec.stmt]
      exact (quiet_values env es).bind fun vs => .pure _
  | leave label => rw [Exec.stmt]; exact .pure _
  | again label => rw [Exec.stmt]; exact .pure _
  | trap code => rw [Exec.stmt]; exact quiet_trap _
  | absent => rw [Exec.stmt]; exact quiet_throw _

/-- The steps under the limit are the steps without one, as far as the limit goes. -/
theorem preserved_capped (env : Env) (hN : 0 < N) :
    Preserved watching watching (env.withLimit 0) (env.withLimit N) 0 (fun (_ : Unit) _ => True)
      (fun _ _ => True) (fun _ {_} => Capped N) where
  exe := rfl
  part _ _ _ _ := trivial
  body _ _ _ := trivial
  pure := Capped.pure
  bind := Capped.bind
  outOfFuel y hy := by
    rw [hy rfl]
    exact (quiet_throw _).capped
  reached := capped_see fun _ => rfl
  checkCancelled := (quiet_checkCancelled env).capped
  dispatch _ _ := capped_dispatch env hN _
  called _ _ := ⟨(), trivial, fun _ _ => id⟩
  simple _ hst := by
    rw [@Exec.stmt_congr (env.withLimit 0) (env.withLimit N) rfl _ hst]
    exact (quiet_simple _ hst).capped
  test _ _ := (quiet_value env _).capped
  undefined _ := (quiet_throw _).capped
  values _ := (quiet_values env _).capped
  receive _ _ := (quiet_receive _ _ _).capped
  framed _ hx _ := (quiet_openFrame _ _).capped.bind fun _ => hx.bind fun _ =>
    (quiet_closeFrame _ _ _).capped

/-- The run of a function under the limit is the run without one, as far as the limit goes. -/
theorem capped_call (env : Env) (hN : 0 < N) (fuel : Nat) (f : Shader.Function)
    (args : List Datum) : Capped N (watching.call (env.withLimit 0) fuel f args)
      (watching.call (env.withLimit N) fuel f args) :=
  ((preserved_capped env hN).run fuel).call f args (w := ()) trivial

end Watched

/-! ## Invocations under a limit -/

/-- What is seen of an operation without a limit and what it comes to, next to the same operation
under the limit on a lane that has counted `ran` blocks before. -/
structure LimitCuts {α β : Type} (N index ran : Nat) (lane : β → Lane)
    (full limited : List Event × Option (Except Abort α × β)) : Prop where
  /-- Within the limit nothing is different. -/
  whole : ran + dispatches full.1 ≤ N → limited = full
  /-- Else everything up to the dispatch that is one too many is the same, and that is the end. -/
  short : N < ran + dispatches full.1 → limited.1 = upTo (N - ran) full.1
    ∧ ∃ b, limited.2 = some (.error (.failed (stepLimitReached index N)), b)
      ∧ (lane b).isSuspended = false ∧ (lane b).steps = N + 1

theorem LimitCuts.of_quiet {α β : Type} {index ran : Nat} {lane : β → Lane}
    {r : Option (Except Abort α × β)} (hran : ran ≤ N) :
    LimitCuts N index ran lane ([], r) ([], r) where
  whole _ := rfl
  short hlt := absurd hlt (Nat.not_lt_of_le hran)

/-- Behind events within the limit, what is left of the limit holds for the rest. -/
theorem LimitCuts.after {α β : Type} {N index ran : Nat} {lane : β → Lane} {es fs ls : List Event}
    {r r' : Option (Except Abort α × β)} (hle : ran + dispatches es ≤ N)
    (h : LimitCuts N index (ran + dispatches es) lane (fs, r) (ls, r')) :
    LimitCuts N index ran lane (es ++ fs, r) (es ++ ls, r') where
  whole hall := by
    dsimp only at hall
    rw [dispatches_append, ← Nat.add_assoc] at hall
    have hsame := h.whole hall
    cases hsame
    rfl
  short hlt := by
    dsimp only at hlt
    rw [dispatches_append, ← Nat.add_assoc] at hlt
    obtain ⟨hseen, hend⟩ := h.short hlt
    refine ⟨?_, hend⟩
    dsimp only at hseen ⊢
    rw [upTo_append_of_le (by omega), hseen, Nat.sub_add_eq]

namespace Lane

variable {env : Env} {N : Nat} {ln ln' : Lane} {σ : Type}

theorem settle_counts (x : Compile.Executable) (ln : Lane) :
    (ln.settle x).2.steps = ln.steps ∧ (ln.settle x).2.index = ln.index := by
  have hfail {α : Type} (e : Abort) : (ln.failWith (α := α) e).2.steps = ln.steps
      ∧ (ln.failWith (α := α) e).2.index = ln.index := by
    cases e <;> exact ⟨rfl, rfl⟩
  unfold settle
  split
  · exact hfail _
  · split
    · exact hfail _
    · exact ⟨rfl, rfl⟩
    · split
      · exact ⟨rfl, rfl⟩
      · split
        · exact hfail _
        · exact ⟨rfl, rfl⟩

theorem leaveWith_counts {x : Compile.Executable} {r : Ending (List Datum)}
    {y : Except Abort Outcome × Lane} (h : leaveWith x r = some y) :
    y.2.steps = r.2.lane.steps ∧ y.2.index = r.2.lane.index := by
  obtain ⟨r, s⟩ := r
  cases r with
  | ok values =>
      cases h
      exact settle_counts x s.lane
  | error stop =>
      cases stop with
      | outOfFuel => cases h
      | trap code =>
          cases h
          exact ⟨rfl, rfl⟩
      | abort e =>
          cases h
          cases e <;> exact ⟨rfl, rfl⟩

/-- A function of the module counts the blocks that it dispatches. -/
theorem enter_counts {fuel : Nat} {name : String} {y : Except Abort Outcome × Lane}
    (hN : 0 < N) (h : ln.enter (env.withLimit 0) fuel name = some y) :
    y.2.steps = ln.steps + dispatches (ln.seenEnter (env.withLimit 0) fuel name)
      ∧ y.2.index = ln.index := by
  unfold seenEnter
  cases hf : (env.withLimit 0).exe.module.function? name with
  | none =>
      rw [enter_of_missing (env.withLimit 0) hf] at h
      cases h
      exact ⟨rfl, rfl⟩
  | some f =>
      rw [enter_of_watched (env.withLimit 0) hf] at h
      obtain ⟨hsteps, hindex⟩ := (Watched.capped_call env hN fuel f []).counts
        (ln.starting (env.withLimit 0).exe.module)
      obtain ⟨hsteps', hindex'⟩ := leaveWith_counts h
      exact ⟨hsteps'.trans hsteps, hindex'.trans hindex⟩

/-- A function of the module under the limit. -/
theorem enter_cut (hN : 0 < N) (hran : ln.steps ≤ N) (fuel : Nat) (name : String) :
    LimitCuts N ln.index ln.steps id
      (ln.seenEnter (env.withLimit 0) fuel name, ln.enter (env.withLimit 0) fuel name)
      (ln.seenEnter (env.withLimit N) fuel name, ln.enter (env.withLimit N) fuel name) := by
  have hexe (limit : Nat) : (env.withLimit limit).exe = env.exe := rfl
  rw [seenEnter, seenEnter, hexe, hexe]
  cases hf : env.exe.module.function? name with
  | none =>
      rw [enter_of_missing (env.withLimit 0) hf, enter_of_missing (env.withLimit N) hf]
      exact .of_quiet hran
  | some f =>
      have hcut :=
        (Watched.capped_call env hN fuel f []).cut (ln.starting env.exe.module) hran
      rw [enter_of_watched (env.withLimit 0) hf, enter_of_watched (env.withLimit N) hf]
      change LimitCuts _ _ _ _
        ((watching.call (env.withLimit 0) fuel f [] (ln.starting env.exe.module)).1,
          leaveWith env.exe (watching.call (env.withLimit 0) fuel f []
            (ln.starting env.exe.module)).2)
        ((watching.call (env.withLimit N) fuel f [] (ln.starting env.exe.module)).1,
          leaveWith env.exe (watching.call (env.withLimit N) fuel f []
            (ln.starting env.exe.module)).2)
      generalize watching.call (env.withLimit 0) fuel f [] (ln.starting env.exe.module) = full
        at hcut ⊢
      generalize watching.call (env.withLimit N) fuel f [] (ln.starting env.exe.module) = limited
        at hcut ⊢
      cases hcut with
      | whole hle heq =>
          subst heq
          exact ⟨fun _ => rfl, fun hlt => absurd hlt (Nat.not_lt_of_le hle)⟩
      | short hlt hseen hend hcount =>
          obtain ⟨es, r, s⟩ := limited
          dsimp only at hseen hend hcount
          subst hend
          exact ⟨fun hle => absurd hlt (Nat.not_lt_of_le hle),
            fun _ => ⟨hseen, s.lane.abandon, rfl, rfl, hcount⟩⟩

theorem resume_cut (hN : 0 < N) (hran : ln.steps ≤ N) (fuel : Nat) :
    LimitCuts N ln.index ln.steps id
      (ln.seenResume (env.withLimit 0) fuel, ln.resume (env.withLimit 0) fuel)
      (ln.seenResume (env.withLimit N) fuel, ln.resume (env.withLimit N) fuel) := by
  unfold seenResume Lane.resume
  split
  · exact enter_cut hN hran fuel Emit.resumeName
  · exact .of_quiet hran

theorem resume_counts {fuel : Nat} {y : Except Abort Outcome × Lane}
    (hN : 0 < N) (h : ln.resume (env.withLimit 0) fuel = some y) :
    y.2.steps = ln.steps + dispatches (ln.seenResume (env.withLimit 0) fuel)
      ∧ y.2.index = ln.index := by
  unfold seenResume
  unfold Lane.resume at h
  split at h
  · next hsuspended =>
    rw [if_pos hsuspended]
    exact enter_counts hN h
  · next hsuspended =>
    rw [if_neg hsuspended]
    cases h
    exact ⟨rfl, rfl⟩

theorem started_fresh {x : Compile.Executable} {symbol : Symbol} {args : List Value} {name : String}
    (h : ln.started? x symbol args = some (ln', name)) : ln'.steps = 0 ∧ ln'.index = ln.index := by
  unfold started? at h
  split at h
  · cases h
  · split at h
    · cases h
      exact ⟨rfl, rfl⟩
    · cases h

theorem invoke_cut (hN : 0 < N) (fuel : Nat) (ln : Lane) (symbol : Symbol) (args : List Value) :
    LimitCuts N ln.index 0 id
      (ln.seenInvoke (env.withLimit 0) fuel symbol args,
        ln.invoke (env.withLimit 0) fuel symbol args)
      (ln.seenInvoke (env.withLimit N) fuel symbol args,
        ln.invoke (env.withLimit N) fuel symbol args) := by
  have hexe (limit : Nat) : (env.withLimit limit).exe = env.exe := rfl
  rw [seenInvoke, seenInvoke, hexe, hexe]
  cases hstarted : ln.started? env.exe symbol args with
  | none =>
      obtain ⟨e, ln', hall⟩ := invoke_of_not_started hstarted
      rw [hall (env.withLimit 0) rfl, hall (env.withLimit N) rfl]
      exact .of_quiet (Nat.zero_le N)
  | some start =>
      obtain ⟨ln', name⟩ := start
      obtain ⟨hzero, hindex⟩ := started_fresh hstarted
      rw [invoke_of_started (env.withLimit 0) hstarted,
        invoke_of_started (env.withLimit N) hstarted, ← hindex]
      have hcut : LimitCuts N ln'.index ln'.steps id
          (ln'.seenEnter (env.withLimit 0) fuel name, ln'.enter (env.withLimit 0) fuel name)
          (ln'.seenEnter (env.withLimit N) fuel name, ln'.enter (env.withLimit N) fuel name) :=
        enter_cut hN (by omega) fuel name
      rwa [hzero] at hcut

theorem invoke_counts (hN : 0 < N) {fuel : Nat} {symbol : Symbol} {args : List Value}
    {outcome : Outcome}
    (h : ln.invoke (env.withLimit 0) fuel symbol args = some (.ok outcome, ln')) :
    ln'.steps = dispatches (ln.seenInvoke (env.withLimit 0) fuel symbol args)
      ∧ ln'.index = ln.index := by
  unfold seenInvoke
  cases hstarted : ln.started? (env.withLimit 0).exe symbol args with
  | none =>
      obtain ⟨e, ln'', hall⟩ := invoke_of_not_started hstarted
      rw [hall (env.withLimit 0) rfl] at h
      cases h
  | some start =>
      obtain ⟨ln'', name⟩ := start
      obtain ⟨hzero, hindex⟩ := started_fresh hstarted
      rw [invoke_of_started (env.withLimit 0) hstarted] at h
      obtain ⟨hsteps, hindex'⟩ := enter_counts hN h
      rw [hzero, Nat.zero_add] at hsteps
      exact ⟨hsteps, hindex'.trans hindex⟩

/-! ### Requests to the host -/

/-- A function without fuel does nothing. -/
theorem seenEnter_zero (env : Env) (ln : Lane) (name : String) : ln.seenEnter env 0 name = [] := by
  unfold seenEnter
  split
  · rfl
  · rw [Instrument.call]
    rfl

theorem seenResume_zero (env : Env) (ln : Lane) : ln.seenResume env 0 = [] := by
  unfold seenResume
  rw [seenEnter_zero, ite_self]

theorem seenInvoke_zero (env : Env) (ln : Lane) (symbol : Symbol) (args : List Value) :
    ln.seenInvoke env 0 symbol args = [] := by
  unfold seenInvoke
  split
  · rfl
  · exact seenEnter_zero env _ _

theorem serve_error (env : Env) (host? : Option (Host σ)) (name : String) (fuel : Nat) (e : Abort)
    (ln : Lane) (h : σ) :
    serve env host? name (fuel + 1) (.error e) ln h = some (.error e, ln, h)
      ∧ seenServe env host? (fuel + 1) (.error e) ln h = [] := by
  cases host? <;> exact ⟨rfl, rfl⟩

/-- What is seen of a host that answers what an operation asks for, if it comes to an end, and what
that comes to. -/
def handedOn (env : Env) (host? : Option (Host σ)) (name : String) (fuel : Nat) (h : σ) :
    Option (Except Abort Outcome × Lane) →
    List Event × Option (Except Abort (List Value) × Lane × σ)
  | none => ([], none)
  | some (o, ln) => (seenServe env host? fuel o ln h, serve env host? name fuel o ln h)

theorem run_eq (env : Env) (host? : Option (Host σ)) (fuel : Nat) (ln : Lane) (symbol : Symbol)
    (args : List Value) (h : σ) :
    (ln.seenRun env host? fuel symbol args h, ln.run env host? fuel symbol args h)
      = (ln.seenInvoke env fuel symbol args
          ++ (handedOn env host? symbol.text fuel h (ln.invoke env fuel symbol args)).1,
        (handedOn env host? symbol.text fuel h (ln.invoke env fuel symbol args)).2) := by
  rw [seenRun, Lane.run, Option.bind_eq_bind]
  cases ln.invoke env fuel symbol args with
  | none => rw [handedOn, Option.bind_none]
  | some y =>
      obtain ⟨o, ln'⟩ := y
      rw [handedOn, Option.bind_some]

theorem serve_eq (env : Env) (host : Host σ) (name : String) (fuel : Nat) (p : Pending)
    (steps : Nat) (ln : Lane) (h : σ) :
    (seenServe env (some host) (fuel + 1) (.ok (.yielded p steps)) ln h,
      serve env (some host) name (fuel + 1) (.ok (.yielded p steps)) ln h)
      = match host.call h ln.index p.func p.args with
        | (.error e, h) =>
          ([.yielded p], some (Failure.raise (.wrap .runtime .host e p.func.name), ln.abandon, h))
        | (.ok results, h) =>
          match ln.complete env.exe p results with
          | (.error e, ln) => ([.yielded p], some (.error e, ln, h))
          | (.ok _, ln) =>
            (.yielded p :: (ln.seenResume env fuel
                ++ (handedOn env (some host) name fuel h (ln.resume env fuel)).1),
              (handedOn env (some host) name fuel h (ln.resume env fuel)).2) := by
  rw [seenServe, serve]
  generalize host.call h ln.index p.func p.args = answer
  obtain ⟨answer, h⟩ := answer
  cases answer with
  | error e => rfl
  | ok results =>
      dsimp only
      generalize ln.complete env.exe p results = completed
      obtain ⟨completed, ln⟩ := completed
      cases completed with
      | error e => rfl
      | ok u =>
          dsimp only
          rw [Option.bind_eq_bind]
          cases ln.resume env fuel with
          | none => rw [handedOn, Option.bind_none]
          | some y =>
              obtain ⟨o, ln'⟩ := y
              rw [handedOn, Option.bind_some]

/-- An operation with a host behind it: what it comes to is handed on. -/
theorem handedOn_cut {host? : Option (Host σ)} {name : String} {index ran fuel : Nat} {h : σ}
    {fs ls : List Event} {r r' : Option (Except Abort Outcome × Lane)}
    (hran : ran ≤ N) (hfirst : LimitCuts N index ran id (fs, r) (ls, r'))
    (hfuel : dispatches fs ≠ 0 → fuel ≠ 0)
    (hrest : ∀ o ln, r = some (o, ln) → ran + dispatches fs ≤ N →
      LimitCuts N index (ran + dispatches fs) Prod.fst
        (handedOn (env.withLimit 0) host? name fuel h r)
        (handedOn (env.withLimit N) host? name fuel h r)) :
    LimitCuts N index ran Prod.fst
      (fs ++ (handedOn (env.withLimit 0) host? name fuel h r).1,
        (handedOn (env.withLimit 0) host? name fuel h r).2)
      (ls ++ (handedOn (env.withLimit N) host? name fuel h r').1,
        (handedOn (env.withLimit N) host? name fuel h r').2) := by
  rcases Nat.lt_or_ge N (ran + dispatches fs) with hlt | hle
  · obtain ⟨hseen, ln, hend, hfree, hcount⟩ := hfirst.short hlt
    dsimp only at hseen hend
    obtain ⟨fuel, rfl⟩ := Nat.exists_eq_succ_of_ne_zero (hfuel (by omega))
    obtain ⟨hserve, hnone⟩ := serve_error (env.withLimit N) host? name fuel
      (.failed (stepLimitReached index N)) ln h
    have hlimited : handedOn (env.withLimit N) host? name (fuel + 1) h r'
        = ([], some (.error (.failed (stepLimitReached index N)), ln, h)) := by
      rw [hend, handedOn, hserve, hnone]
    rw [hlimited, List.append_nil]
    constructor
    · intro hall
      dsimp only at hall
      rw [dispatches_append] at hall
      omega
    · intro _
      dsimp only
      rw [upTo_append_of_lt (by omega), hseen]
      exact ⟨rfl, (ln, h), rfl, hfree, hcount⟩
  · have hsame := hfirst.whole hle
    cases hsame
    refine LimitCuts.after hle ?_
    cases r with
    | none => exact .of_quiet hle
    | some y => exact hrest y.1 y.2 rfl hle

theorem complete_counts (x : Compile.Executable) (ln : Lane) (p : Pending) (results : List Value) :
    (ln.complete x p results).2.steps = ln.steps
      ∧ (ln.complete x p results).2.index = ln.index := ⟨rfl, rfl⟩

/-- Answering requests under the limit. -/
theorem serve_cut (hN : 0 < N) (host? : Option (Host σ)) (name : String) (fuel : Nat)
    (o : Except Abort Outcome) (ln : Lane) (h : σ) (hran : ln.steps ≤ N) :
    LimitCuts N ln.index ln.steps Prod.fst
      (seenServe (env.withLimit 0) host? fuel o ln h,
        Lane.serve (env.withLimit 0) host? name fuel o ln h)
      (seenServe (env.withLimit N) host? fuel o ln h,
        Lane.serve (env.withLimit N) host? name fuel o ln h) := by
  induction fuel generalizing o ln h with
  | zero => exact .of_quiet hran
  | succ fuel ih =>
      match o with
      | .error e =>
          rw [(serve_error (env.withLimit 0) host? name fuel e ln h).1,
            (serve_error (env.withLimit N) host? name fuel e ln h).1,
            (serve_error (env.withLimit 0) host? name fuel e ln h).2,
            (serve_error (env.withLimit N) host? name fuel e ln h).2]
          exact .of_quiet hran
      | .ok (.finished values steps) => cases host? <;> exact .of_quiet hran
      | .ok (.yielded p steps) =>
          have hyield {fs ls : List Event} {r r' : Option (Except Abort (List Value) × Lane × σ)}
              (hcut : LimitCuts N ln.index ln.steps Prod.fst (fs, r) (ls, r')) :
              LimitCuts N ln.index ln.steps Prod.fst
                ([.yielded p] ++ fs, r) ([.yielded p] ++ ls, r') :=
            LimitCuts.after hran hcut
          cases host? with
          | none =>
              rw [seenServe, seenServe]
              exact hyield (.of_quiet hran)
          | some host =>
              rw [serve_eq, serve_eq]
              generalize host.call h ln.index p.func p.args = answer
              obtain ⟨answer, h'⟩ := answer
              cases answer with
              | error e => exact hyield (.of_quiet hran)
              | ok results =>
                  obtain ⟨hsteps, hindex⟩ := complete_counts env.exe ln p results
                  have hsame (n : Nat) : ln.complete (env.withLimit n).exe p results
                      = ln.complete env.exe p results := rfl
                  dsimp only
                  rw [hsame, hsame]
                  generalize ln.complete env.exe p results = completed at hsteps hindex ⊢
                  obtain ⟨completed, ln'⟩ := completed
                  dsimp only at hsteps hindex
                  cases completed with
                  | error e => exact hyield (.of_quiet hran)
                  | ok u =>
                      refine hyield ?_
                      have hresume : LimitCuts N ln'.index ln'.steps id
                          (ln'.seenResume (env.withLimit 0) fuel, ln'.resume (env.withLimit 0) fuel)
                          (ln'.seenResume (env.withLimit N) fuel,
                            ln'.resume (env.withLimit N) fuel) := resume_cut hN (by omega) fuel
                      rw [hsteps, hindex] at hresume
                      refine handedOn_cut hran hresume ?_ ?_
                      · rintro hsome rfl
                        rw [seenResume_zero] at hsome
                        exact hsome rfl
                      · intro o' ln'' hr hle
                        obtain ⟨hsteps', hindex'⟩ := resume_counts hN hr
                        dsimp only at hsteps' hindex'
                        rw [hr, handedOn, handedOn, ← hsteps, ← hsteps', ← hindex, ← hindex']
                        exact ih o' ln'' h' (by omega)

/-- An invocation under the limit, from its start to its end. -/
theorem run_cut (hN : 0 < N) (host? : Option (Host σ)) (fuel : Nat) (ln : Lane) (symbol : Symbol)
    (args : List Value) (h : σ) :
    LimitCuts N ln.index 0 Prod.fst
      (ln.seenRun (env.withLimit 0) host? fuel symbol args h,
        ln.run (env.withLimit 0) host? fuel symbol args h)
      (ln.seenRun (env.withLimit N) host? fuel symbol args h,
        ln.run (env.withLimit N) host? fuel symbol args h) := by
  rw [run_eq, run_eq]
  refine handedOn_cut (Nat.zero_le N) (invoke_cut hN fuel ln symbol args) ?_ ?_
  · rintro hsome rfl
    rw [seenInvoke_zero] at hsome
    exact hsome rfl
  · intro o ln' hr hle
    rw [hr, handedOn, handedOn]
    cases o with
    | ok outcome =>
        obtain ⟨hsteps, hindex⟩ := invoke_counts hN hr
        rw [Nat.zero_add] at hle ⊢
        rw [← hsteps, ← hindex]
        exact serve_cut hN host? symbol.text fuel (.ok outcome) ln' h (by omega)
    | error e =>
        cases fuel with
        | zero => exact .of_quiet hle
        | succ fuel =>
            obtain ⟨hserve, hnone⟩ :=
              serve_error (env.withLimit 0) host? symbol.text fuel e ln' h
            obtain ⟨hserve', hnone'⟩ :=
              serve_error (env.withLimit N) host? symbol.text fuel e ln' h
            rw [hserve, hserve', hnone, hnone']
            exact .of_quiet hle

/-- A host that answers requests leaves the count of the blocks that have been dispatched. -/
theorem serve_counts (hN : 0 < N) (host? : Option (Host σ)) (name : String) {fuel : Nat}
    {o : Except Abort Outcome} {r : Except Abort (List Value)} {h h' : σ}
    (hserve : serve (env.withLimit 0) host? name fuel o ln h = some (r, ln', h')) :
    ln'.steps = ln.steps + dispatches (seenServe (env.withLimit 0) host? fuel o ln h) := by
  induction fuel generalizing o ln h with
  | zero => cases hserve
  | succ fuel ih =>
      match o with
      | .error e =>
          obtain ⟨hend, hnone⟩ := serve_error (env.withLimit 0) host? name fuel e ln h
          rw [hend] at hserve
          rw [hnone]
          cases hserve
          rfl
      | .ok (.finished values steps) => cases host? <;> cases hserve <;> rfl
      | .ok (.yielded p steps) =>
          cases host? with
          | none =>
              rw [seenServe]
              cases hserve
              rfl
          | some host =>
              have hboth := serve_eq (env.withLimit 0) host name fuel p steps ln h
              rw [hserve] at hboth
              have hevents := congrArg Prod.fst hboth
              have hend := congrArg Prod.snd hboth
              dsimp only at hevents hend
              rw [hevents]
              clear hboth hevents hserve
              generalize host.call h ln.index p.func p.args = answer at hend ⊢
              obtain ⟨answer, h''⟩ := answer
              cases answer with
              | error e => cases hend; rfl
              | ok results =>
                  have hcounts := (complete_counts (env.withLimit 0).exe ln p results).1
                  dsimp only at hend ⊢
                  generalize ln.complete (env.withLimit 0).exe p results = completed
                    at hcounts hend ⊢
                  obtain ⟨completed, ln₁⟩ := completed
                  cases completed with
                  | error e => cases hend; exact hcounts
                  | ok u =>
                      dsimp only at hcounts hend ⊢
                      cases hresume : ln₁.resume (env.withLimit 0) fuel with
                      | none => rw [hresume, handedOn] at hend; cases hend
                      | some y =>
                          obtain ⟨o', ln₂⟩ := y
                          rw [hresume, handedOn] at hend
                          have hrest := ih hend.symm
                          have hsteps := (resume_counts hN hresume).1
                          rw [handedOn, dispatches_cons, dispatches_append, ← hcounts]
                          change _ = _ + (0 + _)
                          dsimp only at hsteps ⊢
                          omega

/-- An invocation that comes to values leaves the count of the blocks that have been dispatched. -/
theorem run_counts (hN : 0 < N) (host? : Option (Host σ)) {fuel : Nat} {symbol : Symbol}
    {args : List Value} {values : List Value} {h h' : σ}
    (hrun : ln.run (env.withLimit 0) host? fuel symbol args h = some (.ok values, ln', h')) :
    ln'.steps = dispatches (ln.seenRun (env.withLimit 0) host? fuel symbol args h) := by
  have hboth := run_eq (env.withLimit 0) host? fuel ln symbol args h
  rw [hrun] at hboth
  have hevents := congrArg Prod.fst hboth
  have hend := congrArg Prod.snd hboth
  dsimp only at hevents hend
  rw [hevents]
  cases hinvoke : ln.invoke (env.withLimit 0) fuel symbol args with
  | none => rw [hinvoke, handedOn] at hend; cases hend
  | some y =>
      obtain ⟨o, ln₁⟩ := y
      rw [hinvoke, handedOn] at hend
      rw [handedOn, dispatches_append]
      cases o with
      | ok outcome =>
          rw [serve_counts hN host? symbol.text hend.symm, (invoke_counts hN hinvoke).1]
      | error e =>
          cases fuel with
          | zero => cases hend
          | succ fuel =>
              rw [(serve_error (env.withLimit 0) host? symbol.text fuel e ln₁ h).1] at hend
              cases hend

end Lane

/-- What a limit does to invocations of a lane, and to what is left of one that is suspended. -/
structure LimitOnlyCuts (env : Env) (N : Nat) (ln : Lane) : Prop where
  invoke (fuel : Nat) (symbol : Symbol) (args : List Value) :
    LimitCuts N ln.index 0 id
      (ln.seenInvoke (env.withLimit 0) fuel symbol args,
        ln.invoke (env.withLimit 0) fuel symbol args)
      (ln.seenInvoke (env.withLimit N) fuel symbol args,
        ln.invoke (env.withLimit N) fuel symbol args)
  resume (fuel : Nat) : ln.steps ≤ N →
    LimitCuts N ln.index ln.steps id
      (ln.seenResume (env.withLimit 0) fuel, ln.resume (env.withLimit 0) fuel)
      (ln.seenResume (env.withLimit N) fuel, ln.resume (env.withLimit N) fuel)
  run {σ : Type} (host? : Option (Host σ)) (fuel : Nat) (symbol : Symbol) (args : List Value)
      (h : σ) :
    LimitCuts N ln.index 0 Prod.fst
      (ln.seenRun (env.withLimit 0) host? fuel symbol args h,
        ln.run (env.withLimit 0) host? fuel symbol args h)
      (ln.seenRun (env.withLimit N) host? fuel symbol args h,
        ln.run (env.withLimit N) host? fuel symbol args h)
  /-- The blocks that are seen to be dispatched are those that the lane counts. -/
  counts {σ : Type} (host? : Option (Host σ)) (fuel : Nat) (symbol : Symbol) (args : List Value)
      (h : σ) (values : List Value) (ln' : Lane) (h' : σ) :
    ln.run (env.withLimit 0) host? fuel symbol args h = some (.ok values, ln', h') →
      ln'.steps = dispatches (ln.seenRun (env.withLimit 0) host? fuel symbol args h)
  /-- With more fuel the run without a limit goes on. -/
  lasts {σ : Type} (host? : Option (Host σ)) (n m : Nat) (symbol : Symbol) (args : List Value)
      (h : σ) : n ≤ m →
    ln.seenRun (env.withLimit 0) host? n symbol args h
      <+: ln.seenRun (env.withLimit 0) host? m symbol args h

/-- A limit only cuts runs short. -/
theorem limit_only_cuts (env : Env) {N : Nat} (hN : 0 < N) (ln : Lane) :
    LimitOnlyCuts env N ln where
  invoke fuel symbol args := Lane.invoke_cut hN fuel ln symbol args
  resume fuel hran := Lane.resume_cut hN hran fuel
  run host? fuel symbol args h := Lane.run_cut hN host? fuel ln symbol args h
  counts host? _ _ _ _ _ _ _ hrun := Lane.run_counts hN host? hrun
  lasts host? _ _ symbol args h hle :=
    Lane.seenRun_lasts (env.withLimit 0) host? hle ln symbol args h

/-- An entry point that runs one block twice. -/
def twice : Compile.Executable :=
  { (default : Compile.Executable) with
    module := { functions :=
      [{ name := "twice", body := [.call "block" [] [], .call "block" [] []] },
        { name := "block" }] }
    entries := [{ symbol := ⟨[]⟩, shader := "twice", sig := ⟨[], []⟩, func := 0 }]
    blocks := [{ id := ⟨1⟩, name := "block" }] }

/-- One block is too few, two blocks are enough. -/
theorem limit_only_cuts_twice :
    (0 < 1 ∧ (∃ ln, (Lane.new twice 0).invoke (Env.withLimit { exe := twice } 1) 9 ⟨[]⟩ []
        = some (.error (.failed (stepLimitReached 0 1)), ln)
        ∧ ln.isSuspended = false ∧ ln.steps = 2)
      ∧ (Lane.new twice 0).steps ≤ 1
      ∧ (Lane.new twice 0).resume (Env.withLimit { exe := twice } 1) 9
        = (Lane.new twice 0).resume (Env.withLimit { exe := twice } 0) 9)
    ∧ 0 < 2 ∧ (Lane.new twice 0).invoke (Env.withLimit { exe := twice } 2) 9 ⟨[]⟩ []
      = (Lane.new twice 0).invoke (Env.withLimit { exe := twice } 0) 9 ⟨[]⟩ [] := by
  have hcount : dispatches
      ((Lane.new twice 0).seenInvoke (Env.withLimit { exe := twice } 0) 9 ⟨[]⟩ []) = 2 := by
    decide +kernel
  have hnone : dispatches
      ((Lane.new twice 0).seenResume (Env.withLimit { exe := twice } 0) 9) = 0 := by
    decide +kernel
  have hone := limit_only_cuts { exe := twice } (show 0 < 1 by decide) (Lane.new twice 0)
  have htwo := limit_only_cuts { exe := twice } (show 0 < 2 by decide) (Lane.new twice 0)
  refine ⟨⟨by decide, ?_, by decide, ?_⟩, by decide, ?_⟩
  · exact ((hone.invoke 9 ⟨[]⟩ []).short (by rw [hcount]; decide)).2
  · exact congrArg Prod.snd ((hone.resume 9 (by decide)).whole (by rw [hnone]; decide))
  · exact congrArg Prod.snd ((htwo.invoke 9 ⟨[]⟩ []).whole (by rw [hcount]))

end WasmShader.Execution
