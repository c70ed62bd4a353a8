import WasmShader.Proofs.TreeCode

/-!
# Runs of block machines

A machine starts in block zero without operands and goes from block to block; a callee or the
host is asked on the way, and its results take the place of the arguments. A run ends with the
operands that a return yields or with a trap, or does not end.

Where control is at some point is told by what is left of the block there (`resume`). To compare
the run of a machine with the evaluation of a tree, one shows that each ends as the other does
if that ends. The first of these goes by the number of blocks that the machine runs through, the
second by the rounds of the loops. Apart from loops they are the same argument, so it is made
only once, for everything that a run may be compared with (`Compares`).
-/

namespace WasmShader

open Execution (Datum)

namespace Structured

variable {σ : Type}

/-! ## Running a machine -/

/-- Where a machine is between two blocks: the number of the next one, and the operands that it
is entered with. -/
abbrev Config := Nat × List Datum

/-- Goes on where a block is left. -/
def afterExit (oracle : Oracle σ) : Exit → Eval σ (Config ⊕ List Datum)
  | .goto target stack => return .inl (target, stack)
  | .transfer callee _ next rest args => do
    return .inl (next, rest ++ (← ask oracle callee.request args))
  | .ret results => return .inr results

/-- Runs through one block. -/
noncomputable def runBlock (p : Program) (l : Layout) (oracle : Oracle σ) (m : Machine)
    (c : Config) : Eval σ (Config ⊕ List Datum) := do
  match m.blocks[c.1]? with
  | none => throw .stuck
  | some b => afterExit oracle (← evalBlock p l oracle b c.2)

/-- What the end of a block means for the run. -/
def blockEnd : Ending (Store σ) (Config ⊕ List Datum) →
    (Config × Store σ) ⊕ Ending (Store σ) (List Datum)
  | (.ok (.inl c), st) => .inl (c, st)
  | (.ok (.inr results), st) => .inr (.ok results, st)
  | (.error e, st) => .inr (.error e, st)

/-- A step of the run. -/
noncomputable def runStep (p : Program) (l : Layout) (oracle : Oracle σ) (m : Machine)
    (now : Config × Store σ) : Option ((Config × Store σ) ⊕ Ending (Store σ) (List Datum)) :=
  (runBlock p l oracle m now.1 now.2).map blockEnd

/-- Runs the machine. -/
noncomputable def runMachine (p : Program) (l : Layout) (oracle : Oracle σ) (m : Machine) :
    Eval σ (List Datum) :=
  fun st => untilDone (runStep p l oracle m) ((0, []), st)

/-! ## Evaluating a body -/

/-- The end of a body as the end of its function: what a function is left with are its results,
whichever way it is left. -/
def bodyEnd (n : Nat) : Ending (Store σ) Flow → Ending (Store σ) (List Datum)
  | (r, st) => (r.map fun flow => top n flow.stack, st)

/-- Evaluates the body of a function. -/
noncomputable def evalBody (p : Program) (l : Layout) (oracle : Oracle σ) (f : Function)
    (body : List Node) : Eval σ (List Datum) :=
  fun st => (evalSeq p l oracle body [] st).map (bodyEnd f.type.results.length)

/-- Calling a function is evaluating its body on its first locals. -/
theorem evalFunction_eq (p : Program) (l : Layout) (oracle : Oracle σ) {f : Function}
    {body : List Node} (hbody : f.body = .ok body) (args : List Datum) (shared : Shared σ) :
    evalFunction p l oracle f args shared
      = (evalBody p l oracle f body ⟨initialLocals l f args, shared⟩).map
          fun r => (r.1, r.2.shared) := by
  rw [evalFunction, hbody, evalBody, Option.map_map]
  rfl

/-! ## What is left of a block -/

/-- Goes on somewhere: in a block, with the operands on its entry. -/
abbrev Going (σ : Type) :=
  Nat → List Datum → Store σ → Option (Ending (Store σ) (List Datum))

/-- Goes on in a block with the results of a request above the operands that are left. -/
def answered (ρ : Going σ) (next : Nat) (rest : List Datum) (st : Store σ) :
    Ending (Shared σ) (List Datum) → Option (Ending (Store σ) (List Datum))
  | (.ok results, shared) => ρ next (rest ++ results) { st with shared }
  | (.error e, shared) => some (.error e, { st with shared })

/-- Goes on behind a block. -/
def onward (oracle : Oracle σ) (ρ : Going σ) :
    Ending (Store σ) Exit → Option (Ending (Store σ) (List Datum))
  | (.ok (.goto target stack), st) => ρ target stack st
  | (.ok (.transfer callee _ next rest args), st) =>
    (oracle callee.request args st.shared).bind (answered ρ next rest st)
  | (.ok (.ret results), st) => some (.ok results, st)
  | (.error e, st) => some (.error e, st)

/-- Goes on in a block that has been run through in part. -/
noncomputable def resume (p : Program) (l : Layout) (oracle : Oracle σ) (ρ : Going σ)
    (t : BlockRest) (stack : List Datum) (st : Store σ) :
    Option (Ending (Store σ) (List Datum)) :=
  ((evalSeq p l oracle t.code stack st).bind (atTerminator t.term)).bind (onward oracle ρ)

section Resume

variable {p : Program} {l : Layout} {oracle : Oracle σ} {ρ : Going σ} {st : Store σ}

/-- At its terminator a block is only left. -/
theorem resume_nil (t : Terminator) (stack : List Datum) :
    resume p l oracle ρ ⟨[], t⟩ stack st = (exitBy stack t st).bind (onward oracle ρ) := by
  rw [resume, evalSeq]
  rfl

theorem resume_cons (n : Node) (code : List Node) (t : Terminator) (stack : List Datum) :
    resume p l oracle ρ ⟨n :: code, t⟩ stack st
      = (evalNode p l oracle n stack st).bind fun r =>
          ((goOn (evalSeq p l oracle code) r).bind (atTerminator t)).bind (onward oracle ρ) := by
  rw [resume, evalSeq_cons, Option.bind_assoc, Option.bind_assoc]
  exact congrArg _ (funext fun r => (Option.bind_assoc _ _ _).symm)

/-- Taking an edge. -/
theorem resume_goto (e : Edge) (stack : List Datum) :
    resume p l oracle ρ ⟨[], .goto e⟩ stack st
      = ρ e.target (stack.take e.keep ++ top e.carry stack) st := resume_nil ..

/-- Taking an edge that carries all operands over. -/
theorem resume_full {types : TypeStack} {stack : List Datum}
    (hlen : types.length = stack.length) (k : Nat) :
    resume p l oracle ρ ⟨[], .goto ⟨k, types.length, 0⟩⟩ stack st = ρ k stack st := by
  rw [resume_goto, hlen]
  dsimp only
  rw [List.take_length, top, Nat.sub_zero, List.drop_length, List.append_nil]

theorem resume_branch (taken notTaken : Edge) (stack : List Datum) (c : Datum) :
    resume p l oracle ρ ⟨[], .branch taken notTaken⟩ (stack ++ [c]) st
      = resume p l oracle ρ ⟨[], .goto (if c.truth then taken else notTaken)⟩ stack st := by
  have hexit : exitBy (stack ++ [c]) (.branch taken notTaken) st
      = exitBy stack (.goto (if c.truth then taken else notTaken)) st :=
    bind_of_ok (popOne_append stack c st)
  rw [resume_nil, resume_nil, hexit]

theorem resume_switch (cases : List Edge) (fallback : Edge) (stack : List Datum) (c : Datum) :
    resume p l oracle ρ ⟨[], .switch cases fallback⟩ (stack ++ [c]) st
      = resume p l oracle ρ ⟨[], .goto (cases.getD c.x.toNat fallback)⟩ stack st := by
  have hexit : exitBy (stack ++ [c]) (.switch cases fallback) st
      = exitBy stack (.goto (cases.getD c.x.toNat fallback)) st :=
    bind_of_ok (popOne_append stack c st)
  rw [resume_nil, resume_nil, hexit]

theorem resume_yield (callee : Callee) (sig : Signature) (next : Nat) (rest args : List Datum)
    (hargs : args.length = sig.params.length) :
    resume p l oracle ρ ⟨[], callee.yield sig next⟩ (rest ++ args) st
      = (oracle callee.request args st.shared).bind (answered ρ next rest st) := by
  rw [resume_nil]
  cases callee with
  | func fn => rw [Callee.yield, exitBy, bind_of_ok (split_append rest args hargs st)]; rfl
  | host h => rw [Callee.yield, exitBy, bind_of_ok (split_append rest args hargs st)]; rfl

theorem resume_ret (results : List ValueType) (stack : List Datum) :
    resume p l oracle ρ ⟨[], .ret results⟩ stack st
      = some (.ok (top results.length stack), st) := resume_nil ..

theorem resume_trap (code : TrapCode) (stack : List Datum) :
    resume p l oracle ρ ⟨[], .trap code⟩ stack st = some (.error (.trap code), st) :=
  resume_nil ..

end Resume

/-! ## Runs as fixed points -/

section Runs

variable {p : Program} {l : Layout} {oracle : Oracle σ} {m : Machine}

/-- A step of the run, and going on behind it. -/
theorem bind_runStep {k : Nat} {t : BlockRest} (ht : m.block? k = some t) (stack : List Datum)
    (st : Store σ) (going : Config × Store σ → Option (Ending (Store σ) (List Datum))) :
    (runStep p l oracle m ((k, stack), st)).bind (Sum.elim going some)
      = resume p l oracle (fun k stack st => going ((k, stack), st)) t stack st := by
  obtain ⟨b, hb, rfl⟩ := Option.map_eq_some_iff.mp ht
  have hrun : runBlock p l oracle m (k, stack)
      = evalBlock p l oracle b stack >>= afterExit oracle := by
    rw [runBlock, hb]
  rw [runStep, hrun, bind_apply, evalBlock_eq, Option.bind_map, Option.bind_assoc, resume]
  congr 1
  funext r
  obtain ⟨r, st'⟩ := r
  cases r with
  | error e => rfl
  | ok exit =>
      cases exit with
      | goto target stack => rfl
      | ret results => rfl
      | transfer callee sig next rest args =>
          change ((ask oracle callee.request args >>= fun results =>
            (pure (.inl (next, rest ++ results)) : Eval σ (Config ⊕ List Datum))) st').bind _ = _
          rw [bind_apply, ask, onward]
          cases oracle callee.request args st'.shared with
          | none => rfl
          | some a =>
              obtain ⟨a, shared⟩ := a
              cases a <;> rfl

/-- The run from a block on, through at most `n` blocks. -/
noncomputable def runWithin (p : Program) (l : Layout) (oracle : Oracle σ) (m : Machine) (n : Nat) :
    Going σ :=
  fun k stack st => within (runStep p l oracle m) n ((k, stack), st)

/-- The run from a block on. -/
noncomputable def runFrom (p : Program) (l : Layout) (oracle : Oracle σ) (m : Machine) : Going σ :=
  fun k stack st => untilDone (runStep p l oracle m) ((k, stack), st)

theorem runWithin_succ {k : Nat} {t : BlockRest} (ht : m.block? k = some t) (n : Nat)
    (stack : List Datum) (st : Store σ) :
    runWithin p l oracle m (n + 1) k stack st
      = resume p l oracle (runWithin p l oracle m n) t stack st := by
  rw [runWithin, within_succ_eq, bind_runStep ht]
  rfl

theorem runFrom_eq {k : Nat} {t : BlockRest} (ht : m.block? k = some t) (stack : List Datum)
    (st : Store σ) :
    runFrom p l oracle m k stack st
      = resume p l oracle (runFrom p l oracle m) t stack st := by
  rw [runFrom, untilDone_eq, bind_runStep ht]
  rfl

end Runs

/-! ## Comparing runs -/

/-- The ends `R i` of runs from blocks on may be compared by `le`, on their left, with other ends:
whatever goes on as the blocks do is reached by going through them, and whatever repeats what a
block leads back to, by starting there. -/
structure Compares (p : Program) (l : Layout) (oracle : Oracle σ)
    (blocks : Nat → Option BlockRest)
    (le : Option (Ending (Store σ) (List Datum)) → Option (Ending (Store σ) (List Datum)) → Prop)
    (R : Nat → Going σ) : Prop where
  refl : ∀ x, le x x
  trans : ∀ {x y z}, le x y → le y z → le x z
  bind : ∀ {α : Type} {x : Option α} {k k' : α → Option (Ending (Store σ) (List Datum))},
    (∀ a, x = some a → le (k a) (k' a)) → le (x.bind k) (x.bind k')
  less : ∀ i k stack st, le (R i k stack st) (R (i + 1) k stack st)
  enter : ∀ {k t}, blocks k = some t →
    ∀ i stack st, le (R i k stack st) (resume p l oracle (R i) t stack st)
  loop : ∀ {α β : Type} {inv : α → Prop} {place : α → List Datum × Store σ}
    {step : α → Option (α ⊕ β)} {done : β → Option (Ending (Store σ) (List Datum))} {k t i},
    blocks k = some t →
    (∀ j ≤ i, ∀ again : α → Option (Ending (Store σ) (List Datum)),
      (∀ a, inv a → le (R j k (place a).1 (place a).2) (again a)) →
      ∀ a, inv a → le (resume p l oracle (R j) t (place a).1 (place a).2)
        ((step a).bind (Sum.elim again done))) →
    ∀ a, inv a → le (R i k (place a).1 (place a).2) ((untilDone step a).bind done)

section Compares

variable {p : Program} {l : Layout} {oracle : Oracle σ} {m : Machine}

/-- What a run through a bounded number of blocks comes to, the other comes to. -/
theorem compares_within :
    Compares p l oracle m.block? Below (runWithin p l oracle m) := by
  refine ⟨fun _ _ h => h, fun h h' a ha => h' a (h a ha), .bind, fun i k stack st a ha => ?_,
    fun {k t} ht i stack st a ha => ?_, fun {α β inv place step done k t i} ht hround => ?_⟩
  · exact within_succ ha
  · rw [← runWithin_succ ht]
    exact within_succ ha
  · induction i with
    | zero => exact fun _ _ _ hb => by cases hb
    | succ i ih =>
        intro a ha
        have hagain := ih fun j hj => hround j (Nat.le_succ_of_le hj)
        rw [runWithin_succ ht, untilDone_eq, bind_elim_bind]
        exact hround i (Nat.le_succ i) _ hagain a ha

/-- What the other comes to, the whole run comes to. -/
theorem compares_from :
    Compares p l oracle m.block? (fun x y => Below y x) fun _ => runFrom p l oracle m := by
  refine ⟨fun _ _ h => h, fun h h' a ha => h a (h' a ha), .bind, fun _ _ _ _ _ ha => ha,
    fun {k t} ht i stack st a ha => ?_, fun {α β inv place step done k t i} ht hround => ?_⟩
  · rw [runFrom_eq ht]
    exact ha
  · -- A loop that ends goes round some number of times.
    have hrounds (n : Nat) (a : α) (ha : inv a) :
        Below ((within step n a).bind done) (runFrom p l oracle m k (place a).1 (place a).2) := by
      induction n generalizing a with
      | zero => exact fun _ hb => by cases hb
      | succ n ih =>
          rw [runFrom_eq ht, within_succ_eq, bind_elim_bind]
          exact hround i (Nat.le_refl i) _ ih a ha
    intro a ha r hr
    obtain ⟨b, hb, hdone⟩ := Option.bind_eq_some_iff.mp hr
    obtain ⟨n, hn⟩ := untilDone_eq_some_iff.mp hb
    exact hrounds n a ha r (Option.bind_eq_some_iff.mpr ⟨b, hn, hdone⟩)

end Compares

end Structured

end WasmShader
