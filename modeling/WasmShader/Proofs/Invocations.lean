import WasmShader.Execution.Executor
import WasmShader.Proofs.RunnableModule

/-!
# Invocations in lockstep

On lanes that hold the same words, the operations of an executor come to the same: an entry point
first finds the regions of its lane, and what it runs then is lawful. So one lane can take the
place of another, or of itself after its state has been saved and restored.
-/

namespace WasmShader.Execution

open Emit Compile
open Shader (CallSite StmtsLawful)

/-! ## The start of an entry point -/

/-- The private variables before the regions have been found. -/
def unset : Vars := (Emit.privates.map fun v => (v.name, Datum.zero v.type)).reverse

section Runs

open Exec

variable {env : Env} {s t : State}

theorem outcome_stmts_cons (n : Nat) (st : Shader.Stmt) (rest : List Shader.Stmt) (s : State) :
    outcome (stmts env (n + 1) (st :: rest)) s
      = (outcome (stmt env n st) s).bind (andThen (onNext (outcome (stmts env n rest)))) := by
  rw [stmts, outcome_bind]
  congr 1
  funext r
  obtain ⟨r, s'⟩ := r
  cases r with
  | error e => rfl
  | ok flow => cases flow <;> rfl

theorem outcome_call (n : Nat) {f : Shader.Function} {args : List Datum}
    (hlen : args.length = f.params.length) (s : State) :
    outcome (call env (n + 1) f args) s
      = outcome (do let flow ← stmts env n f.body
                    modify fun s' : State => { s' with vars := s.vars }
                    resultsOf f flow) { s with vars := frame f args } := by
  rw [call, if_neg (not_not_intro hlen)]
  rfl

/-- Finding the regions takes seven units of fuel. -/
theorem outcome_setup {x : Executable} (hx : Runnable x) (henv : env.exe = x) (n : Nat)
    (s : State) :
    outcome (stmt env n (callOnly setupName)) { s with privates := unset }
      = if n < 7 then none else some (.ok .next, { s with privates :=
        [(globalBase, .ofU32 (s.lane.index.toUInt32 * x.globalWords)),
         (ioBase, .ofU32 (s.lane.index.toUInt32 * x.ioWords)),
         (dataBase, .ofU32 (s.lane.index.toUInt32 * (2 + x.stackWords) + 2)),
         (headerBase, .ofU32 (s.lane.index.toUInt32 * (2 + x.stackWords)))] }) := by
  cases n with
  | zero => rfl
  | succ n =>
      have hunnumbered : env.exe.blockNamed? setupName = none := by
        rw [henv]
        exact hx.unnumbered setupName (by decide)
      rw [callOnly, stmt, henv, hx.setup]
      dsimp only
      rw [← henv, hunnumbered]
      by_cases hn : n + 1 < 7
      · rw [if_pos hn]
        obtain rfl | rfl | rfl | rfl | rfl | rfl :
            n = 0 ∨ n = 1 ∨ n = 2 ∨ n = 3 ∨ n = 4 ∨ n = 5 := by omega
        all_goals rfl
      · obtain ⟨k, rfl⟩ : ∃ k, n = k + 6 := ⟨n - 6, by omega⟩
        rw [if_neg hn]
        rfl

/-- The bases are those of the regions. -/
theorem Pair.bases_eq {d : Pair} {x : Executable} (hd : d.size = regionSize x) (i : Nat) :
    d.bases i = [(globalBase, .ofU32 (i.toUInt32 * x.globalWords)),
      (ioBase, .ofU32 (i.toUInt32 * x.ioWords)),
      (dataBase, .ofU32 (i.toUInt32 * (2 + x.stackWords) + 2)),
      (headerBase, .ofU32 (i.toUInt32 * (2 + x.stackWords)))] := by
  have hstack : (regionSize x .stack).toUInt32 = 2 + x.stackWords := by
    rw [regionSize, Nat.toUInt32_eq, UInt32.ofNat_add, UInt32.ofNat_toNat]
    rfl
  have hio : (regionSize x .io).toUInt32 = x.ioWords := UInt32.ofNat_toNat
  have hglobals : (regionSize x .globals).toUInt32 = x.globalWords := UInt32.ofNat_toNat
  simp only [Pair.bases, Pair.base, hd, hstack, hio, hglobals]

/-- The states are in lockstep once the regions have been found. -/
def Twin.Starting (d : Pair) (s t : State) : Prop :=
  Twin d { s with privates := d.bases d.index } { t with privates := d.bases d.index' }

/-- An entry point runs in lockstep. -/
theorem Twin.Starting.call {d : Pair} {x : Executable} (hx : Runnable x) (henv : env.exe = x)
    (hd : d.Matches) (hsize : d.size = regionSize x) {P : CallSite → Prop} {W : String → Prop}
    (hlawful : Lawful x.module P W) (hwritable : Writable d W) {f : Shader.Function}
    (hparams : f.params = []) (hf : StartsLawful P W f) (h : Starting d s t) (n : Nat) :
    Option.Rel (Ended d) (outcome (call env n f []) { s with privates := unset })
      (outcome (call env n f []) { t with privates := unset }) := by
  obtain ⟨rest, hbody, hrest⟩ := hf.body
  have hclear := clear_frame hf.vars []
  cases n with
  | zero => exact .none
  | succ n =>
      rw [outcome_call n (by rw [hparams]; rfl), outcome_call n (by rw [hparams]; rfl), hbody,
        outcome_bind, outcome_bind]
      cases n with
      | zero => exact .none
      | succ n =>
          rw [outcome_stmts_cons, outcome_stmts_cons]
          have hs := outcome_setup hx henv n { s with vars := frame f [] }
          have ht := outcome_setup hx henv n { t with vars := frame f [] }
          dsimp only at hs ht
          rw [hs, ht]
          by_cases hn : n < 7
          · rw [if_pos hn, if_pos hn]
            exact .none
          · rw [if_neg hn, if_neg hn, ← Pair.bases_eq hsize, ← Pair.bases_eq hsize]
            have hrun : Lockstep d
                (do let flow ← stmts env n rest
                    modify fun s' : State => { s' with vars := s.vars }
                    resultsOf f flow)
                (do let flow ← stmts env n rest
                    modify fun s' : State => { s' with vars := s.vars }
                    resultsOf f flow) :=
              ((lockstep_run hd hwritable (henv ▸ hlawful) n).1 rest hrest).bind fun flow =>
                (Lockstep.edit fun s' t' h' => h'.withVars h.clear).bind fun _ =>
                  .resultsOf f flow
            have hvars : t.vars = s.vars := h.vars
            rw [h.index, h.index', hvars]
            have hended := hrun _ _ (h.withVars hclear)
            rw [outcome_bind, outcome_bind] at hended
            exact hended

end Runs

/-! ## Lanes that take each other's place -/

/-- The region of a lane with a number can be addressed. -/
def Fits (x : Executable) (i : Nat) : Prop :=
  ∀ r, regionSize x r < 2 ^ 32 ∧ i * regionSize x r + regionSize x r ≤ 2 ^ 32

/-- The lane has regions of the sizes of the module. -/
def Lane.Sized (x : Executable) (ln : Lane) : Prop := ∀ r, (ln.words r).size = regionSize x r

/-- Lanes with the same words, at the same point of the same invocation. Either they have one
number, or the regions of both can be addressed. -/
structure Mates (x : Executable) (ln ln' : Lane) : Prop where
  sized : ln.Sized x
  words : ∀ r, ln'.words r = ln.words r
  entry : ln'.entry = ln.entry
  steps : ln'.steps = ln.steps
  level : ln.index = ln'.index ∨ Fits x ln.index ∧ Fits x ln'.index

/-- Results that differ in the text of a failure at most. -/
def Alike {α : Type} (r r' : Except Abort α) : Prop :=
  r.mapError Abort.outline = r'.mapError Abort.outline

/-- Operations on two lanes came to the same, and the lanes are still mates. -/
structure Agree {α : Type} (x : Executable) (ln ln' : Lane) (y y' : Except Abort α × Lane) :
    Prop where
  result : Alike y.1 y'.1
  mates : Mates x y.2 y'.2
  index : y.2.index = ln.index
  index' : y'.2.index = ln'.index

section Operations

variable {α : Type} {x : Executable} {ln ln' : Lane} {env : Env}

theorem Alike.refl (r : Except Abort α) : Alike r r := rfl

theorem alike_error {e e' : Abort} (h : e.outline = e'.outline) :
    Alike (.error e : Except Abort α) (.error e') := congrArg Except.error h

theorem Mates.stack (h : Mates x ln ln') : ln'.stack = ln.stack :=
  congrArg LaneStack.mk (h.words .stack)

theorem Mates.io (h : Mates x ln ln') : ln'.io = ln.io := h.words .io

theorem Mates.exportName (h : Mates x ln ln') : ln'.exportName = ln.exportName := by
  rw [Lane.exportName, Lane.exportName, h.entry]

theorem Mates.abandon (h : Mates x ln ln') : Mates x ln.abandon ln'.abandon :=
  { h with sized := h.sized, words := h.words, entry := rfl }

theorem Mates.agree (h : Mates x ln ln') {r r' : Except Abort α} (hr : Alike r r') :
    Agree x ln ln' (r, ln) (r', ln') := ⟨hr, h, rfl, rfl⟩

theorem Mates.failWith (h : Mates x ln ln') {e e' : Abort} (he : e.outline = e'.outline) :
    Agree (α := α) x ln ln' (ln.failWith e) (ln'.failWith e') := by
  cases e with
  | failed e =>
      cases e' with
      | failed e' => exact ⟨alike_error he, h.abandon, rfl, rfl⟩
      | crashed message => cases he
  | crashed message =>
      cases e' with
      | failed e' => cases he
      | crashed message' => exact ⟨alike_error he, h, rfl, rfl⟩

theorem Mates.trapFailure (h : Mates x ln ln') (code : TrapCode) :
    (Abort.failed (ln.trapFailure code)).outline = (Abort.failed (ln'.trapFailure code)).outline := by
  rw [Lane.trapFailure, Lane.trapFailure, h.exportName]
  rfl

theorem Mates.stopWith (h : Mates x ln ln') {e e' : Stop} (he : e.outline = e'.outline) :
    Option.Rel (Agree (α := α) x ln ln') (ln.stopWith e) (ln'.stopWith e') := by
  cases e with
  | trap code =>
      cases e' with
      | trap code' =>
          cases he
          exact .some (h.failWith (h.trapFailure code))
      | abort | outOfFuel => cases he
  | abort cause =>
      cases e' with
      | abort cause' => exact .some (h.failWith (Stop.abort.inj he))
      | trap | outOfFuel => cases he
  | outOfFuel =>
      cases e' with
      | outOfFuel => exact .none
      | trap | abort => cases he

theorem Mates.settle (h : Mates x ln ln') : Agree x ln ln' (ln.settle x) (ln'.settle x) := by
  unfold Lane.settle
  rw [h.stack, h.entry, h.io, h.steps]
  split
  · exact h.failWith (h.trapFailure _)
  · split
    · exact h.failWith rfl
    · exact h.agree (.refl _)
    · split
      · exact h.agree (.refl _)
      · split
        · exact h.failWith rfl
        · exact ⟨.refl _, h.abandon, rfl, rfl⟩

/-! ## Runs of entry points -/

/-- Goes on behind the code of an entry point. -/
def Lane.leaveWith (x : Executable) : Ending (List Datum) → OnLane Outcome
  | (.error stop, s) => s.lane.stopWith stop
  | (.ok _, s) => some (s.lane.settle x)

/-- A lane as an entry point finds it. -/
def Lane.entering (ln : Lane) : State := { lane := ln, privates := unset }

theorem Lane.enter_eq (hx : Runnable env.exe) {name : String} {f : Shader.Function}
    (hf : env.exe.module.function? name = some f) (n : Nat) (ln : Lane) :
    ln.enter env n name
      = (Exec.outcome (Exec.call env n f []) ln.entering).bind (leaveWith env.exe) := by
  have hunset : (env.exe.module.privates.map fun v => (v.name, Datum.zero v.type)).reverse
      = unset := by
    rw [hx.privates]
    rfl
  rw [Lane.enter, hf]
  dsimp only
  rw [hunset, Exec.outcome]
  unfold Lane.entering
  rcases (Exec.call env n f []).run.run { lane := ln, privates := unset } with ⟨r, s⟩
  cases r with
  | ok a => rfl
  | error e => cases e <;> rfl

/-- What two mates have for good. -/
def Mates.pair (_ : Mates x ln ln') : Pair :=
  { index := ln.index, index' := ln'.index, entry := ln.entry, size := regionSize x }

theorem Mates.starting (h : Mates x ln ln') : Twin.Starting h.pair ln.entering ln'.entering where
  index := rfl
  index' := rfl
  entry := rfl
  entry' := h.entry
  size := h.sized
  words := h.words
  steps := h.steps
  vars := rfl
  clear := List.forall_mem_nil _
  bases := rfl
  bases' := rfl
  sp := nofun

theorem Mates.of_twin (h : Mates x ln ln') {s t : State} (htwin : Twin h.pair s t) :
    Mates x s.lane t.lane where
  sized := htwin.size
  words := htwin.words
  entry := htwin.entry'.trans htwin.entry.symm
  steps := htwin.steps
  level := by
    rw [htwin.index, htwin.index']
    exact h.level

/-- The code of the function starts as that of an entry point. -/
structure IsStart (f : Shader.Function) : Prop where
  params : f.params = []
  starts : StartsLawful InnerSite (fun _ => True) f

/-- An entry point runs alike on mates. -/
theorem Mates.enter (h : Mates x ln ln') (hx : Runnable x) (henv : env.exe = x) {name : String}
    {f : Shader.Function} (hf : x.module.function? name = some f) (hstart : IsStart f) (n : Nat) :
    Option.Rel (Agree x ln ln') (ln.enter env n name) (ln'.enter env n name) := by
  subst henv
  rw [Lane.enter_eq hx hf, Lane.enter_eq hx hf]
  have hmatches : h.pair.Matches := h.level
  refine (h.starting.call hx rfl hmatches rfl hx.inner (fun _ => rfl) hstart.params hstart.starts
    n).bind ?_
  rintro ⟨r, s⟩ ⟨r', t⟩ ⟨hsame, htwin⟩
  have hmates := h.of_twin htwin
  have hindex (y y' : Except Abort Outcome × Lane) (hy : Agree env.exe s.lane t.lane y y') :
      Agree env.exe ln ln' y y' :=
    ⟨hy.result, hy.mates, hy.index.trans htwin.index, hy.index'.trans htwin.index'⟩
  rcases hsame.cases with ⟨a, rfl, rfl⟩ | ⟨e, e', rfl, rfl, houtline⟩
  · exact .some (hindex _ _ hmates.settle)
  · exact (hmates.stopWith houtline).mono hindex

theorem inner_dispatcher : InnerSite ⟨dispatcherName, 0, 0⟩ := by
  rw [InnerSite]
  decide

theorem IsEntryCode.isStart {e : Entry} {f : Shader.Function} (h : IsEntryCode x e f) :
    IsStart f := by
  rcases h with ⟨-, rfl⟩ | ⟨⟨exit, first, -, rfl⟩, -⟩
  · refine ⟨rfl, directEntry_starts _ _ _ _ ?_ trivial trivial⟩
    rw [InnerSite, stem_directName]
    decide
  · exact ⟨rfl, machineEntry_starts _ _ _ _ _ _ inner_dispatcher trivial⟩

theorem isStart_resume : IsStart resumeEntry := ⟨rfl, resumeEntry_starts inner_dispatcher⟩

/-! ## Operations -/

theorem Lane.size_overwrite (target source : Array UInt32) :
    (overwrite target source).size = target.size := by
  rw [overwrite, Array.size_append, Array.size_extract, Array.size_extract]
  omega

theorem Lane.overwrite_eq {target source : Array UInt32} (h : source.size = target.size) :
    overwrite target source = source := by
  rw [overwrite, ← h, Array.extract_size, Array.extract_eq_empty_of_le]
  · rw [Array.append_empty]
  · omega

theorem LaneStack.size_writeAt (xs : Array UInt32) (place : Nat) (ws : List UInt32) :
    (LaneStack.writeAt xs place ws).size = xs.size := by
  induction ws generalizing xs place with
  | nil => rfl
  | cons w ws ih =>
      rw [LaneStack.writeAt, ih, Array.size_setIfInBounds]

theorem LaneStack.size_pop {s s' : LaneStack} {n : Nat} {ws : List UInt32}
    (h : s.pop n = .ok (ws, s')) : s'.words.size = s.words.size := by
  unfold LaneStack.pop at h
  dsimp only at h
  split at h
  · cases h
  · obtain ⟨ws', -, h⟩ := Program.bind_eq_ok h
    cases h
    exact Array.size_setIfInBounds ..

theorem HostTable.size_complete (t : HostTable) (p : Pending) (results : List Value)
    (s : LaneStack) : (t.complete p results s).2.words.size = s.words.size := by
  unfold HostTable.complete
  split
  · rfl
  · rfl
  · split
    · rfl
    · next hpop =>
      have hsize := LaneStack.size_pop hpop
      split
      · exact hsize
      · dsimp only
        split
        · exact hsize
        · exact (LaneStack.size_writeAt ..).trans hsize

/-- Mates with other words in a region. -/
theorem Mates.withWords (h : Mates x ln ln') {r : Region} {ws : Array UInt32}
    (hsize : ws.size = (ln.words r).size) : Mates x (ln.withWords r ws) (ln'.withWords r ws) where
  sized r' := by
    by_cases hr : r' = r
    · rw [hr, Lane.words_withWords, hsize, h.sized]
    · rw [Lane.words_withWords_ne hr, h.sized]
  words r' := by
    by_cases hr : r' = r
    · rw [hr, Lane.words_withWords, Lane.words_withWords]
    · rw [Lane.words_withWords_ne hr, Lane.words_withWords_ne hr, h.words]
  entry := by cases r <;> exact h.entry
  steps := by cases r <;> exact h.steps
  level := by
    rw [Lane.index_withWords, Lane.index_withWords]
    exact h.level

/-- An export starts alike on mates. -/
theorem Mates.invoke (h : Mates x ln ln') (hx : Runnable x) (henv : env.exe = x) (n : Nat)
    (symbol : Symbol) (args : List Value) :
    Option.Rel (Agree x ln ln') (ln.invoke env n symbol args) (ln'.invoke env n symbol args) := by
  unfold Lane.invoke
  rw [h.io]
  split
  · exact .some (h.agree (.refl _))
  · next e he =>
    split
    · exact .some (h.agree (.refl _))
    · have hcleared : (Array.replicate ln.io.size (0 : UInt32)).size = ln.io.size :=
        Array.size_replicate
      dsimp only
      split
      · exact .some ⟨.refl _, h.withWords (r := .io) hcleared, rfl, rfl⟩
      · next words hwords =>
        rw [henv] at he
        obtain ⟨f, hf, hcode⟩ := hx.entry e (List.mem_of_find?_eq_some he)
        have hio := h.withWords (r := .io) ((Lane.size_overwrite _ words.toArray).trans hcleared)
        have hstarted : Mates x
            { ln with
              io := Lane.overwrite (Array.replicate ln.io.size 0) words.toArray
              entry := some e
              steps := 0 }
            { ln' with
              io := Lane.overwrite (Array.replicate ln.io.size 0) words.toArray
              entry := some e
              steps := 0 } :=
          { hio with sized := hio.sized, words := hio.words, entry := rfl, steps := rfl }
        exact (hstarted.enter hx henv hf hcode.isStart n).mono fun y y' hy =>
          ⟨hy.result, hy.mates, hy.index, hy.index'⟩

/-- A suspended invocation goes on alike on mates. -/
theorem Mates.resume (h : Mates x ln ln') (hx : Runnable x) (henv : env.exe = x) (n : Nat) :
    Option.Rel (Agree x ln ln') (ln.resume env n) (ln'.resume env n) := by
  have hsuspended : ln'.isSuspended = ln.isSuspended := by
    rw [Lane.isSuspended, Lane.isSuspended, h.entry, h.stack]
  unfold Lane.resume
  rw [hsuspended]
  split
  · cases hf : x.module.function? resumeName with
    | some f =>
        have hresume := hx.resume f hf
        subst hresume
        exact h.enter hx henv hf isStart_resume n
    | none =>
        rw [Lane.enter, Lane.enter, henv, hf]
        exact .some (h.agree (.refl _))
  · exact .some (h.agree rfl)

/-- A request is answered alike on mates. -/
theorem Mates.complete (h : Mates x ln ln') (p : Pending) (results : List Value) :
    Agree x ln ln' (ln.complete x p results) (ln'.complete x p results) := by
  have hcomplete : (ln.complete x p results).2
      = ln.withWords .stack (x.hosts.complete p results ln.stack).2.words := rfl
  have hcomplete' : (ln'.complete x p results).2
      = ln'.withWords .stack (x.hosts.complete p results ln.stack).2.words := by
    rw [← h.stack]
    rfl
  refine ⟨?_, ?_, rfl, rfl⟩
  · rw [Lane.complete, Lane.complete, h.stack]
    exact .refl _
  · rw [hcomplete, hcomplete']
    exact h.withWords (HostTable.size_complete ..)

/-- A state that was saved is taken over: all of it, but for what is recorded of blocks. -/
theorem Lane.Sized.restore {saved : Lane} (h : ln.Sized x) (hsaved : saved.Sized x) :
    ln.restore saved = { saved with index := ln.index, trace := ln.trace } := by
  have hoverwrite (r : Region) : Lane.overwrite (ln.words r) (saved.words r) = saved.words r :=
    Lane.overwrite_eq ((hsaved r).trans (h r).symm)
  have hstack := hoverwrite .stack
  have hio := hoverwrite .io
  have hglobals := hoverwrite .globals
  dsimp only [Lane.words] at hstack hio hglobals
  rw [Lane.restore, hstack, hio, hglobals]

end Operations

end WasmShader.Execution
