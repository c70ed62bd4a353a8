import WasmShader.Proofs.DeadLocals
import WasmShader.Proofs.FramePassing
import WasmShader.Proofs.Reference

/-!
# Calls under way

An evaluation that calls itself for every call of the program has a stack of its own. Here that stack
is data: the calls that have not come back, each with the block where it goes on, and what is to be
done now (`Situation`). A step runs one block, or asks the host, and each block starts with what its
frame saves of the locals (`Situation.step`).

Steps repeated until there is an end are the reply to the call that they started with
(`World.steps_reply`). That steps reach no other end is seen from what a situation comes to
(`comesTo`), which a step does not change. That they reach an end at all goes by the depth of the calls
and, for each, by the number of blocks, whatever other calls are waiting (`steps_of_within`).
-/

namespace WasmShader

open Execution (Datum FitsAll)

namespace Structured

variable {σ : Type}

/-! ## Situations -/

/-- A call that is under way: the block that is next, and the locals and operands that it is entered
with. While the call waits for another, the results of that one are still to come. -/
structure Activation where
  frames : Frames
  block : Nat
  locals : List Datum
  operands : List Datum

/-- The results that the call has waited for. -/
def Activation.resume (a : Activation) (results : List Datum) : Activation :=
  { a with operands := a.operands ++ results }

/-- What is to be done now. -/
inductive Task
  | run (a : Activation)
  | ask (func : HostFunc) (args : List Datum)
  /-- All calls have come back. -/
  | leave (results : List Datum)

/-- A point of an evaluation, with the calls that are waiting, the last one first. -/
structure Situation (σ : Type) where
  waiting : List Activation
  task : Task
  shared : Shared σ

/-- The results go to the call that waits for them. -/
def Situation.back : List Activation → List Datum → Shared σ → Situation σ
  | [], results, shared => ⟨[], .leave results, shared⟩
  | a :: waiting, results, shared => ⟨waiting, .run (a.resume results), shared⟩

/-- The machine of a function. -/
def findFrames (frames : List Frames) (fn : Nat) : Option Frames :=
  frames.find? (·.machine.func.index == fn)

/-- What the way out of a block leads to. -/
def Situation.afterExit (frames : List Frames) (fr : Frames) (waiting : List Activation) :
    Ending (Store σ) Exit → Situation σ ⊕ Ending (Shared σ) (List Datum)
  | (.ok (.goto target stack), st) => .inl ⟨waiting, .run ⟨fr, target, st.locals, stack⟩, st.shared⟩
  | (.ok (.transfer (.func fn) _ next rest args), st) =>
    match findFrames frames fn with
    | some callee =>
      .inl ⟨⟨fr, next, st.locals, rest⟩ :: waiting, .run ⟨callee, 0, args, []⟩, st.shared⟩
    | none => .inr (.error .stuck, st.shared)
  | (.ok (.transfer (.host func) _ next rest args), st) =>
    .inl ⟨⟨fr, next, st.locals, rest⟩ :: waiting, .ask func args, st.shared⟩
  | (.ok (.ret results), st) => .inl (.back waiting results st.shared)
  | (.error e, st) => .inr (.error e, st.shared)

/-- What an answer leads to. -/
def Situation.afterAnswer (waiting : List Activation) :
    Ending (Shared σ) (List Datum) → Situation σ ⊕ Ending (Shared σ) (List Datum)
  | (.ok results, shared) => .inl (.back waiting results shared)
  | (.error e, shared) => .inr (.error e, shared)

/-- Runs the block that is next, which starts with what its frame gives. -/
noncomputable def Activation.eval (p : Program) (oracle : Oracle σ) (a : Activation)
    (shared : Shared σ) : Option (Ending (Store σ) Exit) :=
  match a.frames.machine.blocks[a.block]? with
  | none => some (.error .stuck, ⟨a.frames.restored a.block a.locals, shared⟩)
  | some b =>
    evalBlock p a.frames.layout oracle b a.operands ⟨a.frames.restored a.block a.locals, shared⟩

/-- Does what is to be done now. -/
noncomputable def Situation.step (p : Program) (frames : List Frames) (oracle : Oracle σ)
    (s : Situation σ) : Option (Situation σ ⊕ Ending (Shared σ) (List Datum)) :=
  match s.task with
  | .run a => (a.eval p oracle s.shared).map (afterExit frames a.frames s.waiting)
  | .ask func args => (oracle (.host func.key) args s.shared).map (afterAnswer s.waiting)
  | .leave results => some (.inr (.ok results, s.shared))

/-! ## Runs of activations -/

/-- What the call comes to, in as many blocks as it takes. -/
noncomputable def Activation.run (p : Program) (oracle : Oracle σ) (a : Activation)
    (shared : Shared σ) : Option (Ending (Shared σ) (List Datum)) :=
  (runRestoring p oracle a.frames a.block a.operands ⟨a.locals, shared⟩).map seen

/-- What the call comes to in a number of blocks. -/
noncomputable def Activation.runIn (p : Program) (oracle : Oracle σ) (n : Nat) (a : Activation)
    (shared : Shared σ) : Option (Ending (Shared σ) (List Datum)) :=
  (within (fun now => runStep p a.frames.layout oracle a.frames.machine
    (now.1, { now.2 with locals := a.frames.restored now.1.1 now.2.locals })) n
    ((a.block, a.operands), ⟨a.locals, shared⟩)).map seen

/-- Goes on behind a call, where `going` says what activations of the same call come to. -/
def Activation.answered (going : Activation → Shared σ → Option (Ending (Shared σ) (List Datum)))
    (a : Activation) : Ending (Shared σ) (List Datum) → Option (Ending (Shared σ) (List Datum))
  | (.ok results, shared) => going (a.resume results) shared
  | (.error e, shared) => some (.error e, shared)

/-- Goes on behind a block. -/
def Activation.onward (fr : Frames) (oracle : Oracle σ)
    (going : Activation → Shared σ → Option (Ending (Shared σ) (List Datum))) :
    Ending (Store σ) Exit → Option (Ending (Shared σ) (List Datum))
  | (.ok (.goto target stack), st) => going ⟨fr, target, st.locals, stack⟩ st.shared
  | (.ok (.transfer callee _ next rest args), st) =>
    (oracle callee.request args st.shared).bind
      (Activation.answered going ⟨fr, next, st.locals, rest⟩)
  | (.ok (.ret results), st) => some (.ok results, st.shared)
  | (.error e, st) => some (.error e, st.shared)

section Runs

variable {p : Program} {oracle : Oracle σ} {a : Activation} {shared : Shared σ}

/-- A block of the run, and going on behind it. -/
theorem Activation.bind_runStep (a : Activation) (shared : Shared σ)
    {going : Config × Store σ → Option (Ending (Store σ) (List Datum))}
    {going' : Activation → Shared σ → Option (Ending (Shared σ) (List Datum))}
    (h : ∀ k locals operands shared, (going ((k, operands), ⟨locals, shared⟩)).map seen
      = going' ⟨a.frames, k, locals, operands⟩ shared) :
    ((runStep p a.frames.layout oracle a.frames.machine ((a.block, a.operands),
        ⟨a.frames.restored a.block a.locals, shared⟩)).bind (Sum.elim going some)).map seen
      = (a.eval p oracle shared).bind (Activation.onward a.frames oracle going') := by
  rw [Activation.eval]
  cases hb : a.frames.machine.blocks[a.block]? with
  | none =>
      have hrun : runBlock p a.frames.layout oracle a.frames.machine (a.block, a.operands)
          = throw .stuck := by
        rw [runBlock, hb]
      rw [runStep, hrun]
      rfl
  | some b =>
      have ht : a.frames.machine.block? a.block = some ⟨b.body, b.term⟩ := by
        rw [Machine.block?, hb]
        rfl
      rw [Structured.bind_runStep ht, Structured.resume, ← evalBlock_eq, Option.map_bind]
      refine congrArg _ (funext fun r => ?_)
      obtain ⟨r, st⟩ := r
      cases r with
      | error e => rfl
      | ok exit =>
          cases exit with
          | goto target stack => exact h target st.locals stack st.shared
          | ret results => rfl
          | transfer callee sig next rest args =>
              rw [Function.comp_apply, Structured.onward, Activation.onward, Option.map_bind]
              refine congrArg _ (funext fun answer => ?_)
              obtain ⟨answer, shared'⟩ := answer
              cases answer with
              | error e => rfl
              | ok results => exact h next st.locals (rest ++ results) shared'

theorem Activation.run_eq (a : Activation) (shared : Shared σ) : a.run p oracle shared
    = (a.eval p oracle shared).bind (Activation.onward a.frames oracle (Activation.run p oracle)) := by
  rw [Activation.run, runRestoring, untilDone_eq]
  exact a.bind_runStep shared fun _ _ _ _ => rfl

theorem Activation.runIn_succ (n : Nat) (a : Activation) (shared : Shared σ) :
    a.runIn p oracle (n + 1) shared
      = (a.eval p oracle shared).bind
        (Activation.onward a.frames oracle (Activation.runIn p oracle n)) := by
  rw [Activation.runIn, within_succ_eq]
  exact a.bind_runStep shared fun _ _ _ _ => rfl

end Runs

/-- More answers give a block more ends. -/
theorem Activation.eval_below {p : Program} {o o' : Oracle σ} (h : o.Below o') {a : Activation}
    {shared : Shared σ} {r : Ending (Store σ) Exit} (hr : a.eval p o shared = some r) :
    a.eval p o' shared = some r := by
  rw [Activation.eval] at hr ⊢
  cases hb : a.frames.machine.blocks[a.block]? with
  | none =>
      rw [hb] at hr
      exact hr
  | some b =>
      rw [hb] at hr
      refine EvalBelow.bind (evalSeq_below h b.body a.operands) (fun flow => ?_) _ _ hr
      exact .refl _

/-! ## Machines of a program -/

/-- The machines of functions of the program, and of all those that they call; what they ask the host
for is among what may be asked. -/
structure Machinery (p : Program) (l : Layout) (asked : HostFunc → Prop) (frames : List Frames) :
    Prop where
  formed : p.Formed
  layout : ∀ fr ∈ frames, fr.layout = l
  laidOut : ∀ fr ∈ frames, fr.Formed
  typed : ∀ fr ∈ frames, ∀ b ∈ fr.machine.blocks, ∃ a kept, b.Typed p a kept fr.machine
  func : ∀ fr ∈ frames, p.func? fr.machine.func.index = some fr.machine.func
  first : ∀ fr ∈ frames, fr.machine.entryTypes? 0 = some []
    ∧ (fr.payload 0).types = fr.machine.func.type.params
    ∧ (fr.payload 0).locals = List.range fr.machine.func.type.params.length
  calls : ∀ fr ∈ frames, ∀ b ∈ fr.machine.blocks, ∀ fn sig next,
    b.term.transfer? = some (.func fn, sig, next) → ∃ callee ∈ frames, callee.machine.func.index = fn
  asks : ∀ fr ∈ frames, ∀ b ∈ fr.machine.blocks, ∀ func sig next,
    b.term.transfer? = some (.host func, sig, next) → asked func
  means : ∀ fr ∈ frames, ∀ {σ : Type} (oracle : Oracle σ) args shared, oracle.Sound p l →
    FitsAll l fr.machine.func.type.params args → p.GlobalsFit l shared.globals →
    evalFunction p l oracle fr.machine.func args shared
      = Activation.run p oracle ⟨fr, 0, args, []⟩ shared

section Fits

variable (p : Program) (l : Layout) (asked : HostFunc → Prop) (frames : List Frames)

/-- The block that is next can be entered. -/
structure Activation.Fits (a : Activation) : Prop where
  mem : a.frames ∈ frames
  frame : FitsAll l (a.frames.payload a.block).types
    ((a.frames.payload a.block).saved a.locals ++ a.operands)
  operands : ∃ types, a.frames.machine.entryTypes? a.block = some types ∧ FitsAll l types a.operands

/-- The block that is next can be entered once results of these types are there. -/
structure Activation.Waits (results : List ValueType) (a : Activation) : Prop where
  mem : a.frames ∈ frames
  locals : FitsAll l a.frames.machine.func.locals a.locals
  operands : ∃ types, a.frames.machine.entryTypes? a.block = some (types ++ results)
    ∧ FitsAll l types a.operands

/-- Calls that wait for results of these types; the first of them gives the final ones. -/
inductive Awaits (finals : List ValueType) : List ValueType → List Activation → Prop
  | done : Awaits finals finals []
  | call {a : Activation} {results : List ValueType} {waiting : List Activation} :
      a.Waits l frames results → Awaits finals a.frames.machine.func.type.results waiting →
      Awaits finals results (a :: waiting)

/-- What is to be done can be done, and gives what is waited for. -/
inductive Situation.Fits (finals : List ValueType) : Situation σ → Prop
  | run {waiting : List Activation} {a : Activation} {shared : Shared σ} : a.Fits l frames →
      Awaits l frames finals a.frames.machine.func.type.results waiting →
      p.GlobalsFit l shared.globals → Fits finals ⟨waiting, .run a, shared⟩
  | ask {waiting : List Activation} {func : HostFunc} {args : List Datum} {shared : Shared σ} :
      asked func → requestSignature? p (.host func.key) = some ⟨func.params, func.results⟩ →
      FitsAll l func.params args → Awaits l frames finals func.results waiting →
      p.GlobalsFit l shared.globals → Fits finals ⟨waiting, .ask func args, shared⟩
  | leave {results : List Datum} {shared : Shared σ} : FitsAll l finals results →
      p.GlobalsFit l shared.globals → Fits finals ⟨[], .leave results, shared⟩

end Fits

section Steps

variable {p : Program} {l : Layout} {asked : HostFunc → Prop} {frames : List Frames}
  {finals results : List ValueType} {waiting : List Activation} {a : Activation} {oracle : Oracle σ}
  {shared : Shared σ} {s : Situation σ}

theorem of_findFrames {fn : Nat} {fr : Frames} (h : findFrames frames fn = some fr) :
    fr ∈ frames ∧ fr.machine.func.index = fn :=
  ⟨List.mem_of_find?_eq_some h, beq_iff_eq.mp (List.find?_some h :)⟩

theorem exists_findFrames {fn : Nat} (h : ∃ fr ∈ frames, fr.machine.func.index = fn) :
    ∃ fr, findFrames frames fn = some fr := by
  obtain ⟨fr, hfr, hindex⟩ := h
  refine Option.isSome_iff_exists.mp (List.find?_isSome.mpr ⟨fr, hfr, ?_⟩)
  exact beq_iff_eq.mpr hindex

theorem Machinery.payload (h : Machinery p l asked frames) {fr : Frames} (hfr : fr ∈ frames) {k : Nat}
    {types : List ValueType} (hk : fr.machine.entryTypes? k = some types) :
    (fr.payload k).Formed l fr.machine.func types := by
  have hpl := (h.laidOut fr hfr).payload_of_entry hk
  rwa [h.layout fr hfr] at hpl

/-- Of locals that fit, those that a frame saves fit. -/
theorem saved_fits {f : Function} {pl : Payload} {saved : List ValueType}
    (hsaved : List.Forall₂ (fun i t => f.locals[i]? = some t) pl.locals saved) {locals : List Datum}
    (hlocals : FitsAll l f.locals locals) : FitsAll l saved (pl.saved locals) := by
  rw [Payload.saved]
  generalize pl.locals = is at hsaved
  induction hsaved with
  | nil => exact .nil
  | cons ht _ ih =>
      refine .cons ?_ ih
      obtain ⟨d, hd, hfits⟩ := getElem?_of_forall₂ hlocals ht
      change Datum.Fits l _ (locals.getD _ default)
      rw [List.getD_eq_getElem?_getD, hd]
      exact hfits

theorem Activation.fits_of_locals (h : Machinery p l asked frames) (hmem : a.frames ∈ frames)
    (hlocals : FitsAll l a.frames.machine.func.locals a.locals) {types : List ValueType}
    (hentry : a.frames.machine.entryTypes? a.block = some types) (hoperands : FitsAll l types a.operands) :
    a.Fits l frames := by
  obtain ⟨saved, hsaved, htypes⟩ := (h.payload hmem hentry).types
  refine ⟨hmem, ?_, types, hentry, hoperands⟩
  rw [htypes]
  exact FitsAll.append (saved_fits hsaved hlocals) hoperands

theorem Activation.Waits.resume (h : Machinery p l asked frames) (ha : a.Waits l frames results)
    {data : List Datum} (hdata : FitsAll l results data) : (a.resume data).Fits l frames := by
  obtain ⟨types, hentry, hoperands⟩ := ha.operands
  exact Activation.fits_of_locals (a := a.resume data) h ha.mem ha.locals hentry
    (FitsAll.append hoperands hdata)

/-- The frame that a function starts with saves the arguments. -/
theorem Machinery.saved_first (h : Machinery p l asked frames) {fr : Frames} (hfr : fr ∈ frames)
    {args : List Datum} (hlen : args.length = fr.machine.func.type.params.length) :
    (fr.payload 0).saved args = args := by
  obtain ⟨-, -, hlocals⟩ := h.first fr hfr
  rw [Payload.saved, hlocals, ← hlen]
  refine List.ext_getElem? fun i => ?_
  rw [List.getElem?_map]
  by_cases hi : i < args.length
  · rw [List.getElem?_range hi, Option.map_some, List.getD_eq_getElem _ _ hi,
      List.getElem?_eq_getElem hi]
  · rw [List.getElem?_eq_none (by rw [List.length_range]; omega),
      List.getElem?_eq_none (by omega)]
    rfl

/-- A function starts with its arguments. -/
theorem Activation.start_fits (h : Machinery p l asked frames) {fr : Frames} (hfr : fr ∈ frames)
    {args : List Datum} (hargs : FitsAll l fr.machine.func.type.params args) :
    Activation.Fits l frames ⟨fr, 0, args, []⟩ := by
  obtain ⟨hentry, htypes, -⟩ := h.first fr hfr
  refine ⟨hfr, ?_, [], hentry, .nil⟩
  rw [htypes, h.saved_first hfr hargs.length_eq.symm, List.append_nil]
  exact hargs

theorem Activation.Fits.store (h : Machinery p l asked frames) (ha : a.Fits l frames)
    (hshared : p.GlobalsFit l shared.globals) :
    Store.Fits p l a.frames.machine.func ⟨a.frames.restored a.block a.locals, shared⟩ := by
  obtain ⟨types, hentry, hoperands⟩ := ha.operands
  have hpl := h.payload ha.mem hentry
  obtain ⟨saved, hsaved, htypes⟩ := hpl.types
  have hframe := ha.frame
  rw [htypes] at hframe
  have hlen : ((a.frames.payload a.block).saved a.locals).length = saved.length := by
    rw [Payload.saved, List.length_map, hsaved.length_eq]
  obtain ⟨front, back, heq, hfront, -⟩ := hframe.of_append
  obtain ⟨rfl, -⟩ := List.append_inj heq (by rw [hlen, hfront.length_eq])
  refine ⟨?_, hshared⟩
  rw [Frames.restored, h.layout _ ha.mem]
  exact spreadLocals_fits hpl.nodup hsaved hfront

/-- What control is transferred to is what the terminator says. -/
theorem transfer?_of_exitBy {t : Terminator} {stack : List Datum} {st st' : Store σ} {callee : Callee}
    {sig : Signature} {next : Nat} {rest args : List Datum}
    (h : exitBy stack t st = some (.ok (.transfer callee sig next rest args), st')) :
    t.transfer? = some (callee, sig, next) := by
  have hbind {α : Type} {x : Eval σ α} {k : α → Eval σ Exit} {r : Exit}
      (hr : (x >>= k) st = some (.ok r, st')) : ∃ a st₁, k a st₁ = some (.ok r, st') := by
    rw [bind_apply] at hr
    obtain ⟨⟨a, st₁⟩, -, hr⟩ := Option.bind_eq_some_iff.mp hr
    cases a with
    | error e => cases hr
    | ok a => exact ⟨a, st₁, hr⟩
  cases t with
  | goto e => cases h
  | branch taken notTaken =>
      obtain ⟨a, st₁, h⟩ := hbind h
      cases h
  | switch cases fallback =>
      obtain ⟨a, st₁, h⟩ := hbind h
      cases h
  | call callee' args' results' next' =>
      obtain ⟨a, st₁, h⟩ := hbind h
      cases h
      rfl
  | host func' args' results' next' =>
      obtain ⟨a, st₁, h⟩ := hbind h
      cases h
      rfl
  | ret results => cases h
  | trap code => cases h

/-- What is known of the way out of a block that is next. -/
theorem Activation.Fits.eval (h : Machinery p l asked frames) (horacle : oracle.Sound p l)
    (ha : a.Fits l frames) (hshared : p.GlobalsFit l shared.globals) {r : Except Stop Exit}
    {st : Store σ} (hr : a.eval p oracle shared = some (r, st)) :
    ExitFits p l a.frames.machine r st ∧ ∀ callee sig next rest args,
      r = .ok (.transfer callee sig next rest args) →
        ∃ b ∈ a.frames.machine.blocks, b.term.transfer? = some (callee, sig, next) := by
  have hst := ha.store h hshared
  obtain ⟨types, hentry, hoperands⟩ := ha.operands
  obtain ⟨b, hb, rfl⟩ := Option.map_eq_some_iff.mp hentry
  have hmem := List.mem_of_getElem? hb
  obtain ⟨an, kept, htyped⟩ := h.typed _ ha.mem b hmem
  rw [Activation.eval, hb] at hr
  dsimp only at hr
  rw [h.layout _ ha.mem] at hr
  refine ⟨evalBlock_fits h.formed horacle htyped hoperands hst _ _ hr, ?_⟩
  rintro callee sig next rest args rfl
  refine ⟨b, hmem, ?_⟩
  rw [evalBlock_eq] at hr
  obtain ⟨⟨flow, st₁⟩, -, hexit⟩ := Option.bind_eq_some_iff.mp hr
  cases flow with
  | error e => cases hexit
  | ok flow =>
      cases flow with
      | next stack => exact transfer?_of_exitBy hexit
      | branch depth stack => cases hexit
      | ret stack => cases hexit

theorem Awaits.back (h : Machinery p l asked frames) (hwaiting : Awaits l frames finals results waiting)
    {data : List Datum} (hdata : FitsAll l results data) (hshared : p.GlobalsFit l shared.globals) :
    (Situation.back waiting data shared).Fits p l asked frames finals := by
  cases hwaiting with
  | done => exact .leave hdata hshared
  | call ha hwaiting => exact .run (ha.resume h hdata) hwaiting hshared

/-- What a step leads to: a situation, or an end with the final results. -/
def Situation.Leads (p : Program) (l : Layout) (asked : HostFunc → Prop) (frames : List Frames)
    (finals : List ValueType) : Situation σ ⊕ Ending (Shared σ) (List Datum) → Prop
  | .inl s => s.Fits p l asked frames finals
  | .inr (r, shared) => AnswerFits p l finals r shared

theorem Situation.Fits.afterExit (h : Machinery p l asked frames) (ha : a.Fits l frames)
    (hwaiting : Awaits l frames finals a.frames.machine.func.type.results waiting)
    {r : Except Stop Exit} {st : Store σ} (hexit : ExitFits p l a.frames.machine r st)
    (htransfer : ∀ callee sig next rest args, r = .ok (.transfer callee sig next rest args) →
      ∃ b ∈ a.frames.machine.blocks, b.term.transfer? = some (callee, sig, next)) :
    Situation.Leads p l asked frames finals
      (Situation.afterExit frames a.frames waiting (r, st)) := by
  cases r with
  | error e => exact hexit
  | ok exit =>
      cases exit with
      | goto target stack =>
          obtain ⟨⟨types, hentry, hstack⟩, hst⟩ := hexit
          exact .run (Activation.fits_of_locals (a := ⟨a.frames, target, st.locals, stack⟩) h ha.mem
            hst.locals hentry hstack) hwaiting hst.globals
      | ret results =>
          obtain ⟨hresults, hst⟩ := hexit
          exact hwaiting.back h hresults hst.globals
      | transfer callee sig next rest args =>
          obtain ⟨⟨types, hentry, hrest⟩, htakes, hargs, hst⟩ := hexit
          obtain ⟨b, hb, hterm⟩ := htransfer _ _ _ _ _ rfl
          have hwaits : Activation.Waits l frames sig.results ⟨a.frames, next, st.locals, rest⟩ :=
            ⟨ha.mem, hst.locals, types, hentry, hrest⟩
          cases callee with
          | func fn =>
              obtain ⟨fr, hfr⟩ := exists_findFrames (h.calls _ ha.mem b hb fn sig next hterm)
              obtain ⟨hmem, rfl⟩ := of_findFrames hfr
              have htype := htakes.func _ rfl
              rw [h.func fr hmem] at htype
              obtain rfl : fr.machine.func.type = sig := Option.some.inj htype
              rw [Situation.afterExit, hfr]
              exact .run (Activation.start_fits h hmem hargs) (.call hwaits hwaiting) hst.globals
          | host func =>
              obtain ⟨hrequest, hparams, hresults⟩ := htakes.host func rfl
              obtain ⟨params, results⟩ := sig
              obtain rfl : func.params = params := hparams
              obtain rfl : func.results = results := hresults
              exact .ask (h.asks _ ha.mem b hb func _ next hterm) hrequest hargs
                (.call hwaits hwaiting) hst.globals

/-- A step leads from a situation that fits to another, or to an end that fits. -/
theorem Situation.Fits.step (h : Machinery p l asked frames) (horacle : oracle.Sound p l)
    (hs : s.Fits p l asked frames finals) {x : Situation σ ⊕ Ending (Shared σ) (List Datum)}
    (hx : s.step p frames oracle = some x) : Situation.Leads p l asked frames finals x := by
  cases hs with
  | run ha hwaiting hshared =>
      obtain ⟨⟨r, st⟩, hr, rfl⟩ := Option.map_eq_some_iff.mp hx
      obtain ⟨hexit, htransfer⟩ := ha.eval h horacle hshared hr
      exact Situation.Fits.afterExit h ha hwaiting hexit htransfer
  | ask hasked hrequest hargs hwaiting hshared =>
      obtain ⟨⟨r, shared'⟩, hr, rfl⟩ := Option.map_eq_some_iff.mp hx
      have hanswer := horacle _ _ _ _ hrequest hargs hshared r shared' hr
      cases r with
      | error e => exact hanswer
      | ok results => exact hwaiting.back h hanswer.1 hanswer.2
  | leave hresults hshared =>
      cases hx
      exact ⟨hresults, hshared⟩

end Steps

/-! ## What a situation comes to -/

section ComesTo

variable (p : Program) (oracle : Oracle σ)

/-- What the calls that wait make of the end of the one that they wait for. -/
noncomputable def backTo : List Activation → Ending (Shared σ) (List Datum) →
    Option (Ending (Shared σ) (List Datum))
  | [], r => some r
  | a :: waiting, r => (a.answered (Activation.run p oracle) r).bind (backTo waiting)

/-- What a situation comes to, calls being evaluated as a whole. -/
noncomputable def Situation.comesTo (s : Situation σ) : Option (Ending (Shared σ) (List Datum)) :=
  match s.task with
  | .run a => (a.run p oracle s.shared).bind (backTo p oracle s.waiting)
  | .ask func args => (oracle (.host func.key) args s.shared).bind (backTo p oracle s.waiting)
  | .leave results => some (.ok results, s.shared)

variable {p : Program} {oracle : Oracle σ}

theorem backTo_error (waiting : List Activation) (e : Stop) (shared : Shared σ) :
    backTo p oracle waiting (.error e, shared) = some (.error e, shared) := by
  induction waiting with
  | nil => rfl
  | cons a waiting ih => exact ih

theorem backTo_ok (waiting : List Activation) (results : List Datum) (shared : Shared σ) :
    backTo p oracle waiting (.ok results, shared)
      = (Situation.back waiting results shared).comesTo p oracle := by
  cases waiting <;> rfl

end ComesTo

/-! ## Steps and replies -/

section Replies

variable {w : World σ} {asked : HostFunc → Prop} {frames : List Frames}
  {finals : List ValueType} {waiting : List Activation} {a : Activation} {shared : Shared σ}
  {s : Situation σ} {x : Ending (Shared σ) (List Datum)}

/-- A call is answered with what the machine of the callee comes to. -/
theorem Machinery.reply_call (h : Machinery w.program w.layout asked frames)
    (hsound : w.reply.Sound w.program w.layout) {fr : Frames} (hfr : fr ∈ frames) {args : List Datum}
    (hargs : FitsAll w.layout fr.machine.func.type.params args)
    (hshared : w.program.GlobalsFit w.layout shared.globals) :
    w.reply (.call fr.machine.func.index) args shared
      = Activation.run w.program w.reply ⟨fr, 0, args, []⟩ shared := by
  rw [World.reply_call w (h.func fr hfr), h.means fr hfr w.reply args shared hsound hargs hshared]

/-- A step does not change what a situation comes to. -/
theorem Situation.comesTo_eq (h : Machinery w.program w.layout asked frames)
    (hsound : w.reply.Sound w.program w.layout) (hs : s.Fits w.program w.layout asked frames finals) :
    s.comesTo w.program w.reply = (s.step w.program frames w.reply).bind
      (Sum.elim (Situation.comesTo w.program w.reply) some) := by
  cases hs with
  | @run waiting a shared ha hwaiting hshared =>
      rw [Situation.comesTo, Situation.step]
      dsimp only
      rw [Activation.run_eq, Option.bind_assoc, Option.bind_map]
      refine Option.bind_congr fun r hr => ?_
      have heval := ha.eval h hsound hshared hr
      obtain ⟨r, st⟩ := r
      obtain ⟨hexit, htransfer⟩ := heval
      cases r with
      | error e => exact backTo_error waiting e st.shared
      | ok exit =>
          cases exit with
          | goto target stack => rfl
          | ret results => exact backTo_ok waiting results st.shared
          | transfer callee sig next rest args =>
              obtain ⟨-, htakes, hargs, hst⟩ := hexit
              rw [Activation.onward, Option.bind_assoc]
              cases callee with
              | host func => rfl
              | func fn =>
                  obtain ⟨b, hb, hterm⟩ := htransfer _ _ _ _ _ rfl
                  obtain ⟨fr, hfr⟩ := exists_findFrames (h.calls _ ha.mem b hb fn sig next hterm)
                  obtain ⟨hmem, rfl⟩ := of_findFrames hfr
                  have htype := htakes.func _ rfl
                  rw [h.func fr hmem] at htype
                  obtain rfl : fr.machine.func.type = sig := Option.some.inj htype
                  rw [Callee.request, h.reply_call hsound hmem hargs hst.globals,
                    Function.comp_apply, Situation.afterExit, hfr]
                  rfl
  | @ask waiting func args shared hasked hrequest hargs hwaiting hshared =>
      rw [Situation.comesTo, Situation.step]
      dsimp only
      rw [Option.bind_map]
      refine Option.bind_congr fun answer _ => ?_
      obtain ⟨answer, shared'⟩ := answer
      cases answer with
      | ok results => exact backTo_ok waiting results shared'
      | error e => exact backTo_error waiting e shared'
  | leave hresults hshared => rfl

/-- Steps end with nothing but what the situation comes to. -/
theorem Situation.comesTo_of_steps (h : Machinery w.program w.layout asked frames)
    (hsound : w.reply.Sound w.program w.layout) {n : Nat}
    (hs : s.Fits w.program w.layout asked frames finals)
    (hx : within (Situation.step w.program frames w.reply) n s = some x) :
    s.comesTo w.program w.reply = some x := by
  induction n generalizing s with
  | zero => cases hx
  | succ n ih =>
      rw [within_succ_eq] at hx
      obtain ⟨y, hy, hx⟩ := Option.bind_eq_some_iff.mp hx
      rw [Situation.comesTo_eq h hsound hs, hy]
      have hleads := hs.step h hsound hy
      cases y with
      | inl next => exact ih hleads hx
      | inr done => exact hx

theorem World.below_reply (w : World σ) (n : Nat) : (w.replyWithin n).Below w.reply :=
  fun _ _ _ _ hx => World.reply_eq_some_iff.mpr ⟨n, hx⟩

theorem World.replyWithin_sound (hsound : w.reply.Sound w.program w.layout) (n : Nat) :
    (w.replyWithin n).Sound w.program w.layout :=
  fun r sig args shared hsig hargs hshared answer shared' hx =>
    hsound r sig args shared hsig hargs hshared answer shared' (w.below_reply n _ _ _ _ hx)

/-- What steps come to behind the end of the call that is waited for. -/
noncomputable def endsBehind (w : World σ) (frames : List Frames) (waiting : List Activation) :
    Ending (Shared σ) (List Datum) → Option (Ending (Shared σ) (List Datum))
  | (.ok results, shared) =>
    untilDone (Situation.step w.program frames w.reply) (.back waiting results shared)
  | (.error e, shared) => some (.error e, shared)

/-- A block of a call whose way out is known. -/
theorem steps_of_eval {r : Ending (Store σ) Exit}
    (hr : a.eval w.program w.reply shared = some r) :
    untilDone (Situation.step w.program frames w.reply) ⟨waiting, .run a, shared⟩
      = Sum.elim (untilDone (Situation.step w.program frames w.reply)) some
        (Situation.afterExit frames a.frames waiting r) := by
  rw [untilDone_eq, Situation.step]
  dsimp only
  rw [hr]
  rfl

theorem steps_of_answer {func : HostFunc} {args : List Datum}
    (hx : w.reply (.host func.key) args shared = some x) :
    untilDone (Situation.step w.program frames w.reply) ⟨waiting, .ask func args, shared⟩
      = endsBehind w frames waiting x := by
  rw [untilDone_eq, Situation.step]
  dsimp only
  rw [hx]
  obtain ⟨r, shared'⟩ := x
  cases r <;> rfl

/-- Calls that end within a depth are run to their ends by steps, whatever other calls are waiting. -/
def RunsCalls (w : World σ) (frames : List Frames) (n : Nat) : Prop :=
  ∀ fr ∈ frames, ∀ waiting args shared x, FitsAll w.layout fr.machine.func.type.params args →
    w.program.GlobalsFit w.layout shared.globals →
    w.replyWithin n (.call fr.machine.func.index) args shared = some x →
    untilDone (Situation.step w.program frames w.reply) ⟨waiting, .run ⟨fr, 0, args, []⟩, shared⟩
      = endsBehind w frames waiting x

/-- Steps run a call to its end if they do so with those that it makes. -/
theorem steps_of_runIn (h : Machinery w.program w.layout asked frames)
    (hsound : w.reply.Sound w.program w.layout) {n c : Nat} (hcalls : RunsCalls w frames n)
    (ha : a.Fits w.layout frames) (hshared : w.program.GlobalsFit w.layout shared.globals)
    (hx : a.runIn w.program (w.replyWithin n) c shared = some x) :
    untilDone (Situation.step w.program frames w.reply) ⟨waiting, .run a, shared⟩
      = endsBehind w frames waiting x := by
  induction c generalizing a shared with
  | zero => cases hx
  | succ c ih =>
      rw [Activation.runIn_succ] at hx
      obtain ⟨r, hr, hx⟩ := Option.bind_eq_some_iff.mp hx
      rw [steps_of_eval (Activation.eval_below (w.below_reply n) hr)]
      obtain ⟨r, st⟩ := r
      obtain ⟨hexit, htransfer⟩ := ha.eval h (w.replyWithin_sound hsound n) hshared hr
      cases r with
      | error e =>
          cases hx
          rfl
      | ok exit =>
          cases exit with
          | goto target stack =>
              obtain ⟨⟨types, hentry, hstack⟩, hst⟩ := hexit
              exact ih (Activation.fits_of_locals (a := ⟨a.frames, target, st.locals, stack⟩) h
                ha.mem hst.locals hentry hstack) hst.globals hx
          | ret results =>
              cases hx
              rfl
          | transfer callee sig next rest args =>
              obtain ⟨⟨types, hentry, hrest⟩, htakes, hargs, hst⟩ := hexit
              have hwaits : Activation.Waits w.layout frames sig.results
                  ⟨a.frames, next, st.locals, rest⟩ := ⟨ha.mem, hst.locals, types, hentry, hrest⟩
              obtain ⟨y, hy, hx⟩ := Option.bind_eq_some_iff.mp hx
              -- Behind the answer the call goes on with one block less to run.
              have hbehind (hfits : AnswerFits w.program w.layout sig.results y.1 y.2) :
                  endsBehind w frames (⟨a.frames, next, st.locals, rest⟩ :: waiting) y
                    = endsBehind w frames waiting x := by
                obtain ⟨y, shared'⟩ := y
                cases y with
                | error e =>
                    cases hx
                    rfl
                | ok results => exact ih (hwaits.resume h hfits.1) hfits.2 hx
              cases callee with
              | host func =>
                  obtain ⟨hrequest, hparams, hresults⟩ := htakes.host func rfl
                  have hfits := w.replyWithin_sound hsound n _ _ _ _ hrequest hargs hst.globals _ _ hy
                  rw [← hbehind hfits]
                  exact steps_of_answer (w.below_reply n _ _ _ _ hy)
              | func fn =>
                  obtain ⟨b, hb, hterm⟩ := htransfer _ _ _ _ _ rfl
                  obtain ⟨fr, hfr⟩ := exists_findFrames (h.calls _ ha.mem b hb fn sig next hterm)
                  obtain ⟨hmem, rfl⟩ := of_findFrames hfr
                  have hrequest := htakes.func _ rfl
                  have hfits := w.replyWithin_sound hsound n (.call fr.machine.func.index) _ _ _
                    hrequest hargs hst.globals _ _ hy
                  rw [h.func fr hmem] at hrequest
                  obtain rfl : fr.machine.func.type = sig := Option.some.inj hrequest
                  rw [← hbehind hfits, Situation.afterExit, hfr]
                  exact hcalls fr hmem _ _ _ _ hargs hst.globals hy

theorem runsCalls (h : Machinery w.program w.layout asked frames)
    (hsound : w.reply.Sound w.program w.layout) (n : Nat) : RunsCalls w frames n := by
  induction n with
  | zero => exact fun _ _ _ _ _ _ _ _ hx => by cases hx
  | succ n ih =>
      intro fr hfr waiting args shared x hargs hshared hx
      rw [World.replyWithin, h.func fr hfr] at hx
      dsimp only at hx
      rw [h.means fr hfr _ args shared (w.replyWithin_sound hsound n) hargs hshared] at hx
      obtain ⟨r, hr, rfl⟩ := Option.map_eq_some_iff.mp hx
      obtain ⟨c, hc⟩ := untilDone_eq_some_iff.mp hr
      refine steps_of_runIn (c := c) h hsound ih (Activation.start_fits h hfr hargs) hshared ?_
      exact Option.map_eq_some_iff.mpr ⟨r, hc, rfl⟩

/-- Steps from the start of a call come to the reply to it. -/
theorem World.steps_reply (h : Machinery w.program w.layout asked frames)
    (hsound : w.reply.Sound w.program w.layout) {fr : Frames} (hfr : fr ∈ frames) {args : List Datum}
    (hargs : FitsAll w.layout fr.machine.func.type.params args)
    (hshared : w.program.GlobalsFit w.layout shared.globals) :
    untilDone (Situation.step w.program frames w.reply) ⟨[], .run ⟨fr, 0, args, []⟩, shared⟩
      = w.reply (.call fr.machine.func.index) args shared := by
  have hfits : Situation.Fits w.program w.layout asked frames fr.machine.func.type.results
      ⟨[], .run ⟨fr, 0, args, []⟩, shared⟩ :=
    .run (Activation.start_fits h hfr hargs) .done hshared
  refine Option.ext fun x => ⟨fun hx => ?_, fun hx => ?_⟩
  · obtain ⟨n, hn⟩ := untilDone_eq_some_iff.mp hx
    have hcomes := Situation.comesTo_of_steps h hsound hfits hn
    rw [h.reply_call hsound hfr hargs hshared, ← hcomes]
    exact (Option.bind_fun_some _).symm
  · obtain ⟨n, hn⟩ := World.reply_eq_some_iff.mp hx
    rw [runsCalls h hsound n fr hfr [] args shared x hargs hshared hn]
    obtain ⟨r, shared'⟩ := x
    cases r with
    | error e => rfl
    | ok results => exact untilDone_of_done rfl

end Replies

end Structured

end WasmShader
