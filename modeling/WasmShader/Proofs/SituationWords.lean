import WasmShader.Proofs.CompiledSetting

/-!
# Calls under way on the stack

The stack of a lane holds the calls that are under way: each has a frame, and a call that waits has
room behind its frame for the results that it waits for. At the bottom is the room for the final
results, with the number of the block that copies them (`Situation.Words`). The function of a block
makes a step on it, or finds no room for what it would push (`run_turn`).
-/

namespace WasmShader

open Compile Emit
open Execution (Datum Env FitsAll storedAll callMeaning)

namespace Structured

variable {σ : Type}

/-! ## Words of situations -/

/-- The words of a frame that are there while the call waits. -/
def Activation.words (out : Compiled) (a : Activation) : List UInt32 :=
  (out.blockContext a.frames).frameWords a.block a.locals a.operands

/-- The number of the block that is next. -/
def Activation.number (out : Compiled) (a : Activation) : UInt32 :=
  ((out.blockContext a.frames).numberOf a.block).val

/-- The words that a call takes. -/
def Activation.size (a : Activation) : Nat := (a.frames.payload a.block).frameWords

/-- The words that what is to be done now takes. -/
def Task.size (l : Layout) : Task → Nat
  | .run a => a.size
  | .ask func _ => l.sizeOf func.params + 1
  | .leave _ => 0

/-- The words that all calls under way take, with the room for the final results. -/
def Situation.size (l : Layout) (finals : List ValueType) (s : Situation σ) : Nat :=
  l.sizeOf finals + 1 + (s.waiting.map Activation.size).sum + s.task.size l

section Words

variable (out : Compiled) (exit : BlockId) (finals : List ValueType)

/-- Words of calls that wait for results of these types, which there is room for. -/
inductive Reserved : List ValueType → List Activation → List UInt32 → Prop
  | exit {room : List UInt32} : room.length = out.layout.sizeOf finals →
      Reserved finals [] (room ++ [exit.val])
  | call {a : Activation} {results : List ValueType} {waiting : List Activation}
      {low room : List UInt32} : Reserved a.frames.machine.func.type.results waiting low →
      room.length = out.layout.sizeOf results →
      Reserved results (a :: waiting) (low ++ a.words out ++ room ++ [a.number out])

/-- Words of a situation. -/
inductive Situation.Words : Situation σ → List UInt32 → Prop
  | run {waiting : List Activation} {a : Activation} {shared : Shared σ} {below : List UInt32} :
      Reserved out exit finals a.frames.machine.func.type.results waiting below →
      Words ⟨waiting, .run a, shared⟩ (below ++ a.words out ++ [a.number out])
  | ask {waiting : List Activation} {func : HostFunc} {args : List Datum} {shared : Shared σ}
      {below : List UInt32} : Reserved out exit finals func.results waiting below →
      Words ⟨waiting, .ask func args, shared⟩
        (below ++ (storedAll out.layout func.params args ++ [func.id.val]))
  | leave {results : List Datum} {shared : Shared σ} :
      Words ⟨[], .leave results, shared⟩ (storedAll out.layout finals results ++ [exit.val])

end Words

section Lengths

variable {p : Program} {frames : List Frames} {out : Compiled} {asked : HostFunc → Prop}
  {exit : BlockId} {finals results : List ValueType} {waiting : List Activation} {a : Activation}
  {s : Situation σ} {words : List UInt32}

/-- The frame of a block has the words that its payload says, once all operands are there. -/
theorem Activation.length_words (h : Machinery p out.layout asked frames) (ha : a.Fits out.layout frames) :
    (a.words out).length + 1 = a.size := by
  obtain ⟨types, hentry, -⟩ := ha.operands
  rw [Activation.words, BlockContext.frameWords, Activation.size, Payload.frameWords,
    (h.payload ha.mem hentry).words]
  exact congrArg (· + 1) (Execution.length_storedAll ha.frame.length_eq)

/-- With the results, the frame of a call that waits is that of the call that goes on. -/
theorem Activation.words_resume (h : Machinery p out.layout asked frames)
    (ha : a.Waits out.layout frames results) (data : List Datum) :
    (a.resume data).words out = a.words out ++ storedAll out.layout results data := by
  obtain ⟨types, hentry, hoperands⟩ := ha.operands
  obtain ⟨saved, hsaved, htypes⟩ := (h.payload ha.mem hentry).types
  have hlen : (saved ++ types).length
      = ((a.frames.payload a.block).saved a.locals ++ a.operands).length := by
    rw [List.length_append, List.length_append, hoperands.length_eq, Payload.saved,
      List.length_map, hsaved.length_eq]
  change storedAll out.layout (a.frames.payload a.block).types
    ((a.frames.payload a.block).saved a.locals ++ (a.operands ++ data))
    = storedAll out.layout (a.frames.payload a.block).types
      ((a.frames.payload a.block).saved a.locals ++ a.operands) ++ _
  rw [htypes, ← List.append_assoc, ← List.append_assoc, storedAll_left hlen,
    Execution.storedAll_append hlen]

theorem Activation.length_words_waits (h : Machinery p out.layout asked frames)
    (ha : a.Waits out.layout frames results) :
    (a.words out).length + out.layout.sizeOf results + 1 = a.size := by
  have hzeros := FitsAll.zeros out.layout results
  have hlen := (Activation.length_words h (ha.resume h hzeros))
  rw [Activation.words_resume h ha, List.length_append,
    Execution.length_storedAll hzeros.length_eq] at hlen
  exact hlen

theorem Reserved.length (h : Machinery p out.layout asked frames)
    (hwaits : Awaits out.layout frames finals results waiting)
    (hwords : Reserved out exit finals results waiting words) :
    words.length = out.layout.sizeOf finals + 1 + (waiting.map Activation.size).sum := by
  induction hwords with
  | exit hroom => rw [List.length_append, hroom]; rfl
  | @call a results waiting low room _ hroom ih =>
      cases hwaits with
      | call ha hwaits =>
          have hlen := Activation.length_words_waits h ha
          have hlow := ih hwaits
          simp only [List.length_append, List.length_singleton, hroom, hlow, List.map_cons,
            List.sum_cons]
          omega

/-- A situation has as many words as it says. -/
theorem Situation.Words.length (h : Machinery p out.layout asked frames)
    (hs : s.Fits p out.layout asked frames finals) (hwords : s.Words out exit finals words) :
    words.length = s.size out.layout finals := by
  cases hwords with
  | run hbelow =>
      cases hs with
      | run ha hwaits _ =>
          have hlen := Activation.length_words h ha
          rw [List.length_append, List.length_append, hbelow.length h hwaits, Situation.size,
            Task.size, List.length_singleton, Nat.add_assoc, hlen]
  | ask hbelow =>
      cases hs with
      | ask _ _ hargs hwaits _ =>
          rw [List.length_append, hbelow.length h hwaits, List.length_append,
            Execution.length_storedAll hargs.length_eq]
          rfl
  | leave =>
      cases hs with
      | leave hresults _ =>
          rw [List.length_append, Execution.length_storedAll hresults.length_eq]
          rfl

/-- Results in the room for them let the call that waits go on. -/
theorem Reserved.back (h : Machinery p out.layout asked frames)
    (hwaits : Awaits out.layout frames finals results waiting)
    (hwords : Reserved out exit finals results waiting words) :
    ∃ low room id, words = low ++ room ++ [id] ∧ room.length = out.layout.sizeOf results
      ∧ ∀ (data : List Datum) (shared : Shared σ), (Situation.back waiting data shared).Words out exit
        finals (low ++ storedAll out.layout results data ++ [id]) := by
  cases hwords with
  | @exit room hroom => exact ⟨[], room, exit.val, rfl, hroom, fun _ _ => .leave⟩
  | @call a _ waiting low room hlow hroom =>
      cases hwaits with
      | call ha _ =>
          refine ⟨low ++ a.words out, room, a.number out, rfl, hroom, fun data shared => ?_⟩
          have hrun : Situation.Words out exit finals ⟨waiting, .run (a.resume data), shared⟩ _ :=
            .run hlow
          rw [Activation.words_resume h ha, ← List.append_assoc] at hrun
          exact hrun

end Lengths

/-! ## Turns -/

/-- The code of a module runs the functions of its program, where an oracle answers. -/
structure Runner (frames : List Frames) (out : Compiled) (env : Env) (oracle : Oracle σ) : Prop where
  machinery : Machinery out.program out.layout (fun func => out.hosts.lookup? func.id = some func)
    frames
  linked : Execution.Linked out.program frames out
  exe : env.exe = out.toExecutable
  limit : out.stackWords.toNat < 2 ^ 31
  sound : oracle.Sound out.program out.layout
  setting : ∀ fr ∈ frames, ∃ kept,
    Setting (out.blockContext fr).toContext kept fr.machine.func env oracle
      ∧ (∀ b ∈ fr.machine.blocks, b.Typed out.program out.analysis kept fr.machine)
      ∧ AloofFrom out.program oracle out.analysis kept fr.machine.func.index

/-- The situation can be what a lane is at. -/
abbrev Situation.Possible (frames : List Frames) (out : Compiled) (finals : List ValueType)
    (s : Situation σ) : Prop :=
  s.Fits out.program out.layout (fun func => out.hosts.lookup? func.id = some func) frames finals

/-- A lane is at the situation. -/
structure Situation.Rests (out : Compiled) (exit : BlockId) (finals : List ValueType)
    (s : Situation σ) (ln : Execution.Lane) : Prop where
  words : ∃ words, s.Words out exit finals words ∧ InUse (ln.words .stack) words
  size : (ln.words .stack).size = LaneStack.headerWords + out.stackWords.toNat
  globals : ln.globals.toList = out.program.globalWords out.layout s.shared.globals

/-- Code runs on a lane that is at the situation. -/
structure Situation.At (out : Compiled) (exit : BlockId) (finals : List ValueType) (s : Situation σ)
    (t : Execution.State) : Prop extends s.Rests out exit finals t.lane where
  based : Based t

/-- Nothing but words of the stack and of the globals has changed. -/
def Rewritten (t t' : Execution.State) : Prop :=
  ∃ gs ws : Array UInt32, gs.size = t.lane.globals.size ∧ ws.size = (t.lane.words .stack).size
    ∧ t' = (t.withWords .globals gs).withWords .stack ws

/-- The function of a block has made a step, or has found no room for it. -/
def TurnEnds (out : Compiled) (exit : BlockId) (finals : List ValueType) (t : Execution.State) :
    Execution.Ending (List Datum) → Situation σ ⊕ Ending (Shared σ) (List Datum) → Prop
  | (.ok results, t'), .inl s => results = [] ∧ s.At out exit finals t' ∧ Rewritten t t'
  | (.error (.trap c), t'), .inl s =>
    c = .stackOverflow ∧ out.stackWords.toNat < s.size out.layout finals
      ∧ TrapsIn out.program out.layout t c s.shared t'
  | (.error (.trap c), t'), .inr (.error (.trap c'), shared) =>
    c = c' ∧ TrapsIn out.program out.layout t c shared t'
  | _, _ => False

section Turns

variable {frames : List Frames} {out : Compiled} {env : Env} {oracle : Oracle σ} {exit : BlockId}
  {finals : List ValueType} {waiting : List Activation} {a : Activation} {shared : Shared σ}
  {s : Situation σ} {t : Execution.State} {below : List UInt32}

/-- The frame that a function starts with holds its arguments. -/
theorem Activation.words_start (h : Runner frames out env oracle) {fr : Frames} (hfr : fr ∈ frames)
    {args : List Datum} (hlen : args.length = fr.machine.func.type.params.length) :
    Activation.words out ⟨fr, 0, args, []⟩ = storedAll out.layout fr.machine.func.type.params args := by
  obtain ⟨-, htypes, -⟩ := h.machinery.first fr hfr
  change storedAll out.layout (fr.payload 0).types ((fr.payload 0).saved args ++ []) = _
  rw [htypes, h.machinery.saved_first hfr hlen, List.append_nil]

/-- What the way out of a block pushes makes the words of the situation that it leads to. -/
theorem Reserved.pushes (h : Runner frames out env oracle) (ha : a.Fits out.layout frames)
    (hbelow : Reserved out exit finals a.frames.machine.func.type.results waiting below)
    {way : Exit} {st : Store σ} (hexit : ExitFits out.program out.layout a.frames.machine (.ok way) st)
    (htransfer : ∀ callee sig next rest args, way = .transfer callee sig next rest args →
      ∃ b ∈ a.frames.machine.blocks, b.term.transfer? = some (callee, sig, next))
    {ws : List UInt32} (hpush : Pushes (out.blockContext a.frames) st.locals way ws) :
    ∃ s, Situation.afterExit frames a.frames waiting (.ok way, st) = .inl s
      ∧ s.shared = st.shared ∧ s.Words out exit finals (below ++ ws) := by
  cases hpush with
  | goto target stack =>
      refine ⟨_, rfl, rfl, ?_⟩
      rw [← List.append_assoc]
      exact .run (a := ⟨a.frames, target, st.locals, stack⟩) hbelow
  | @transfer callee sig next rest args room hroom =>
      obtain ⟨-, htakes, hargs, hst⟩ := hexit
      obtain ⟨b, hb, hterm⟩ := htransfer _ _ _ _ _ rfl
      have hcalls := Reserved.call (a := ⟨a.frames, next, st.locals, rest⟩) hbelow hroom
      have hwords {ws : List UInt32} : below ++ ((out.blockContext a.frames).frameWords next st.locals rest
          ++ room ++ [((out.blockContext a.frames).numberOf next).val] ++ ws)
          = below ++ Activation.words out ⟨a.frames, next, st.locals, rest⟩ ++ room
            ++ [Activation.number out ⟨a.frames, next, st.locals, rest⟩] ++ ws := by
        simp only [List.append_assoc]
        rfl
      rw [hwords]
      cases callee with
      | func fn =>
          obtain ⟨fr, hfr⟩ :=
            exists_findFrames (h.machinery.calls _ ha.mem b hb fn sig next hterm)
          obtain ⟨hmem, rfl⟩ := of_findFrames hfr
          have htype := htakes.func _ rfl
          rw [h.machinery.func fr hmem] at htype
          obtain rfl : fr.machine.func.type = sig := Option.some.inj htype
          refine ⟨_, by rw [Situation.afterExit, hfr], rfl, ?_⟩
          have hrun : Situation.Words out exit finals ⟨_, .run ⟨fr, 0, args, []⟩, st.shared⟩ _ :=
            .run hcalls
          rw [Activation.words_start h hmem hargs.length_eq.symm, List.append_assoc] at hrun
          exact hrun
      | host func =>
          obtain ⟨-, hparams, hresults⟩ := htakes.host func rfl
          obtain ⟨params, results⟩ := sig
          obtain rfl : func.params = params := hparams
          obtain rfl : func.results = results := hresults
          exact ⟨_, rfl, rfl, .ask hcalls⟩

/-- What a block leaves below its frame makes the words of the situation that it leads to. -/
theorem Reserved.leaves (h : Runner frames out env oracle) (ha : a.Fits out.layout frames)
    (hwaiting : Awaits out.layout frames finals a.frames.machine.func.type.results waiting)
    (hbelow : Reserved out exit finals a.frames.machine.func.type.results waiting below)
    {way : Exit} {st : Store σ} (hexit : ExitFits out.program out.layout a.frames.machine (.ok way) st)
    (htransfer : ∀ callee sig next rest args, way = .transfer callee sig next rest args →
      ∃ b ∈ a.frames.machine.blocks, b.term.transfer? = some (callee, sig, next))
    {data : List UInt32} (hleaves : Leaves (out.blockContext a.frames) st.locals below way data) :
    ∃ s, Situation.afterExit frames a.frames waiting (.ok way, st) = .inl s
      ∧ s.shared = st.shared ∧ s.Words out exit finals data := by
  cases hleaves with
  | push hpush _ => exact hbelow.pushes h ha hexit htransfer hpush
  | @ret results low room id hlow hroom =>
      obtain ⟨low', room', id', hlow', hroom', hback⟩ := hbelow.back (σ := σ) h.machinery hwaiting
      rw [hlow'] at hlow
      obtain ⟨hfront, hid⟩ := List.append_inj' hlow rfl
      obtain ⟨rfl, -⟩ := List.append_inj' hfront (by rw [hroom', hroom]; rfl)
      obtain rfl := List.singleton_inj.mp hid
      refine ⟨_, rfl, ?_, hback results st.shared⟩
      cases waiting <;> rfl

/-- A lane that is at a call has the frame of its block on top. -/
theorem Situation.At.frameOnTop (h : Runner frames out env oracle)
    (hs : Situation.Possible frames out finals (⟨waiting, .run a, shared⟩ : Situation σ))
    (hat : Situation.At out exit finals (⟨waiting, .run a, shared⟩ : Situation σ) t) {b : Block}
    (hb : a.frames.machine.blocks[a.block]? = some b) :
    ∃ below, Reserved out exit finals a.frames.machine.func.type.results waiting below
      ∧ FrameOnTop (out.blockContext a.frames) out.layout b t below
        ((a.frames.payload a.block).saved a.locals) a.operands shared := by
  cases hs with
  | run ha hwaiting hshared =>
      obtain ⟨words, hwords, hinUse⟩ := hat.words
      cases hwords with
      | @run _ _ _ below hbelow =>
          obtain ⟨types, hentry, hoperands⟩ := ha.operands
          have hindex := (h.machinery.laidOut _ ha.mem).index _ _ hb
          rw [Machine.entryTypes?, hb] at hentry
          cases hentry
          obtain ⟨low, room, id, hlow, hroom, -⟩ := hbelow.back (σ := σ) h.machinery hwaiting
          refine ⟨below, hbelow, hat.based, hat.size, ⟨a.number out, ?_⟩, ?_, hoperands, hshared, hat.globals,
            low, room, id, hlow, hroom⟩
          · rw [hindex]
            exact hinUse
          · rw [hindex]
            exact ha.frame

theorem Situation.At.of_rewritten (hat : s.At out exit finals t) {gs ws : Array UInt32}
    {words : List UInt32} {s' : Situation σ} (hwords : s'.Words out exit finals words)
    (hinUse : InUse ws words) (hws : ws.size = (t.lane.words .stack).size)
    (hgs : gs.size = t.lane.globals.size)
    (hglobals : gs.toList = out.program.globalWords out.layout s'.shared.globals) :
    s'.At out exit finals ((t.withWords .globals gs).withWords .stack ws) := by
  have hsizes (r : Execution.Region) : ((((t.withWords .globals gs).withWords .stack ws)).lane.words r).size
      = (t.lane.words r).size := by
    cases r with
    | stack => exact hws
    | io => rfl
    | globals => exact hgs
  exact ⟨⟨⟨words, hwords, hinUse⟩, hws.trans hat.size, hglobals⟩,
    hat.based.of_sizes rfl rfl hsizes⟩

/-- Where the function of a block has ended, it has made a step. -/
theorem turnEnds_of_blockEnds (h : Runner frames out env oracle) (ha : a.Fits out.layout frames)
    (hwaiting : Awaits out.layout frames finals a.frames.machine.func.type.results waiting)
    (hbelow : Reserved out exit finals a.frames.machine.func.type.results waiting below)
    (hat : Situation.At out exit finals (⟨waiting, .run a, shared⟩ : Situation σ) t)
    {e : Execution.Ending (List Datum)} {r : Except Stop Exit} {st : Store σ}
    (hends : BlockEnds (out.blockContext a.frames) out.layout below t e (r, st))
    (hexit : ExitFits out.program out.layout a.frames.machine r st)
    (htransfer : ∀ callee sig next rest args, r = .ok (.transfer callee sig next rest args) →
      ∃ b ∈ a.frames.machine.blocks, b.term.transfer? = some (callee, sig, next)) :
    TurnEnds out exit finals t e (Situation.afterExit frames a.frames waiting (r, st)) := by
  have hway {way : Exit} (hr : r = .ok way) : ∀ callee sig next rest args,
      way = .transfer callee sig next rest args →
        ∃ b ∈ a.frames.machine.blocks, b.term.transfer? = some (callee, sig, next) :=
    fun callee sig next rest args hw => htransfer callee sig next rest args (hr.trans (hw ▸ rfl))
  obtain ⟨e, t'⟩ := e
  cases e with
  | ok results =>
      cases r with
      | error e => exact hends.elim
      | ok way =>
          obtain ⟨hresults, data, gs, ws, hleaves, hinUse, hws, hgs, hglobals, ht'⟩ := hends
          subst ht'
          obtain ⟨s, hs, hshared, hwords⟩ := hbelow.leaves h ha hwaiting hexit (hway rfl) hleaves
          rw [hs]
          exact ⟨hresults, hat.of_rewritten hwords hinUse hws hgs (by rw [hshared]; exact hglobals),
            gs, ws, hgs, hws, rfl⟩
  | error e =>
      cases e with
      | abort e => cases r <;> exact hends.elim
      | outOfFuel => cases r <;> exact hends.elim
      | trap c =>
          cases r with
          | ok way =>
              obtain ⟨⟨ws, hpush, hover⟩, hc, htraps⟩ := hends
              obtain ⟨s, hs, hshared, hwords⟩ := hbelow.pushes h ha hexit (hway rfl) hpush
              have hfits := Situation.Fits.afterExit h.machinery ha hwaiting hexit htransfer
              rw [hs] at hfits ⊢
              have hlen := hwords.length h.machinery hfits
              rw [List.length_append] at hlen
              exact ⟨hc, hlen ▸ hover, by rw [hshared]; exact htraps⟩
          | error e =>
              cases e with
              | trap c' =>
                  obtain ⟨hc, htraps⟩ := hends
                  exact ⟨hc, htraps⟩
              | stuck => exact hends.elim
              | hostFailed func e => exact hends.elim

/-- The function of the block that is next makes a step. -/
theorem run_turn (h : Runner frames out env oracle)
    (hs : Situation.Possible frames out finals (⟨waiting, .run a, shared⟩ : Situation σ)) :
    ∃ fn, Execution.Runs out ⟨a.number out⟩ fn ∧ fn.params = [] ∧ ∀ t,
      Situation.At out exit finals (⟨waiting, .run a, shared⟩ : Situation σ) t →
      Option.Rel (TurnEnds out exit finals t) (callMeaning env fn [] t)
        (Situation.step out.program frames oracle ⟨waiting, .run a, shared⟩) := by
  cases hs with
  | run ha hwaiting hshared =>
      obtain ⟨types, hentry, hoperands⟩ := ha.operands
      obtain ⟨b, hb, -⟩ := Option.map_eq_some_iff.mp hentry
      have hmem := List.mem_of_getElem? hb
      have hmachine := h.linked.machined _ ha.mem
      have hlayout : env.exe.layout = out.layout := by rw [h.exe]
      obtain ⟨kept, hset, htyped, -⟩ := h.setting _ ha.mem
      have hfit : Fitted (out.blockContext a.frames) env :=
        ⟨⟨hlayout.symm, hmachine.fit.layout.trans hlayout.symm, hmachine.fit.formed,
          hmachine.locals⟩, h.limit⟩
      obtain ⟨fn, hfn, -, hparams, hspec⟩ := blockFunction_spec hset hfit hb (htyped b hmem)
        (hmachine.numbered b hmem) (hmachine.fit.pushFits rfl hmem) hmachine.known
      obtain ⟨f, hf, -, hruns⟩ := hmachine.emitted _ b hb
      obtain rfl : f = fn := Except.ok.inj (hf.symm.trans hfn)
      refine ⟨f, hruns, hparams, fun t hat => ?_⟩
      obtain ⟨below, hbelow, honTop⟩ := hat.frameOnTop h (.run ha hwaiting hshared) hb
      rw [← hlayout] at honTop
      have heval : a.eval out.program oracle shared = evalBlock out.program env.exe.layout oracle b
          a.operands ⟨(out.blockContext a.frames).startLocals env.exe.layout a.block
            ((a.frames.payload a.block).saved a.locals), shared⟩ := by
        rw [Activation.eval, hb, Frames.restored]
        dsimp only
        rw [h.machinery.layout _ ha.mem, ← hlayout]
        rfl
      have hrel : Option.Rel (BlockEnds (out.blockContext a.frames) env.exe.layout below t)
          (callMeaning env f [] t) (a.eval out.program oracle shared) := by
        rw [heval]
        exact hspec t below _ _ shared honTop
      rw [hlayout] at hrel
      have hstep : Situation.step out.program frames oracle ⟨waiting, .run a, shared⟩
          = (a.eval out.program oracle shared).map
            (Situation.afterExit frames a.frames waiting) := rfl
      rw [hstep]
      have hboth := hrel.and_right fun r hr => ha.eval h.machinery h.sound hshared hr
      refine hboth.map_right fun e r hends => ?_
      obtain ⟨hends, hexit, htransfer⟩ := hends
      exact turnEnds_of_blockEnds h ha hwaiting hbelow hat hends hexit htransfer

/-- What all functions share, behind a step. -/
def sharedBehind : Situation σ ⊕ Ending (Shared σ) (List Datum) → Shared σ
  | .inl s => s.shared
  | .inr (_, shared) => shared

/-- A block leaves the memory of the host as it is. -/
theorem host_of_step (h : Runner frames out env oracle)
    (hs : Situation.Possible frames out finals (⟨waiting, .run a, shared⟩ : Situation σ))
    {x : Situation σ ⊕ Ending (Shared σ) (List Datum)}
    (hx : Situation.step out.program frames oracle ⟨waiting, .run a, shared⟩ = some x) :
    (sharedBehind x).host = shared.host := by
  cases hs with
  | run ha hwaiting hshared =>
      obtain ⟨types, hentry, -⟩ := ha.operands
      obtain ⟨b, hb, -⟩ := Option.map_eq_some_iff.mp hentry
      have hmem := List.mem_of_getElem? hb
      obtain ⟨kept, -, htyped, haloof⟩ := h.setting _ ha.mem
      obtain ⟨⟨r, st⟩, hr, rfl⟩ := Option.map_eq_some_iff.mp hx
      have hst : st.shared.host = shared.host := by
        rw [Activation.eval, hb] at hr
        exact evalBlock_aloof haloof (htyped b hmem).direct _ _ _ hr
      rw [← hst]
      cases r with
      | error e => rfl
      | ok way =>
          cases way with
          | goto target stack => rfl
          | ret results => cases waiting <;> rfl
          | transfer callee sig next rest args =>
              cases callee with
              | host func => rfl
              | func fn =>
                  rw [Situation.afterExit]
                  split <;> rfl

end Turns

end Structured

end WasmShader
