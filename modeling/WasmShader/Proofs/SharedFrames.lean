import WasmShader.Proofs.AddressSpace
import WasmShader.Proofs.DeadLocals
import WasmShader.Proofs.FrameTurns

/-!
# What stacks share

Lanes abreast have not done the same before, so their stacks may differ anywhere above the frames of
the invocation that runs, and in rooms that are kept for results. What is in use of both is described
from the top down: what control is handed to takes words that the stacks share (`OnTop`), and below is
a number that awaits results in a room in front of it, for code that takes the rest from words that
the stacks share (`Awaited`). Code that is handed control leaves stacks that are described in the same
way (`Exits.onTop`), as it writes whatever it leaves on top of the frame that it has taken, or the
results into the room for them.

An entry point whose results are more than there are addresses is another matter: the places of the
frames on top of its room do not follow it. But then no result is ever written, and the room is left
open (`Awaited.void`).
-/

namespace WasmShader.Execution

open Compile Emit

/-! ## Machines of a module -/

section Machines

variable (p : Program) (frames : List Frames) (out : Compiled)

/-- With the number on top of the stack, the dispatcher runs the function. -/
def Runs (id : BlockId) (f : Shader.Function) : Prop :=
  ∃ b ∈ out.blocks, b.id = id ∧ out.module.function? b.name = some f

/-- The number of a block that copies results to the io words. -/
def IsExit (id : BlockId) (results : List ValueType) : Prop :=
  ∃ name, Runs out id (exitBlock out.layout name results)

/-- The blocks of a machine have been emitted, and what they pass control to is there. -/
structure IsMachined (fr : Frames) : Prop where
  fit : fr.Fit fr.machine out.layout out.stackWords.toNat
  takes : AllKnown fr.machine.func.type.params
  known : AllKnown fr.machine.func.type.results
  locals : AllKnown fr.machine.func.locals
  typed : ∀ b ∈ fr.machine.blocks, b.term.Typed p fr.machine b.stack
  operands : ∀ b ∈ fr.machine.blocks, AllKnown b.stack
  stays : ∀ b ∈ fr.machine.blocks, ∀ i ∈ Body.instrs b.body, i.operation ≠ .ret
  numbered : ∀ b ∈ fr.machine.blocks, Numbered (out.blockContext fr) b.term
  first : 0 < fr.machine.blocks.length
    ∧ (fr.payload 0).words = out.layout.sizeOf fr.machine.func.type.params
  emitted : ∀ k b, fr.machine.blocks[k]? = some b → ∃ f, (out.blockContext fr).blockFunction b = .ok f
    ∧ f.Lawful DirectSite (fun _ => True) ∧ Runs out ((out.blockContext fr).numberOf k) f
  calls : ∀ b ∈ fr.machine.blocks, ∀ fn params results next, b.term = .call fn params results next →
    ∃ fr' ∈ frames, fr'.machine.func.type = ⟨params, results⟩
      ∧ (out.blockContext fr).calleeNumber (.func fn) = (out.blockContext fr').numberOf 0
  asks : ∀ b ∈ fr.machine.blocks, ∀ h params results next, b.term = .host h params results next →
    out.hosts.lookup? h.id = some h

end Machines

/-- What the numbers on a stack, and the entry points that put the first ones there, lead to. -/
structure Linked (p : Program) (frames : List Frames) (out : Compiled) : Prop where
  runnable : Runnable out.toExecutable
  apart : Steady.Calls out.module DirectSite
  hostLayout : out.hosts.layout = out.layout
  ids : (out.blocks.map (·.id)).Nodup
  names : ∀ b ∈ out.blocks, b.name = blockName b.id
  blocks : ∀ b ∈ out.blocks, b.id.val.toNat < BlockId.maxBlocks
  hosts : ∀ id h, out.hosts.lookup? id = some h → BlockId.maxBlocks ≤ id.val.toNat
  machined : ∀ fr ∈ frames, IsMachined p frames out fr
  accepts : ∀ e ∈ out.entries, AllKnown e.sig.params
  starts : ∀ e ∈ out.entries, ∀ exit, e.exit = some exit → ∃ fr ∈ frames,
    fr.machine.func.index = e.func ∧ fr.machine.func.type = e.sig ∧ IsExit out exit e.sig.results
      ∧ out.module.function? e.shader = some (machineEntry out.layout e.shader e.sig
        ((out.blockContext fr).numberOf 0) exit out.stackWords)

/-! ## Stacks -/

section Stacks

variable {p : Program} {frames : List Frames} {out : Compiled} {a b a' b' : Array UInt32}

theorem Share.mono {lo hi lo' hi' : Nat} (h : Share a b lo hi) (hlo : lo ≤ lo') (hhi : hi' ≤ hi) :
    Share a b lo' hi' := fun i hi hi' => h i (by omega) (by omega)

theorem Share.append {lo mid hi : Nat} (h : Share a b lo mid) (h' : Share a b mid hi) :
    Share a b lo hi := fun i hi hi' => by
  rcases Nat.lt_or_ge i mid with hlt | hge
  · exact h i hi hlt
  · exact h' i hge hi'

/-- Neither stack has changed between the places. -/
def Kept (lo hi : Nat) (a b a' b' : Array UInt32) : Prop :=
  ∀ i, lo ≤ i → i < hi → a'[i]? = a[i]? ∧ b'[i]? = b[i]?

theorem Kept.mono {lo hi lo' hi' : Nat} (h : Kept lo hi a b a' b') (hlo : lo ≤ lo') (hhi : hi' ≤ hi) :
    Kept lo' hi' a b a' b' := fun i hi hi' => h i (by omega) (by omega)

theorem Share.kept {lo hi : Nat} (h : Share a b lo hi) (hkept : Kept lo hi a b a' b') :
    Share a' b' lo hi := fun i hi hi' => by
  obtain ⟨hown, hother⟩ := hkept i hi hi'
  rw [hown, hother, h i hi hi']

variable (frames out) in
/-- On top of the stacks, up to the height, is a number whose code awaits `R` words of results in the
room in front of it. What else it takes, and whatever comes after it, the stacks share. -/
inductive Awaited (a b : Array UInt32) : (R H : Nat) → Prop
  | exit {id : BlockId} {results : List ValueType} : IsExit out id results →
      out.layout.sizeOf results + 2 < 2 ^ 32 →
      a[2 + out.layout.sizeOf results]? = some id.val →
      Share a b (2 + out.layout.sizeOf results) (2 + out.layout.sizeOf results + 1) →
      Awaited a b (out.layout.sizeOf results) (2 + out.layout.sizeOf results + 1)
  | void {R H : Nat} : 2 ^ 32 ≤ R + 2 → 0 < H → Awaited a b R H
  | next {fr : Frames} {k m R H : Nat} : fr ∈ frames → k < fr.machine.blocks.length →
      Awaited a b (out.layout.sizeOf fr.machine.func.type.results) H →
      m + R = (fr.payload k).words → Share a b H (H + m) →
      Share a b (H + (fr.payload k).words) (H + (fr.payload k).frameWords) →
      a[H + (fr.payload k).words]? = some ((out.blockContext fr).numberOf k).val →
      Awaited a b R (H + (fr.payload k).frameWords)

variable (frames out) in
/-- The stacks up to the height: what is on top is for code that takes nothing but words that they
share, and so is whatever comes after it. -/
inductive OnTop (a b : Array UInt32) : (V : Nat) → Prop
  | empty : OnTop a b 2
  | block {fr : Frames} {k H : Nat} : fr ∈ frames → k < fr.machine.blocks.length →
      Awaited frames out a b (out.layout.sizeOf fr.machine.func.type.results) H →
      Share a b H (H + (fr.payload k).frameWords) →
      a[H + (fr.payload k).words]? = some ((out.blockContext fr).numberOf k).val →
      OnTop a b (H + (fr.payload k).frameWords)
  | exit {id : BlockId} {results : List ValueType} : IsExit out id results →
      out.layout.sizeOf results + 2 < 2 ^ 32 →
      a[2 + out.layout.sizeOf results]? = some id.val →
      Share a b 2 (2 + out.layout.sizeOf results + 1) →
      OnTop a b (2 + out.layout.sizeOf results + 1)
  | host {h : HostFunc} {H : Nat} : out.hosts.lookup? h.id = some h →
      out.layout.sizeOf h.results + 2 < 2 ^ 32 →
      Awaited frames out a b (out.layout.sizeOf h.results) H →
      Share a b H (H + out.layout.sizeOf h.params + 1) →
      a[H + out.layout.sizeOf h.params]? = some h.id.val →
      OnTop a b (H + out.layout.sizeOf h.params + 1)

theorem Awaited.pos {R H : Nat} (h : Awaited frames out a b R H) : 0 < H := by
  cases h with
  | exit => omega
  | void _ hpos => exact hpos
  | next => rw [Payload.frameWords]; omega

theorem Awaited.kept {R H : Nat} (h : Awaited frames out a b R H) (hkept : Kept 1 H a b a' b') :
    Awaited frames out a' b' R H := by
  induction h with
  | exit hexit hsmall hid hshare =>
      refine .exit hexit hsmall ?_ (hshare.kept (hkept.mono (by omega) (by omega)))
      rw [(hkept _ (by omega) (by omega)).1, hid]
  | void hlarge hpos => exact .void hlarge hpos
  | @next fr k m R H hfr hk hbelow hwords hshare hnumber hid ih =>
      have hpos := hbelow.pos
      rw [Payload.frameWords] at hkept hnumber
      refine .next hfr hk (ih (hkept.mono (by omega) (by omega))) hwords
        (hshare.kept (hkept.mono (by omega) (by omega))) ?_ ?_
      · rw [Payload.frameWords]
        exact hnumber.kept (hkept.mono (by omega) (by omega))
      · rw [(hkept _ (by omega) (by omega)).1, hid]

theorem OnTop.kept {V : Nat} (h : OnTop frames out a b V) (hkept : Kept 1 V a b a' b') :
    OnTop frames out a' b' V := by
  cases h with
  | empty => exact .empty
  | @block fr k H hfr hk hbelow hshare hid =>
      have hpos := hbelow.pos
      rw [Payload.frameWords] at hkept
      refine .block hfr hk (hbelow.kept (hkept.mono (by omega) (by omega)))
        (hshare.kept (hkept.mono (by omega) (by rw [Payload.frameWords]))) ?_
      rw [(hkept _ (by omega) (by omega)).1, hid]
  | exit hexit hsmall hid hshare =>
      refine .exit hexit hsmall ?_ (hshare.kept (hkept.mono (by omega) (by omega)))
      rw [(hkept _ (by omega) (by omega)).1, hid]
  | host hfunc hsmall hbelow hshare hid =>
      have hpos := hbelow.pos
      refine .host hfunc hsmall (hbelow.kept (hkept.mono (by omega) (by omega)))
        (hshare.kept (hkept.mono (by omega) (by omega))) ?_
      rw [(hkept _ (by omega) (by omega)).1, hid]

/-- Once the results are there, nothing is awaited any more. -/
theorem Awaited.filled {R H room : Nat} (h : Awaited frames out a b R H) (hH : H + 1 < 2 ^ 32)
    (hroom : room + R + 1 = H) (hbelow : Kept 1 room a b a' b')
    (habove : Kept (room + R) H a b a' b') (hshare : Share a' b' room (room + R)) :
    OnTop frames out a' b' H := by
  cases h with
  | exit hexit hsmall hid hnumber =>
      obtain rfl : room = 2 := by omega
      refine .exit hexit hsmall ?_ (hshare.append (hnumber.kept habove))
      rw [(habove _ (by omega) (by omega)).1, hid]
  | void hlarge => omega
  | @next fr k m _ H hfr hk hrest hwords hlow hnumber hid =>
      rw [Payload.frameWords] at hroom habove hnumber
      obtain rfl : room = H + m := by omega
      have hwords' : H + m + R = H + (fr.payload k).words := by omega
      rw [hwords'] at hshare habove
      have hpos := hrest.pos
      refine .block hfr hk (hrest.kept (hbelow.mono (by omega) (by omega))) ?_ ?_
      · have hlow' := hlow.kept (hbelow.mono (by omega) (by omega))
        rw [Payload.frameWords]
        exact (hlow'.append hshare).append (hnumber.kept habove)
      · rw [(habove _ (by omega) (by omega)).1, hid]

/-- Code that is handed control on stacks that are described leaves such stacks. -/
theorem Exits.onTop {fr : Frames} (hfr : fr ∈ frames) (hmachine : IsMachined p frames out fr)
    (hframes : ∀ fr ∈ frames, IsMachined p frames out fr) {block : Block}
    (hblock : block ∈ fr.machine.blocks) {H V : Nat}
    (h : Exits (out.blockContext fr) H a b block.term V a' b')
    (hawaited : Awaited frames out a b (out.layout.sizeOf fr.machine.func.type.results) H)
    (hV : V + 1 < 2 ^ 32) : OnTop frames out a' b' V := by
  have hterm := hmachine.typed block hblock
  have hcalls := hmachine.calls block hblock
  have hasks := hmachine.asks block hblock
  generalize block.term = term at h hterm hcalls hasks
  have hlength {k : Nat} {types : List ValueType} (hk : fr.machine.entryTypes? k = some types) :
      k < fr.machine.blocks.length := by
    obtain ⟨x, hx, -⟩ := Option.map_eq_some_iff.mp hk
    exact (List.getElem?_eq_some_iff.mp hx).1
  cases h with
  | edge _ htypes hbelow hshare hid =>
      exact .block hfr (hlength htypes) (hawaited.kept fun i _ hi => hbelow i hi) hshare hid
  | @transfer callee sig next m rest _ _ htransfer htypes hwords hbelow hlow hhigh hid hcallee =>
      have hnext : Awaited frames out a' b' (out.layout.sizeOf sig.results)
          (H + (fr.payload next).frameWords) :=
        .next hfr (hlength htypes) (hawaited.kept fun i _ hi => hbelow i hi) hwords hlow
          (hhigh.mono (Nat.le_refl _) (by
            change _ ≤ H + (fr.payload next).frameWords + _ + 1
            omega)) hid
      have hframe : Share a' b' (H + (fr.payload next).frameWords)
          (H + (fr.payload next).frameWords + out.layout.sizeOf sig.params + 1) :=
        hhigh.mono (by rw [Payload.frameWords]; change H + (fr.payload next).words ≤ _; omega)
          (Nat.le_refl _)
      cases callee with
      | func fn =>
          have hcall : term = .call fn sig.params sig.results next := by
            cases term <;> cases htransfer
            rfl
          obtain ⟨fr', hfr', htype, hnumber⟩ := hcalls _ _ _ _ hcall
          obtain ⟨hfirst, hparams⟩ := (hframes fr' hfr').first
          have hframeWords : (fr'.payload 0).frameWords = out.layout.sizeOf sig.params + 1 := by
            rw [Payload.frameWords, hparams, htype]
          rw [htype] at hparams
          have htop : OnTop frames out a' b'
              (H + (fr.payload next).frameWords + (fr'.payload 0).frameWords) :=
            .block hfr' hfirst (by rw [htype]; exact hnext)
              (by rw [hframeWords]; exact hframe)
              (by rw [hparams, ← hnumber]; exact hcallee)
          rw [hframeWords] at htop
          exact htop
      | host func =>
          have hcall : term = .host func sig.params sig.results next := by
            cases term <;> cases htransfer
            rfl
          have hfunc := hasks _ _ _ _ hcall
          obtain ⟨rest', -, htakes, -⟩ := hterm.of_transfer htransfer
          obtain ⟨-, hparams, hresults⟩ := htakes.host func rfl
          have hroom : out.layout.sizeOf sig.results ≤ (fr.payload next).words :=
            Nat.le.intro ((Nat.add_comm _ _).trans hwords)
          have hsmall : out.layout.sizeOf func.results + 2 < 2 ^ 32 := by
            change H + (fr.payload next).frameWords + _ + 1 + 1 < 2 ^ 32 at hV
            rw [Payload.frameWords] at hV
            rw [hresults]
            omega
          have htop : OnTop frames _ a' b' _ := OnTop.host hfunc hsmall
            (by rw [hresults]; exact hnext) (by rw [hparams]; exact hframe)
            (by rw [hparams]; exact hcallee)
          rw [hparams] at htop
          exact htop
  | @ret results room _ _ hret hroom hkept hshare =>
      have hresults : results = fr.machine.func.type.results := by
        rw [hret] at hterm
        generalize block.stack = stack at hterm
        cases hterm
        rfl
      rw [← hresults] at hawaited
      exact hawaited.filled hV hroom (fun i _ hi => hkept i (.inl hi))
        (fun i hi _ => hkept i (.inr hi)) hshare

end Stacks

end WasmShader.Execution

/-! ## Compiled modules -/

namespace WasmShader

open Compile Emit Execution

/-- The frame of the first block has the words of the parameters, and no others. -/
theorem Frames.words_first {m : Machine} {l : Layout} {words : Nat} {fr : Frames}
    (h : Frames.build m l words = .ok fr) (hfit : fr.Fit m l words) {b : Block}
    (hb : m.blocks[0]? = some b) (hentry : b.entry = []) {declared : List ValueType}
    (hlocals : m.func.locals = m.func.type.params ++ declared) :
    (fr.payload 0).words = l.sizeOf m.func.type.params := by
  have hmachine := hfit.machine
  subst hmachine
  have hpl := hfit.formed.payload 0 b hb
  rw [hfit.layout, hentry] at hpl
  obtain ⟨saved, hsaved, htypes⟩ := hpl.types
  rw [(Frames.saves_of_build h hb).first (hfit.formed.index 0 b hb), hlocals] at hsaved
  have hparams : List.Forall₂
      (fun i t => (fr.machine.func.type.params ++ declared)[i]? = some t)
      (List.range fr.machine.func.type.params.length) fr.machine.func.type.params := by
    refine List.forall₂_iff_get.mpr ⟨List.length_range, fun i hi hi' => ?_⟩
    rw [List.get_eq_getElem, List.get_eq_getElem, List.getElem_range,
      List.getElem?_append_left hi', List.getElem?_eq_getElem hi']
  have huniq : saved = fr.machine.func.type.params := by
    clear hpl htypes
    generalize List.range fr.machine.func.type.params.length = is at hsaved hparams
    generalize fr.machine.func.type.params ++ declared = types at hsaved hparams
    generalize fr.machine.func.type.params = params at hparams ⊢
    induction hsaved generalizing params with
    | nil =>
        cases hparams
        rfl
    | cons ht _ ih =>
        cases hparams with
        | cons ht' hrest =>
            rw [ht] at ht'
            cases ht'
            rw [ih _ hrest]
  rw [hpl.words, htypes, huniq, List.append_nil]

namespace Compile

section Linked

variable {config : Config} {p : Program} {g : CallGraph} {plan : Plan} {out : Compiled}
  {direct : List Shader.Function} {machines : List (List Shader.Function)}
  {entries : List Shader.Function}

theorem build_of_buildFrames {c : Config} {a : Analysis} {hosts hosts' : HostTable} {fns : List Nat}
    {frs : List Frames} (h : buildFrames c p a hosts fns = .ok (frs, hosts')) :
    ∀ fr ∈ frs, Frames.build fr.machine c.layout c.stackWords.toNat = .ok fr := by
  induction fns generalizing hosts frs with
  | nil =>
      cases h
      exact List.forall_mem_nil _
  | cons fn fns ih =>
      obtain ⟨f, -, h⟩ := Program.bind_eq_ok h
      obtain ⟨⟨m, hosts₁⟩, -, h⟩ := Program.bind_eq_ok h
      obtain ⟨fr, hfr, h⟩ := Program.bind_eq_ok h
      obtain ⟨⟨frs', hosts₂⟩, hrest, h⟩ := Program.bind_eq_ok h
      cases h
      refine List.forall_mem_cons.mpr ⟨?_, ih hrest⟩
      rw [Frames.machine_of_build hfr]
      exact hfr

/-- Direct forms and the helpers for numeric instructions leave the stack alone. -/
theorem Origin.apart (h : Origin config p out g plan direct machines entries) :
    Steady.Calls out.module DirectSite := by
  intro c hc f hf
  obtain ⟨hmem, hname⟩ := mem_of_function? hf
  rw [DirectSite, ← hname] at hc
  rw [h.parts.functions] at hmem
  simp only [List.mem_append, List.mem_cons, List.not_mem_nil, or_false] at hmem
  rcases hmem with ((((hmem | hmem) | hmem) | hmem) | rfl | rfl) | hmem | hmem
  · exact numericFunctions_apart f hmem
  · obtain ⟨fn, -, f', -, hsf⟩ := exists_of_forall₂_left h.parts.isDirect.flip hmem
    exact directFunction_apart hsf
  · obtain ⟨-, -, fr, hfr, b, hb, hsf⟩ := mem_machines_serves h.parts hmem
    obtain ⟨id, -, hname', -⟩ := name_of_blockFunction hsf
    rw [hname', stem_blockName] at hc
    exact absurd hc (by decide)
  · obtain ⟨b, hb, rfl⟩ := List.mem_map.mp hmem
    have hstem : stem b.name = ['b', 'l'] := h.planned.stem_block (List.mem_append_right _ hb)
    exact absurd (hstem ▸ hc : ['b', 'l'] ∈ _) (by decide)
  · exact absurd hc (by decide : stem setupName ∉ [['i'], ['f']])
  · exact absurd hc (by decide : stem dispatcherName ∉ [['i'], ['f']])
  · obtain ⟨e, he, hsf⟩ := exists_of_forall₂_left h.parts.isEntry.flip hmem
    rw [(h.planned.isEntry he hsf).name, h.planned.stem_shader he] at hc
    exact absurd hc (by decide)
  · rcases mem_otherEntries hmem with rfl | rfl <;> exact absurd hc (by decide)

theorem Origin.context_eq (h : Origin config p out g plan direct machines entries) :
    config.withDefaults.layout = out.layout ∧ config.withDefaults.stackWords = out.stackWords :=
  ⟨h.layout_eq.symm, (congrArg (·.stackWords) h.eq).symm⟩

/-- A number of a machine's block has the function of that block under it. -/
theorem Origin.runs (h : Origin config p out g plan direct machines entries) (hp : p.Formed)
    (hvalid : out.module.validate = .ok ()) {fr : Frames} (hfr : fr ∈ plan.frames) {k : Nat} {b : Block}
    (hb : fr.machine.blocks[k]? = some b) {id : BlockId}
    (hid : out.numbers.get fr.machine.func.index k = .ok id) :
    ∃ f, (out.blockContext fr).blockFunction b = .ok f ∧ Runs out id f := by
  have hsound := CallGraph.sound_of_build hp h.graph
  have hspace := h.addressSpace hp hvalid
  obtain ⟨info, hinfo, rfl, hplace⟩ := (hspace.get?_eq_some _ _ _).mp (BlockNumbers.get_eq_ok.mp hid)
  obtain ⟨f, hf, hemitted⟩ := hspace.emitted info hinfo
  cases hemitted with
  | @block fr' k' b' hfr' hb' hplace' hcode =>
      rw [hplace] at hplace'
      obtain ⟨hindex, hk⟩ := Prod.mk.inj hplace'
      cases hk
      obtain rfl := List.inj_on_of_nodup_map (h.planned.nodup_frames hsound) hfr' hfr hindex.symm
      rw [hb] at hb'
      cases hb'
      exact ⟨f, hcode, info, hinfo, rfl, hf⟩
  | exit _ hplace' => 
      rw [hplace] at hplace'
      cases (Prod.mk.inj hplace').2

theorem Origin.isMachined (h : Origin config p out g plan direct machines entries) (hp : p.Formed)
    (hvalid : out.module.validate = .ok ()) (hfew : out.hosts.funcs.length ≤ BlockId.maxBlocks)
    {fr : Frames} (hfr : fr ∈ plan.frames) : IsMachined p plan.frames out fr := by
  have hsound := CallGraph.sound_of_build hp h.graph
  have hspace := h.addressSpace hp hvalid
  have hbuilt := h.planned.built fr hfr
  obtain ⟨hlayout, hstack⟩ := h.context_eq
  have hfit := hbuilt.fit
  rw [hlayout, hstack] at hfit
  have hnumbered (b : Block) (hb : b ∈ fr.machine.blocks) :
      Numbered (out.blockContext fr) b.term := by
    obtain ⟨j, hj⟩ := List.mem_iff_getElem?.mp hfr
    have hnumbers := h.planned.numbered hsound hj hb
    rwa [h.blockContext] at hnumbers
  have hnumberOf {k : Nat} {b : Block} (hb : fr.machine.blocks[k]? = some b) :
      out.numbers.get fr.machine.func.index k = .ok ((out.blockContext fr).numberOf k) :=
    eq_ok_of_isOk ((hnumbered b (List.mem_of_getElem? hb)).blocks k b.entry (by
      change fr.machine.entryTypes? k = _
      rw [Machine.entryTypes?, hb]
      rfl))
  obtain ⟨first, hfirst, hentry⟩ := Option.map_eq_some_iff.mp hbuilt.sound.first
  have hbuild := build_of_buildFrames (plan_eq_ok h.planning).1 fr hfr
  obtain ⟨declared, hlocals⟩ := hp.funcLocals _ hbuilt.func
  refine
    { fit := hfit
      takes := (hp.funcKnown _ hbuilt.func).1.params
      known := (hp.funcKnown _ hbuilt.func).1.results
      locals := (hp.funcKnown _ hbuilt.func).2
      typed := fun b hb => (hbuilt.sound.typed b hb).term
      operands := fun b hb => (hbuilt.sound.typed b hb).known
      stays := fun b hb => (hbuilt.sound.typed b hb).stays
      numbered := hnumbered
      first := ⟨(List.getElem?_eq_some_iff.mp hfirst).1, ?_⟩
      emitted := fun k b hb => ?_
      calls := fun b hb fn params results next hterm => ?_
      asks := fun b hb func params results next hterm =>
        (hspace.asks fr hfr b hb func params results next hterm).2.2 hfew }
  · rw [← hlayout]
    exact Frames.words_first hbuild hbuilt.fit hfirst hentry hlocals
  · obtain ⟨f, hf, hruns⟩ := h.runs hp hvalid hfr hb (hnumberOf hb)
    refine ⟨f, hf, ?_, hruns⟩
    rw [← h.blockContext] at hf
    exact (h.planned.block_lawful hp h.graph hfr (List.mem_of_getElem? hb) hf).mono
      (fun _ => DirectCall.site) fun _ => id
  · have hget := eq_ok_of_isOk ((hnumbered b hb).callee fn params results next hterm)
    obtain ⟨info, hinfo, hid, hplace⟩ :=
      (hspace.get?_eq_some _ _ _).mp (BlockNumbers.get_eq_ok.mp hget)
    obtain ⟨f, -, hemitted⟩ := hspace.emitted info hinfo
    cases hemitted with
    | @block fr' k b' hfr' _ hplace' _ =>
        rw [hplace] at hplace'
        obtain ⟨rfl, -⟩ := Prod.mk.inj hplace'
        have htyped := (hbuilt.sound.typed b hb).term
        have htransfer : b.term.transfer?
            = some (.func fr'.machine.func.index, ⟨params, results⟩, next) := by rw [hterm]; rfl
        obtain ⟨rest, -, htakes, -⟩ := htyped.of_transfer htransfer
        have htype := htakes.func _ rfl
        rw [func?_of_mem hp (h.planned.built fr' hfr').func] at htype
        exact ⟨fr', hfr', Option.some.inj htype, rfl⟩
    | exit _ hplace' =>
        rw [hplace] at hplace'
        cases (Prod.mk.inj hplace').2

/-- The code of an entry point that runs the dispatcher goes with the numbers that it writes. -/
theorem Origin.starts (h : Origin config p out g plan direct machines entries) (hp : p.Formed)
    (hvalid : out.module.validate = .ok ()) {e : Entry} (he : e ∈ out.entries) {exit : BlockId}
    (hexit : e.exit = some exit) : ∃ fr ∈ plan.frames, fr.machine.func.index = e.func
      ∧ fr.machine.func.type = e.sig ∧ IsExit out exit e.sig.results
      ∧ out.module.function? e.shader = some (machineEntry out.layout e.shader e.sig
        ((out.blockContext fr).numberOf 0) exit out.stackWords) := by
  have hspace := h.addressSpace hp hvalid
  have hnames := Shader.Module.nodup_of_validate hvalid
  obtain ⟨f, hf, hcode⟩ := h.isEntryCode hp
    (fun f hf => Shader.Module.function?_of_names hnames hf) (h.entries_eq ▸ he)
  obtain ⟨f', hf', hnumbers⟩ := hspace.entries e he
  rw [hf] at hf'
  cases hf'
  rcases hcode with ⟨hnone, -⟩ | ⟨⟨exit', first, hexit', rfl⟩, -⟩
  · rw [hexit] at hnone
    cases hnone
  rw [hexit] at hexit'
  cases hexit'
  obtain ⟨x, -, fn, hfn, -, -, symbol, -, rfl⟩ := h.planned.of_mem_entries (h.entries_eq ▸ he)
  rw [machineEntry_numbers] at hnumbers
  generalize hwritten : [exit.val, first.val] = numbers at hnumbers
  cases hnumbers with
  | direct hnone =>
      rw [hexit] at hnone
      cases hnone
  | @machine info first' hinfo hplace hexit' hfirst =>
      obtain ⟨rfl, rfl⟩ : exit = info.id ∧ first = first' := by
        simp only [List.cons.injEq, and_true] at hwritten
        exact ⟨congrArg BlockId.mk hwritten.1, congrArg BlockId.mk hwritten.2⟩
      obtain ⟨start, hstart, hid, hplace'⟩ := (hspace.get?_eq_some _ _ _).mp hfirst
      obtain ⟨_, -, hemitted⟩ := hspace.emitted start hstart
      obtain ⟨last, hlast, hemitted'⟩ := hspace.emitted info hinfo
      cases hemitted with
      | exit _ hother =>
          rw [hplace'] at hother
          cases (Prod.mk.inj hother).2
      | @block fr _ _ hfr _ hother _ =>
          rw [hplace'] at hother
          obtain ⟨hindex, -⟩ := Prod.mk.inj hother
          have hfunc : fr.machine.func = fn := by
            have hfind := func?_of_mem hp (h.planned.built fr hfr).func
            rw [← show fn.index = fr.machine.func.index from hindex, func?_of_mem hp hfn] at hfind
            exact (Option.some.inj hfind).symm
          refine ⟨fr, hfr, congrArg (·.index) hfunc, congrArg (·.type) hfunc, ?_, ?_⟩
          · cases hemitted' with
            | block _ _ hother _ =>
                rw [hplace] at hother
                cases (Prod.mk.inj hother).2
            | @exit fn' hfn' hother hsf =>
                rw [hplace] at hother
                have hfind := func?_of_mem hp hfn'
                rw [← (Prod.mk.inj hother).1] at hfind
                rw [show p.func? fn.index = some fn from func?_of_mem hp hfn] at hfind
                cases hfind
                exact ⟨info.name, info, hinfo, rfl, hsf ▸ hlast⟩
          · have hnumber : (out.blockContext fr).numberOf 0 = first := by
              have hget : out.numbers.get fr.machine.func.index 0 = .ok first := by
                rw [hfunc]
                exact BlockNumbers.get_eq_ok.mpr hfirst
              change (out.numbers.get fr.machine.func.index 0).toOption.getD default = first
              rw [hget]
              rfl
            rw [hnumber]
            exact hf

/-- A compiled module goes with the machines of its plan, if there are numbers for its host functions. -/
theorem Origin.linked (hp : p.Formed) (hfew : out.hosts.funcs.length ≤ BlockId.maxBlocks)
    (h : compile config p = .ok out) (horigin : Origin config p out g plan direct machines entries)
    (hvalid : out.module.validate = .ok ()) : Linked p plan.frames out := by
  have hspace := horigin.addressSpace hp hvalid
  obtain ⟨n, hn, -, hkeys⟩ := hspace.keys
  refine
    { runnable := runnable_of_compile hp h
      apart := horigin.apart
      hostLayout := horigin.planned.table.2.trans horigin.context_eq.1
      ids := ?_
      names := fun b hb => horigin.planned.name_of_mem_blocks (horigin.blocks_eq ▸ hb)
      blocks := fun b hb => ?_
      hosts := fun id func hfunc => ?_
      machined := fun fr hfr => horigin.isMachined hp hvalid hfew hfr
      accepts := fun e he => ?_
      starts := fun e he exit hexit => horigin.starts hp hvalid he hexit }
  · have hnodup : (out.blocks.map (·.id.val.toNat)).Nodup := hkeys ▸ List.nodup_range
    exact List.Nodup.of_map (fun id : BlockId => id.val.toNat)
      (by rw [List.map_map]; exact hnodup)
  · have hmem : b.id.val.toNat ∈ out.blocks.map (·.id.val.toNat) := List.mem_map.mpr ⟨b, hb, rfl⟩
    rw [hkeys, List.mem_range] at hmem
    exact Nat.lt_of_lt_of_le hmem hn
  · by_contra hlt
    unfold HostTable.lookup? at hfunc
    rw [isHost_eq_testBit, Nat.testBit_lt_two_pow (Nat.not_le.mp hlt), if_neg Bool.false_ne_true]
      at hfunc
    cases hfunc
  · obtain ⟨x, -, fn, hfn, -, -, symbol, -, rfl⟩ :=
      horigin.planned.of_mem_entries (horigin.entries_eq ▸ he)
    exact (hp.funcKnown _ hfn).1.params

theorem linked_of_compile (hp : p.Formed) (hfew : out.hosts.funcs.length ≤ BlockId.maxBlocks)
    (h : compile config p = .ok out) : ∃ frames, Linked p frames out := by
  obtain ⟨-, g, plan, direct, machines, entries, -, horigin, -, hvalid⟩ := compile_eq_ok hp h
  exact ⟨plan.frames, horigin.linked hp hfew h hvalid⟩

/-- There are, if the module can be encoded. -/
theorem hosts_le_of_encodable {m : Binary.Module} (hm : m.Encodable)
    (hread : Program.ofModule m = .ok p) (h : compile config p = .ok out) :
    out.hosts.funcs.length ≤ BlockId.maxBlocks := by
  obtain ⟨-, g, plan, direct, machines, entries, -, horigin, -, -⟩ :=
    compile_eq_ok (Program.formed_of_ofModule hread) h
  exact horigin.planned.table.1.length_le hm hread

end Linked

end Compile

end WasmShader
