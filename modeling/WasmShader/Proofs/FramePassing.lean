import WasmShader.Proofs.BlockRun
import WasmShader.Proofs.FrameLayout
import WasmShader.Proofs.MachineForm

/-!
# Passing frames

What a block pushes is what the block it leads to pops. An edge pushes the frame of its target,
and popping it gives the target the locals and operands that the edge passes on. A transfer
pushes the frame of the block to come back to, with room for the results, and on top of it the
frame of what is called. Whoever answers, the callee with its return statements or the host with
`HostTable.complete`, fills that room, and then the frame to come back to pops into the saved
locals, the operands that were kept and the results.

`FramesAgree` collects this for a machine. Its statements are about the code that is emitted, run
on any lane whose data words are as described (`Stacked`), whatever is in the words below a frame,
above it, or in the room. So what `Frames.build` counts is what the code pushes.
-/

namespace WasmShader

open Execution (Datum Env FitsAll meaning storedAll wordsFrom)

/-! ## Ways to leave a block -/

/-- The operands that the edges of a block leave with: without the one that it decides on. -/
def Block.leaving (b : Block) : TypeStack :=
  match b.term with
  | .branch _ _ | .switch _ _ => TypeStack.below b.stack 1
  | _ => b.stack

/-- What a terminator transfers control to, what that takes and gives, and the block to come back
to. -/
def Terminator.transfer? : Terminator → Option (Callee × Signature × Nat)
  | .call fn args results next => some (.func fn, ⟨args, results⟩, next)
  | .host h args results next => some (.host h, ⟨args, results⟩, next)
  | _ => none

theorem Terminator.Typed.edge_typed {p : Program} {m : Machine} {b : Block}
    (h : b.term.Typed p m b.stack) {e : Edge} (he : e ∈ b.term.edges) :
    e.Typed m b.leaving := by
  unfold Block.leaving
  generalize b.term = t at h he
  generalize b.stack = stack at h
  cases h with
  | goto hgoto =>
      rw [List.mem_singleton.mp he]
      exact hgoto
  | branch htaken hnotTaken =>
      dsimp only
      rw [Emit.below_one]
      rcases List.mem_cons.mp he with rfl | he
      · exact htaken
      · rw [List.mem_singleton.mp he]
        exact hnotTaken
  | switch hcases hfallback =>
      dsimp only
      rw [Emit.below_one]
      rcases List.mem_append.mp he with he | he
      · exact hcases e he
      · rw [List.mem_singleton.mp he]
        exact hfallback
  | call => cases he
  | host => cases he
  | ret => cases he
  | trap => cases he

theorem Terminator.Typed.of_transfer {p : Program} {m : Machine} {stack : TypeStack}
    {t : Terminator} (h : t.Typed p m stack) {callee : Callee} {sig : Signature} {next : Nat}
    (ht : t.transfer? = some (callee, sig, next)) :
    ∃ rest, stack = rest ++ sig.params ∧ callee.Takes p sig
      ∧ m.entryTypes? next = some (rest ++ sig.results) := by
  cases h with
  | call htakes hnext => cases ht; exact ⟨_, rfl, htakes, hnext⟩
  | host htakes hnext => cases ht; exact ⟨_, rfl, htakes, hnext⟩
  | goto => cases ht
  | branch => cases ht
  | switch => cases ht
  | ret => cases ht
  | trap => cases ht

theorem Frames.pushWords_transfer (fr : Frames) {b : Block} {callee : Callee} {sig : Signature}
    {next : Nat} (h : b.term.transfer? = some (callee, sig, next)) :
    fr.pushWords b = (fr.payload next).frameWords + fr.layout.sizeOf sig.params + 1
      ∧ fr.saved b = (fr.payload next).words - fr.layout.sizeOf sig.results := by
  unfold Frames.pushWords Frames.saved
  generalize b.term = t at h
  cases t with
  | call => cases h; exact ⟨rfl, rfl⟩
  | host => cases h; exact ⟨rfl, rfl⟩
  | goto => cases h
  | branch => cases h
  | switch => cases h
  | ret => cases h
  | trap => cases h

theorem le_foldl_max {n k : Nat} {ns : List Nat} (h : n ∈ ns ∨ n ≤ k) : n ≤ ns.foldl max k := by
  induction ns generalizing k with
  | nil => exact h.resolve_left (List.not_mem_nil)
  | cons m ns ih =>
      refine ih ?_
      rcases h with h | h
      · rcases List.mem_cons.mp h with rfl | h
        · exact .inr (Nat.le_max_right ..)
        · exact .inl h
      · exact .inr (Nat.le_trans h (Nat.le_max_left ..))

theorem Frames.frameWords_le {fr : Frames} {b : Block} {e : Edge} (he : e ∈ b.term.edges) :
    (fr.payload e.target).frameWords ≤ fr.pushWords b := by
  unfold Frames.pushWords
  have hmax : (fr.payload e.target).frameWords
      ≤ (b.term.edges.map fun e => (fr.payload e.target).frameWords).foldl max 0 :=
    le_foldl_max (.inl (List.mem_map.mpr ⟨e, he, rfl⟩))
  generalize b.term = t at he hmax
  cases t with
  | goto => exact hmax
  | branch => exact hmax
  | switch => exact hmax
  | call => cases he
  | host => cases he
  | ret => cases he
  | trap => cases he

/-! ## Answers of the host -/

namespace LaneStack

/-- A lane's region: the stack pointer, the trap code, the words in use and those above. -/
def Holds (s : LaneStack) (trap : UInt32) (used above : List UInt32) : Prop :=
  s.words.toList = used.length.toUInt32 :: trap :: (used ++ above)

variable {s : LaneStack} {trap : UInt32} {used above : List UInt32}

theorem Holds.sp (h : s.Holds trap used above) : s.sp = used.length.toUInt32 := by
  rw [LaneStack.sp, Array.getD_eq_getD_getElem?, ← Array.getElem?_toList, h]
  rfl

theorem Holds.size (h : s.Holds trap used above) :
    s.words.size = headerWords + used.length + above.length := by
  rw [← Array.length_toList, h, List.length_cons, List.length_cons, List.length_append, headerWords]
  omega

/-- Words that are taken off the stack stay in their places. -/
theorem Holds.pop {top : List UInt32} (h : s.Holds trap (used ++ top) above)
    (hlt : (used ++ top).length < 2 ^ 32) :
    ∃ ws s', s.pop top.length = .ok (ws, s') ∧ s'.Holds trap used (top ++ above) := by
  have hsp : s.sp.toNat = used.length + top.length := by
    rw [h.sp, Execution.toNat_toUInt32 hlt, List.length_append]
  have hsize := h.size
  rw [List.length_append] at hsize
  refine ⟨(s.words.extract (headerWords + used.length)
    (headerWords + (used.length + top.length))).toList, s.setSp used.length.toUInt32, ?_, ?_⟩
  · unfold LaneStack.pop
    rw [hsp, if_neg (by omega), Nat.add_sub_cancel]
    unfold LaneStack.slice LaneStack.capacity
    rw [hsize, if_pos (by rw [Bool.and_eq_true, decide_eq_true_eq, decide_eq_true_eq]; omega)]
    rfl
  · rw [Holds, LaneStack.setSp, Array.toList_setIfInBounds, h, List.set_cons_zero,
      List.append_assoc]

end LaneStack

theorem HostTable.wrongType?_eq_none {values : List Value} {types : List ValueType}
    (h : values.map (·.type) = types) : wrongType? types values = none := by
  subst h
  induction values with
  | nil => rfl
  | cons v values ih => rw [List.map_cons, wrongType?, if_pos rfl, ih]

theorem storedAll_ofValue (l : Layout) (values : List Value) :
    storedAll l (values.map (·.type)) (values.map (.ofValue l)) = values.flatMap l.encode := by
  induction values with
  | nil => rfl
  | cons v values ih =>
      rw [List.map_cons, List.map_cons, Execution.storedAll_cons, Datum.stored_ofValue, ih,
        List.flatMap_cons]

/-- The host's answer is written into the room below the block number that is on top once the
request is gone. -/
theorem HostTable.complete_writes {t : HostTable} (request : Pending) {answers : List Value}
    (hanswers : answers.map (·.type) = request.func.results)
    (hparams : AllKnown request.func.params) (hresults : AllKnown request.func.results)
    {s : LaneStack} {trap : UInt32} {low room call above : List UInt32} {id : UInt32}
    (hroom : room.length = t.layout.sizeOf request.func.results)
    (hcall : call.length = t.argWords request.func + 1)
    (hs : s.Holds trap (low ++ room ++ [id] ++ call) above)
    (hlt : (low ++ room ++ [id] ++ call).length < 2 ^ 32) :
    ∃ s', t.complete request answers s = (.ok (), s')
      ∧ s'.Holds trap
        (low ++ storedAll t.layout request.func.results (answers.map (.ofValue t.layout)) ++ [id])
        (call ++ above) := by
  obtain ⟨ws, s₁, hpop, hs₁⟩ := hs.pop hlt
  have hcheck : checkResults request.func answers = .ok () := by
    rw [checkResults, wrongType?_eq_none hanswers, ← hanswers, List.length_map,
      if_neg (fun h => h rfl)]
  have hencode : t.layout.encodeAll answers = .ok (answers.flatMap t.layout.encode) := by
    rw [Layout.encodeAll, hanswers, Layout.requireKnown_eq_ok hresults]
    rfl
  have hstored := storedAll_ofValue t.layout answers
  rw [hanswers] at hstored
  have hwords : (answers.flatMap t.layout.encode).length = room.length := by
    rw [← hstored, hroom]
    exact Execution.length_storedAll (by rw [← hanswers, List.length_map, List.length_map])
  have hused : (low ++ room ++ [id]).length = low.length + room.length + 1 := by
    rw [List.length_append, List.length_append, List.length_singleton]
  have hsp : s₁.sp.toNat = low.length + room.length + 1 := by
    rw [List.length_append] at hlt
    rw [hs₁.sp, Execution.toNat_toUInt32 (by omega), hused]
  refine ⟨⟨LaneStack.writeAt s₁.words (LaneStack.headerWords + low.length)
    (answers.flatMap t.layout.encode)⟩, ?_, ?_⟩
  · unfold HostTable.complete
    rw [hcheck, Layout.requireKnown_eq_ok hparams]
    dsimp only
    rw [← hcall, hpop]
    dsimp only
    rw [hencode]
    dsimp only
    rw [hsp, hwords, if_neg (by omega)]
    have hplace : low.length + room.length + 1 - 1 - room.length = low.length := by omega
    rw [hplace]
  · have hparts : s₁.words.toList
        = ((low ++ room ++ [id]).length.toUInt32 :: trap :: low) ++ room
          ++ (id :: (call ++ above)) := by
      rw [hs₁]
      simp only [List.append_assoc, List.cons_append, List.nil_append]
    rw [LaneStack.Holds, hstored, Execution.toList_writeAt_of_append hparts
      (by rw [List.length_cons, List.length_cons, LaneStack.headerWords]; omega) hwords]
    simp only [List.length_append, List.length_singleton, hwords, List.append_assoc,
      List.cons_append, List.nil_append]

namespace Emit

/-! ## The words and variables of a lane -/

/-- The data words of the lane: those in use, which the stack pointer counts, and those above. -/
structure Stacked (bc : BlockContext) (s : Execution.State) (header used above : List UInt32) :
    Prop where
  framed : Framed s used.length
  two : header.length = LaneStack.headerWords
  words : (s.lane.words .stack).toList = header ++ used ++ above
  capacity : used.length + above.length = bc.stackWords.toNat

/-- The variables that the code declares hold these locals and operands. -/
structure Carries (bc : BlockContext) (es : State) (types : TypeStack)
    (locals operands : List Datum) (s : Execution.State) : Prop where
  present : ∀ x ∈ es.names, (s.vars.lookup x).isSome = true
  localsFit : FitsAll bc.layout bc.func.locals locals
  locals : ∀ i d, s.vars.lookup (localName i) = some d → locals[i]? = some d
  operandsFit : FitsAll bc.layout types operands
  operands : Stand s (slotNames 0 types) operands

section Stacks

variable {bc : BlockContext} {env : Env} {s : Execution.State}
  {header below gap above ws : List UInt32} {code : List Shader.Stmt}

theorem Stacked.size (h : Stacked bc s header below above) :
    (s.lane.words .stack).size = LaneStack.headerWords + bc.stackWords.toNat := by
  rw [← Array.length_toList, h.words, List.length_append, List.length_append, h.two,
    ← h.capacity, Nat.add_assoc]

/-- A push that there is room for. -/
theorem Stacked.push (h : Stacked bc s header below (gap ++ above)) (hlen : ws.length = gap.length)
    (hrun : RunsPush env bc.stackWords s below.length code ws) :
    ∃ s', meaning env code s = some (.ok .next, s') ∧ Stacked bc s' header (below ++ ws) above := by
  have hcapacity := h.capacity
  rw [List.length_append] at hcapacity
  obtain ⟨vars, hmeaning, hframed⟩ := hrun.fits (by omega)
  refine ⟨_, hmeaning, ?_, h.two, ?_, ?_⟩
  · rw [List.length_append]
    exact hframed
  · have hparts : (s.lane.words .stack).toList = (header ++ below) ++ gap ++ above := by
      rw [h.words, List.append_assoc _ gap]
    change (LaneStack.writeAt (s.lane.words .stack) (LaneStack.headerWords + below.length) ws).toList
      = _
    rw [Execution.toList_writeAt_of_append hparts (by rw [List.length_append, h.two]) hlen,
      List.append_assoc header]
  · rw [List.length_append]
    omega

/-- The words that the lane has at a distance above the stack pointer. -/
theorem Stacked.wordsFrom (h : Stacked bc s header below (gap ++ above)) {k n : Nat}
    (hk : k + n ≤ gap.length) :
    wordsFrom (s.lane.words .stack) (LaneStack.headerWords + below.length + k) n
      = (gap.drop k).take n := by
  have hparts : (s.lane.words .stack).toList = (header ++ below ++ gap.take k)
      ++ (gap.drop k).take n ++ ((gap.drop k).drop n ++ above) := by
    have hgap : gap = gap.take k ++ ((gap.drop k).take n ++ (gap.drop k).drop n) := by
      rw [List.take_append_drop, List.take_append_drop]
    rw [h.words]
    conv_lhs => rw [hgap]
    simp only [List.append_assoc]
  refine Execution.wordsFrom_of_append hparts ?_ ?_
  · rw [List.length_append, List.length_append, h.two, List.length_take]
    omega
  · rw [List.length_take, List.length_drop]
    omega

end Stacks

/-! ## Popping -/

/-- The code that pops the frame of a block, with these words on top of the stack, takes them off
and gives the variables of the payload the locals and operands. -/
def Pops (bc : BlockContext) (env : Env) (i : Nat) (frame : List UInt32)
    (locals operands : List Datum) : Prop :=
  ∃ b, bc.frames.machine.blocks[i]? = some b ∧ ∀ es, ∃ names es',
    bc.frameVars b (bc.frames.payload i) es = .ok (names, es')
    ∧ ∀ s header below above, Stacked bc s header (below ++ frame) above →
      (∀ x ∈ es'.names, (s.vars.lookup x).isSome = true) →
      ∃ s', meaning env (popFrame bc.layout (bc.frames.payload i) names) s
          = some (.ok .next, s')
        ∧ Stacked bc s' header below (frame ++ above)
        ∧ (∀ j ∈ (bc.frames.payload i).locals, s'.vars.lookup (localName j) = locals[j]?)
        ∧ Stand s' (slotNames 0 b.entry) operands

theorem saved_fits {l : Layout} {f : Function} {is : List Nat} {saved : List ValueType}
    (h : List.Forall₂ (fun i t => f.locals[i]? = some t) is saved) {locals : List Datum}
    (hlocals : FitsAll l f.locals locals) :
    FitsAll l saved (is.map fun i => locals.getD i default)
      ∧ ∀ i ∈ is, locals[i]? = some (locals.getD i default) := by
  induction h with
  | nil => exact ⟨.nil, nofun⟩
  | @cons i t is saved hi _ ih =>
      obtain ⟨d, hd, hfits⟩ := hlocals.getElem? hi
      have hget : locals.getD i default = d := by
        rw [List.getD_eq_getElem?_getD, hd]
        rfl
      have hhead : Datum.Fits l t (locals.getD i default) := by
        rw [hget]
        exact hfits
      refine ⟨.cons hhead ih.1, fun j hj => ?_⟩
      rcases List.mem_cons.mp hj with rfl | hj
      · rw [hget, hd]
      · exact ih.2 j hj

section Agreement

variable {bc : BlockContext} {env : Env}

theorem Agreeing.payload_of_entry (hagree : Agreeing bc env) {i : Nat} {entry : List ValueType}
    (hentry : bc.frames.machine.entryTypes? i = some entry) :
    (bc.frames.payload i).Formed bc.layout bc.func entry := by
  have hpl := hagree.frames.payload_of_entry hentry
  rw [hagree.framesLayout, ← hagree.layout] at hpl
  exact hpl

theorem frame_fits (hagree : Agreeing bc env) {i : Nat} {entry : List ValueType}
    (hentry : bc.frames.machine.entryTypes? i = some entry) {locals operands : List Datum}
    (hlocals : FitsAll bc.layout bc.func.locals locals)
    (hoperands : FitsAll bc.layout entry operands) :
    FitsAll bc.layout (bc.frames.payload i).types
      ((bc.frames.payload i).saved locals ++ operands) := by
  obtain ⟨saved, hsaved, htypes⟩ := (hagree.payload_of_entry hentry).types
  rw [htypes]
  exact (saved_fits hsaved hlocals).1.append hoperands

theorem length_frameWords (hagree : Agreeing bc env) {i : Nat} {entry : List ValueType}
    (hentry : bc.frames.machine.entryTypes? i = some entry) {locals operands : List Datum}
    (hlocals : FitsAll bc.layout bc.func.locals locals)
    (hoperands : FitsAll bc.layout entry operands) :
    (bc.frameWords i locals operands).length = (bc.frames.payload i).words := by
  rw [BlockContext.frameWords,
    Execution.length_storedAll (frame_fits hagree hentry hlocals hoperands).length_eq,
    (hagree.payload_of_entry hentry).words]

/-- A frame pops into what it was made of. -/
theorem pops_frame (hagree : Agreeing bc env) {i : Nat} {entry : List ValueType}
    (hentry : bc.frames.machine.entryTypes? i = some entry) {locals operands : List Datum}
    (hlocals : FitsAll bc.layout bc.func.locals locals)
    (hoperands : FitsAll bc.layout entry operands) (id : UInt32) :
    Pops bc env i (bc.frameWords i locals operands ++ [id]) locals operands := by
  have hpl := hagree.payload_of_entry hentry
  have hall := frame_fits hagree hentry hlocals hoperands
  have hwords := length_frameWords hagree hentry hlocals hoperands
  obtain ⟨b, hb, rfl⟩ := Option.map_eq_some_iff.mp hentry
  obtain ⟨saved, hsaved, htypes⟩ := hpl.types
  obtain ⟨-, hget⟩ := saved_fits hsaved hlocals
  refine ⟨b, hb, fun es => ?_⟩
  obtain ⟨_, es', hrun, -, -, rfl, hnames⟩ := frameVars_declares (b := b) hpl es hagree.locals
  refine ⟨_, es', hrun, fun s header below above hs hpresent => ?_⟩
  have hframed := hs.framed
  rw [List.length_append, List.length_append, hwords, List.length_singleton] at hframed
  have hparts : (s.lane.words .stack).toList = (header ++ below)
      ++ storedAll bc.layout (bc.frames.payload i).types
        ((bc.frames.payload i).saved locals ++ operands) ++ (id :: above) := by
    rw [hs.words, BlockContext.frameWords]
    simp only [List.append_assoc, List.cons_append, List.nil_append]
  rw [hagree.layout] at hpl hparts hall
  obtain ⟨vars, hpop, hframed', -, -, hstand⟩ := meaning_popFrame (b := b) env hpl hframed
    (fun x hx => hpresent x (hnames x hx)) hparts (by rw [List.length_append, hs.two]) hall
  obtain ⟨hstandLocals, hstandSlots⟩ := hstand.of_append
    (by rw [List.length_map, Payload.saved, List.length_map])
  rw [← hagree.layout] at hpop
  refine ⟨{ s with vars }, hpop, ⟨hframed', hs.two, ?_, ?_⟩, fun j hj => ?_, hstandSlots⟩
  · rw [← List.append_assoc]
    exact hs.words.trans (by rw [List.append_assoc header below])
  · have hcapacity := hs.capacity
    rw [List.length_append] at hcapacity
    rw [List.length_append]
    omega
  · rw [hget j hj]
    obtain ⟨k, hk⟩ := List.mem_iff_getElem?.mp hj
    have hlt := (List.getElem?_eq_some_iff.mp hk).1
    have hat := (List.forall₂_iff_get.mp hstandLocals).2 k (by rw [List.length_map]; exact hlt)
      (by rw [Payload.saved, List.length_map]; exact hlt)
    simp only [List.get_eq_getElem, Payload.saved, List.getElem_map,
      (List.getElem?_eq_some_iff.mp hk).2] at hat
    exact hat

/-! ## Edges -/

theorem known_leaving {b : Block} (h : AllKnown b.stack) : AllKnown b.leaving := by
  unfold Block.leaving
  split
  · exact h.take _
  · exact h.take _
  · exact h

/-- The code of an edge, where there is room for the frame of its target, pushes a frame of that
size, which pops into the locals and the operands that the edge passes on. -/
def Passes (bc : BlockContext) (env : Env) (b : Block) (e : Edge) : Prop :=
  ∃ targetId, bc.blockId e.target = .ok targetId
    ∧ ∀ es, ∃ code es', bc.emitEdge e b.leaving es = .ok (code, es')
      ∧ ∀ s header below gap above locals operands,
        Stacked bc s header below (gap ++ above) →
        gap.length = (bc.frames.payload e.target).frameWords →
        Carries bc es' b.leaving locals operands s →
        ∃ payload frame s', frame = payload ++ [targetId.val]
          ∧ frame.length = (bc.frames.payload e.target).frameWords
          ∧ meaning env code s = some (.ok .next, s')
          ∧ Stacked bc s' header (below ++ frame) above
          ∧ Pops bc env e.target frame locals
            (operands.take e.keep ++ Structured.top e.carry operands)

theorem passes_edge (hagree : Agreeing bc env) {b : Block} {e : Edge}
    (hknown : AllKnown b.leaving) (he : e.Typed bc.frames.machine b.leaving)
    (hid : (bc.blockId e.target).isOk = true) : Passes bc env b e := by
  refine ⟨_, eq_ok_of_isOk hid, fun es => ?_⟩
  obtain ⟨_, es', hrun, -, -, rfl, hsaves⟩ :=
    emitEdge_declares hagree.frames hknown he hid es hagree.locals
  refine ⟨_, es', hrun, fun s header below gap above locals operands hs hgap hc => ?_⟩
  have hlimit := bc.stackWords.toNat_lt
  have hcapacity := hs.capacity
  rw [List.length_append] at hcapacity
  have hpassed : FitsAll bc.layout (e.types b.leaving)
      (operands.take e.keep ++ Structured.top e.carry operands) :=
    FitsAll.append (List.forall₂_take _ hc.operandsFit)
      (Structured.top_fits hc.operandsFit e.carry)
  have hpush := runsPush_edge hagree he hc.locals hc.operands hs.framed hs.size
    (fun i hi => hc.present _ (hsaves i hi)) (by omega)
  have hlen : (bc.frameWords e.target locals
      (operands.take e.keep ++ Structured.top e.carry operands)
        ++ [(bc.numberOf e.target).val]).length = gap.length := by
    rw [List.length_append, length_frameWords hagree he.target hc.localsFit hpassed, hgap]
    rfl
  obtain ⟨s', hmeaning, hs'⟩ := hs.push hlen hpush
  exact ⟨_, _, s', rfl, hlen.trans hgap, hmeaning, hs',
    pops_frame hagree he.target hc.localsFit hpassed _⟩

/-! ## Returns -/

/-- The code of a return writes the results into the room below the block number on top. -/
theorem writes_return (hagree : Agreeing bc env) {b : Block} {p : Program}
    (hstackKnown : AllKnown b.stack) (hb : b.term.Typed p bc.frames.machine b.stack) (hids : Numbered bc b.term)
    {types : List ValueType} (hret : b.term = .ret types)
    (hknown : AllKnown bc.func.type.results) (es : State) :
    ∃ code es', bc.emitTerminator b es = .ok (code, es')
      ∧ ∀ s header low room above locals rest answers id,
        Stacked bc s header (low ++ room ++ [id]) above →
        room.length = bc.layout.sizeOf bc.func.type.results →
        Carries bc es' b.stack locals (rest ++ answers) s →
        answers.length = bc.func.type.results.length →
        ∃ s', meaning env code s = some (.ok .next, s')
          ∧ Stacked bc s' header (low ++ storedAll bc.layout bc.func.type.results answers ++ [id])
            above
          ∧ FitsAll bc.layout bc.func.type.results answers := by
  obtain ⟨_, es', hrun, -, -, rfl, -⟩ :=
    emitTerminator_declares hagree.frames hstackKnown hb hids es hagree.locals
  refine ⟨_, es', hrun, fun s header low room above locals rest answers id hs hroom hc hlen => ?_⟩
  obtain ⟨types', hstack, htypes⟩ : ∃ types', b.stack = types' ++ bc.func.type.results
      ∧ types = bc.func.type.results := by
    rw [hret] at hb
    generalize b.stack = stack at hb
    cases hb
    exact ⟨_, rfl, rfl⟩
  have hslots := hc.operands
  have hfits := hc.operandsFit
  rw [hstack] at hslots hfits
  have htotal := hslots.length_slots
  rw [List.length_append, List.length_append] at htotal
  obtain ⟨-, habove⟩ := hslots.split (by omega)
  obtain ⟨as, bs, heq, -, hanswers⟩ := hfits.of_append
  obtain ⟨-, rfl⟩ := List.append_inj' heq (by rw [hlen, hanswers.length_eq])
  have hstored : (storedAll bc.layout bc.func.type.results answers).length = room.length := by
    rw [hroom, Execution.length_storedAll hanswers.length_eq]
  have hused : (low ++ room ++ [id]).length = low.length + room.length + 1 := by
    rw [List.length_append, List.length_append, List.length_singleton]
  have hcapacity := hs.capacity
  have hcode := meaning_resultCode env hs.framed (show room.length + 1 ≤ _ by omega)
    (by rw [hs.size]; omega) hknown habove
    (show 0 + env.exe.layout.sizeOf bc.func.type.results ≤ room.length by
      rw [hroom, hagree.layout]; omega)
  have hparts : (s.lane.words .stack).toList = (header ++ low) ++ room ++ (id :: above) := by
    rw [hs.words]
    simp only [List.append_assoc, List.cons_append, List.nil_append]
  have hplace : (header ++ low).length
      = LaneStack.headerWords + ((low ++ room ++ [id]).length - 1 - room.length) + 0 := by
    rw [List.length_append, hs.two]
    omega
  rw [hret, exitCode, htypes, hstack, List.length_append, Nat.add_sub_cancel, ← hroom,
    hagree.layout]
  refine ⟨_, hcode, ⟨?_, hs.two, ?_, ?_⟩, by rw [← hagree.layout]; exact hanswers⟩
  · have hsame : (low ++ storedAll bc.layout bc.func.type.results answers ++ [id]).length
        = (low ++ room ++ [id]).length := by
      rw [hused, List.length_append, List.length_append, hstored, List.length_singleton]
    rw [← hagree.layout, hsame]
    exact hs.framed.withWords (Execution.size_writeAt ..)
  · rw [Execution.State.lane_withWords, Execution.Lane.words_withWords, ← hagree.layout,
      Execution.toList_writeAt_of_append hparts hplace hstored]
    simp only [List.append_assoc, List.cons_append, List.nil_append]
  · rw [← hagree.layout, ← hcapacity]
    simp only [List.length_append, hstored]

end Agreement

/-! ## Machines with their frames -/

/-- The number that a block pushes last to transfer control. -/
def BlockContext.calleeId (bc : BlockContext) : Callee → Except Abort BlockId
  | .func fn => bc.ids.get fn 0
  | .host h => .ok h.id

/-- The context that the blocks of a checked function are emitted in: its machine, laid out, with
numbers for the blocks that control is passed to. -/
structure BlockContext.Laid (p : Program) (g : CallGraph) (bc : BlockContext) : Prop where
  mem : bc.func ∈ p.funcs
  checked : p.check bc.func = .ok ()
  split : ∃ hosts hosts', hosts.Sound p
    ∧ Machine.split p g.analyze hosts bc.func = .ok (bc.frames.machine, hosts')
  built : Frames.build bc.frames.machine bc.layout bc.stackWords.toNat = .ok bc.frames
  numbered : ∀ b ∈ bc.frames.machine.blocks, Numbered bc b.term

section Laid

variable {p : Program} {g : CallGraph} {bc : BlockContext} {env : Env}

theorem BlockContext.Laid.sound (hp : p.Formed) (hg : CallGraph.build p = .ok g)
    (h : bc.Laid p g) :
    (∃ hosts, bc.frames.machine.Sound p g.analyze (fun _ => True) hosts)
      ∧ bc.frames.Fit bc.frames.machine bc.layout bc.stackWords.toNat := by
  obtain ⟨body, hbody, htyped⟩ :=
    Program.typedSeq_of_check_function (hp.body bc.func h.mem) h.checked
  obtain ⟨hknown, hlocals⟩ := hp.funcKnown bc.func h.mem
  have hwalk : Split.Walkable ⟨p, g.analyze, bc.func⟩ :=
    ⟨hp, hknown, hlocals, fun fn h => Compile.isImport_of_directSafe hp hg h, h.mem⟩
  have hkept : Split.CallsKept p (fun _ => True) (Body.instrs body) := fun _ _ _ _ _ _ => trivial
  obtain ⟨hosts, hosts', hhosts, hsplit⟩ := h.split
  obtain ⟨m, hosts'', hsplit', -, hsound, -⟩ :=
    Machine.split_sound hwalk hhosts hbody htyped hkept
  rw [hsplit] at hsplit'
  cases hsplit'
  obtain ⟨declared, hdeclared⟩ := hp.funcLocals bc.func h.mem
  have hparams : bc.frames.machine.func.type.params.length
      ≤ bc.frames.machine.func.locals.length := by
    change bc.func.type.params.length ≤ bc.func.locals.length
    rw [hdeclared, List.length_append]
    omega
  refine ⟨⟨_, hsound⟩, ?_⟩
  rcases Frames.build_total hsound hlocals hparams bc.layout bc.stackWords.toNat with
    ⟨fr, hbuilt, hfit⟩ | ⟨e, herror, -⟩
  · rw [h.built] at hbuilt
    cases hbuilt
    exact hfit
  · rw [h.built] at herror
    cases herror

theorem agreeing_of_fit (h : bc.frames.Fit bc.frames.machine bc.layout bc.stackWords.toNat)
    (hlocals : AllKnown bc.func.locals) (henv : env.exe.layout = bc.layout) : Agreeing bc env :=
  ⟨henv.symm, h.layout.trans henv.symm, h.formed, hlocals⟩

/-! ## Transfers -/

/-- How control comes back to a block: its frame waits with `saved` in front of the room for the
results. The return of a callee or the answer of the host fills the room, and then the frame pops
into the locals, the operands that were kept and the results. -/
structure Resumes (p : Program) (g : CallGraph) (bc : BlockContext) (env : Env) (callee : Callee)
    (results : List ValueType) (next : Nat) (id : UInt32) (saved : List UInt32)
    (locals kept : List Datum) : Prop where
  returned : ∀ fn, callee = .func fn → ∀ other : BlockContext, other.Laid p g →
    other.layout = bc.layout → p.func? fn = some other.func →
    ∀ b ∈ other.frames.machine.blocks, ∀ types, b.term = .ret types → ∀ es, ∃ code es',
      other.emitTerminator b es = .ok (code, es')
      ∧ ∀ s header below room above others rest answers,
        Stacked other s header (below ++ (saved ++ room ++ [id])) above →
        room.length = bc.layout.sizeOf results →
        Carries other es' b.stack others (rest ++ answers) s → answers.length = results.length →
        ∃ s', meaning env code s = some (.ok .next, s')
          ∧ Stacked other s' header
            (below ++ (saved ++ storedAll bc.layout results answers ++ [id])) above
          ∧ Pops bc env next (saved ++ storedAll bc.layout results answers ++ [id]) locals
            (kept ++ answers)
  completed : ∀ h, callee = .host h → ∀ (t : HostTable) (args answers : List Value)
    (s : LaneStack) (trap : UInt32) (below room call above : List UInt32),
    t.layout = bc.layout → answers.map (·.type) = results →
    room.length = bc.layout.sizeOf results → call.length = t.argWords h + 1 →
    s.Holds trap (below ++ (saved ++ room ++ [id]) ++ call) above →
    s.capacity = bc.stackWords.toNat →
    ∃ s', t.complete ⟨h, args⟩ answers s = (.ok (), s')
      ∧ s'.Holds trap (below ++ (saved
        ++ storedAll bc.layout results (answers.map (.ofValue bc.layout)) ++ [id])) (call ++ above)
      ∧ Pops bc env next
        (saved ++ storedAll bc.layout results (answers.map (.ofValue bc.layout)) ++ [id]) locals
        (kept ++ answers.map (.ofValue bc.layout))

/-- The code of a transfer, where there is room for what it pushes, pushes the saved part of the
frame to come back to, leaves room for the results, and pushes the block number, the arguments and
the number of what is called. -/
def Transfers (p : Program) (g : CallGraph) (bc : BlockContext) (env : Env) (b : Block)
    (callee : Callee) (sig : Signature) (next : Nat) : Prop :=
  ∃ nextId calleeId, bc.blockId next = .ok nextId ∧ bc.calleeId callee = .ok calleeId
    ∧ ∀ es, ∃ code es', bc.emitTerminator b es = .ok (code, es')
      ∧ ∀ s header below gap above locals kept args,
        Stacked bc s header below (gap ++ above) → gap.length = bc.frames.pushWords b →
        Carries bc es' b.stack locals (kept ++ args) s → args.length = sig.params.length →
        ∃ saved room pushed s', saved.length = bc.frames.saved b
          ∧ room = (gap.drop saved.length).take (bc.layout.sizeOf sig.results)
          ∧ room.length = bc.layout.sizeOf sig.results
          ∧ pushed = saved ++ room ++ [nextId.val]
            ++ (storedAll bc.layout sig.params args ++ [calleeId.val])
          ∧ pushed.length = bc.frames.pushWords b
          ∧ meaning env code s = some (.ok .next, s')
          ∧ Stacked bc s' header (below ++ pushed) above
          ∧ Resumes p g bc env callee sig.results next nextId.val saved locals kept

theorem frameWords_append (hagree : Agreeing bc env) {next : Nat} {rest results : List ValueType}
    (hnext : bc.frames.machine.entryTypes? next = some (rest ++ results))
    {locals kept : List Datum} (hkept : rest.length = kept.length) (answers : List Datum) :
    bc.frameWords next locals (kept ++ answers)
      = bc.frameWords next locals kept ++ storedAll bc.layout results answers := by
  obtain ⟨saved, hsaved, htypes⟩ := (hagree.payload_of_entry hnext).types
  have hlen : (saved ++ rest).length
      = ((bc.frames.payload next).saved locals ++ kept).length := by
    rw [List.length_append, List.length_append, hkept, Payload.saved, List.length_map,
      hsaved.length_eq]
  rw [BlockContext.frameWords, BlockContext.frameWords, htypes, ← List.append_assoc,
    ← List.append_assoc, storedAll_left hlen, Execution.storedAll_append hlen]

theorem length_frameWords_kept (hagree : Agreeing bc env) {next : Nat}
    {rest results : List ValueType}
    (hnext : bc.frames.machine.entryTypes? next = some (rest ++ results))
    {locals kept : List Datum} (hlocals : FitsAll bc.layout bc.func.locals locals)
    (hkept : FitsAll bc.layout rest kept) :
    (bc.frameWords next locals kept).length + bc.layout.sizeOf results
      = (bc.frames.payload next).words := by
  have hzeros := FitsAll.zeros bc.layout results
  have hall := length_frameWords hagree hnext hlocals (hkept.append hzeros)
  rw [frameWords_append hagree hnext hkept.length_eq, List.length_append,
    Execution.length_storedAll hzeros.length_eq] at hall
  exact hall

theorem resumes_transfer (hp : p.Formed) (hg : CallGraph.build p = .ok g)
    (henv : env.exe.layout = bc.layout) (hagree : Agreeing bc env) {callee : Callee}
    {sig : Signature} (htakes : callee.Takes p sig) {next : Nat} {rest : List ValueType}
    (hnext : bc.frames.machine.entryTypes? next = some (rest ++ sig.results))
    {locals kept : List Datum} (hlocals : FitsAll bc.layout bc.func.locals locals)
    (hkept : FitsAll bc.layout rest kept) (id : UInt32) :
    Resumes p g bc env callee sig.results next id (bc.frameWords next locals kept) locals kept := by
  have hpops {answers : List Datum} (hanswers : FitsAll bc.layout sig.results answers) :
      Pops bc env next
        (bc.frameWords next locals kept ++ storedAll bc.layout sig.results answers ++ [id]) locals
        (kept ++ answers) := by
    rw [← frameWords_append hagree hnext hkept.length_eq]
    exact pops_frame hagree hnext hlocals (hkept.append hanswers) id
  constructor
  · intro fn hcallee other hother hlayout hfunc b hb types hret es
    obtain ⟨⟨hosts, hsound⟩, hfit⟩ := hother.sound hp hg
    have hresults : other.func.type.results = sig.results := by
      have htype := htakes.func fn hcallee
      rw [hfunc, Option.map_some, Option.some.injEq] at htype
      rw [htype]
    obtain ⟨code, es', hrun, hwrites⟩ := writes_return (agreeing_of_fit hfit
        (hp.funcKnown other.func hother.mem).2 (henv.trans hlayout.symm))
      (hsound.typed b hb).known (hsound.typed b hb).term (hother.numbered b hb) hret
      (hp.funcKnown other.func hother.mem).1.results es
    rw [hresults, hlayout] at hwrites
    refine ⟨code, es', hrun, fun s header below room above others rest' answers hs hroom hc hlen =>
      ?_⟩
    have hs₀ : Stacked other s header
        ((below ++ bc.frameWords next locals kept) ++ room ++ [id]) above := by
      simp only [List.append_assoc] at hs ⊢
      exact hs
    obtain ⟨s', hmeaning, hs', hanswers⟩ := hwrites s header _ room above others rest' answers id hs₀
      hroom hc hlen
    refine ⟨s', hmeaning, ?_, hpops hanswers⟩
    simp only [List.append_assoc] at hs' ⊢
    exact hs'
  · intro h hcallee t args answers s trap below room call above ht hanswers hroom hcall hs hcapacity
    obtain ⟨-, hparams, hresults⟩ := htakes.host h hcallee
    have hfits : FitsAll bc.layout sig.results (answers.map (.ofValue bc.layout)) := by
      rw [← hanswers]
      exact Structured.fitsAll_ofValue bc.layout answers
    have hlimit := bc.stackWords.toNat_lt
    have hsize := hs.size
    rw [LaneStack.capacity, hsize] at hcapacity
    have hs₀ : s.Holds trap ((below ++ bc.frameWords next locals kept) ++ room ++ [id] ++ call)
        above := by
      simp only [List.append_assoc] at hs ⊢
      exact hs
    have hlt : ((below ++ bc.frameWords next locals kept) ++ room ++ [id] ++ call).length
        < 2 ^ 32 := by
      simp only [List.append_assoc] at hcapacity ⊢
      omega
    obtain ⟨s', hcomplete, hs'⟩ := HostTable.complete_writes (t := t) ⟨h, args⟩
      (hanswers.trans hresults.symm) (by rw [hparams]; exact htakes.known.params)
      (by rw [hresults]; exact htakes.known.results) (by rw [ht, hresults]; exact hroom) hcall hs₀
      hlt
    refine ⟨s', hcomplete, ?_, hpops hfits⟩
    rw [ht, hresults] at hs'
    simp only [List.append_assoc] at hs' ⊢
    exact hs'

theorem exitCode_transfer (bc : BlockContext) {t : Terminator} {callee : Callee}
    {sig : Signature} {next : Nat} (h : t.transfer? = some (callee, sig, next)) (stack : TypeStack) :
    exitCode bc stack t = transferCode bc stack sig.params.length sig.results next
        (bc.calleeNumber callee)
      ∧ next ∈ t.successors := by
  cases t with
  | call => cases h; exact ⟨rfl, List.mem_singleton.mpr rfl⟩
  | host => cases h; exact ⟨rfl, List.mem_singleton.mpr rfl⟩
  | goto => cases h
  | branch => cases h
  | switch => cases h
  | ret => cases h
  | trap => cases h

theorem calleeId_eq {t : Terminator} {callee : Callee} {sig : Signature} {next : Nat}
    (h : t.transfer? = some (callee, sig, next)) (hids : Numbered bc t) :
    bc.calleeId callee = .ok (bc.calleeNumber callee) := by
  cases t with
  | call => cases h; exact eq_ok_of_isOk (hids.callee _ _ _ _ rfl)
  | host => cases h; rfl
  | goto => cases h
  | branch => cases h
  | switch => cases h
  | ret => cases h
  | trap => cases h

theorem transfers_code (hp : p.Formed) (hg : CallGraph.build p = .ok g)
    (henv : env.exe.layout = bc.layout) (hagree : Agreeing bc env) {b : Block} {callee : Callee}
    {sig : Signature} {next : Nat} (hstackKnown : AllKnown b.stack)
    (hb : b.term.Typed p bc.frames.machine b.stack) (hids : Numbered bc b.term)
    (hterm : b.term.transfer? = some (callee, sig, next)) :
    Transfers p g bc env b callee sig next := by
  obtain ⟨rest, hstack, htakes, hnext⟩ := hb.of_transfer hterm
  refine ⟨_, _, eq_ok_of_isOk (hids.blocks next _ hnext), calleeId_eq hterm hids, fun es => ?_⟩
  obtain ⟨_, es', hrun, -, -, rfl, hsaves⟩ :=
    emitTerminator_declares hagree.frames hstackKnown hb hids es hagree.locals
  obtain ⟨hcode, hsuccessor⟩ := exitCode_transfer bc hterm b.stack
  obtain ⟨hpushWords, hsavedWords⟩ := Frames.pushWords_transfer bc.frames hterm
  rw [hagree.framesLayout, ← hagree.layout] at hpushWords hsavedWords
  refine ⟨_, es', hrun, fun s header below gap above locals kept args hs hgap hc hargs => ?_⟩
  have hslots := hc.operands
  have hfits := hc.operandsFit
  rw [hstack] at hslots hfits
  obtain ⟨as, bs, heq, hkept, hargs'⟩ := hfits.of_append
  obtain ⟨rfl, rfl⟩ := List.append_inj' heq (by rw [hargs, hargs'.length_eq])
  have hlimit := bc.stackWords.toNat_lt
  have hcapacity := hs.capacity
  rw [List.length_append] at hcapacity
  have hsavedLen := length_frameWords_kept hagree hnext hc.localsFit hkept
  rw [Payload.frameWords] at hpushWords
  have hsaved : (bc.frameWords next locals kept).length = bc.frames.saved b := by omega
  have hpush := runsPush_transferCode hagree callee htakes.known hnext hc.locals hslots hargs.symm
    hs.framed hs.size (fun i hi => hc.present _ (hsaves next hsuccessor i hi))
    (by rw [Payload.frameWords, hagree.framesLayout, ← hagree.layout]; omega)
  rw [← hsavedWords, ← hsaved, hs.wordsFrom (by omega)] at hpush
  have hroom : ((gap.drop (bc.frameWords next locals kept).length).take
      (bc.layout.sizeOf sig.results)).length = bc.layout.sizeOf sig.results := by
    rw [List.length_take, List.length_drop]
    omega
  have hlen : (bc.frameWords next locals kept
      ++ (gap.drop (bc.frameWords next locals kept).length).take (bc.layout.sizeOf sig.results)
      ++ [(bc.numberOf next).val]
      ++ (storedAll bc.layout sig.params args ++ [(bc.calleeNumber callee).val])).length
      = gap.length := by
    have hstored : (storedAll bc.layout sig.params args).length = bc.layout.sizeOf sig.params :=
      Execution.length_storedAll hargs'.length_eq
    simp only [List.length_append, hroom, hstored, List.length_singleton]
    omega
  obtain ⟨s', hmeaning, hs'⟩ := hs.push hlen hpush
  rw [hcode, hstack]
  exact ⟨_, _, _, s', hsaved, rfl, hroom, rfl, hlen.trans hgap, hmeaning, hs',
    resumes_transfer hp hg henv hagree htakes hnext hc.localsFit hkept _⟩

/-- The code of a machine agrees with its frames, and `Frames.pushWords` with its code. -/
structure FramesAgree (p : Program) (g : CallGraph) (bc : BlockContext) (env : Env) : Prop where
  edges : ∀ b ∈ bc.frames.machine.blocks, ∀ e ∈ b.term.edges, Passes bc env b e
    ∧ (bc.frames.payload e.target).frameWords ≤ bc.frames.pushWords b
  transfers : ∀ b ∈ bc.frames.machine.blocks, ∀ callee sig next,
    b.term.transfer? = some (callee, sig, next) → Transfers p g bc env b callee sig next
  capacity : ∀ b ∈ bc.frames.machine.blocks, bc.frames.pushWords b ≤ bc.stackWords.toNat

end Laid

end Emit

open Emit in
/-- In the machine of every checked function, with any frames that `Frames.build` accepts, what is
pushed is what is popped. -/
theorem Frames.code_agrees {p : Program} {g : CallGraph} {source : Binary.Module}
    (hread : Program.ofModule source = .ok p) (hg : CallGraph.build p = .ok g) {bc : BlockContext}
    (hbc : bc.Laid p g) {env : Env} (henv : env.exe.layout = bc.layout) :
    FramesAgree p g bc env := by
  have hp := Program.formed_of_ofModule hread
  obtain ⟨⟨hosts, hsound⟩, hfit⟩ := hbc.sound hp hg
  have hagree := agreeing_of_fit hfit (hp.funcKnown bc.func hbc.mem).2 henv
  refine ⟨fun b hb e he => ⟨?_, Frames.frameWords_le he⟩, fun b hb callee sig next hterm => ?_,
    hfit.pushes⟩
  · have htyped := (hsound.typed b hb).term.edge_typed he
    exact passes_edge hagree (known_leaving (hsound.typed b hb).known) htyped ((hbc.numbered b hb).blocks _ _ htyped.target)
  · exact transfers_code hp hg henv hagree (hsound.typed b hb).known (hsound.typed b hb).term (hbc.numbered b hb) hterm

/-! The machine of the function with a loop, a table branch and recursion, laid out for a stack of
64 words. -/

def wanderingFrames : Except Abort Frames := do
  let (m, _) ← Machine.split wanderingProgram wanderingGraph.analyze { layout := {} }
    wanderingFunction
  Frames.build m {} 64

open Emit in
def wanderingContext : BlockContext :=
  let frames := wanderingFrames.toOption.getD default
  { program := wanderingProgram
    analysis := wanderingGraph.analyze
    layout := {}
    globals := default
    stackWords := 64
    frames
    ids := [(0, (List.range frames.machine.blocks.length).map .ofNat)] }

open Emit in
theorem laid_wandering : wanderingContext.Laid wanderingProgram wanderingGraph := by
  have hhosts := HostTable.Sound.empty wanderingProgram {}
  obtain ⟨-, m, hosts', -, hsplit, hfunc, -⟩ := Machine.split_checked
    (Program.formed_of_ofModule read_wandering) build_wandering mem_wandering check_wandering hhosts
  have hframes : wanderingFrames = .ok wanderingContext.frames :=
    eq_ok_getD (by decide +kernel) default
  have hbuilt : Frames.build m {} 64 = .ok wanderingContext.frames := by
    rw [← hframes, wanderingFrames, hsplit]
    rfl
  have hmachine : wanderingContext.frames.machine = m := by
    obtain ⟨live, -, hbuilt⟩ := Program.bind_eq_ok hbuilt
    obtain ⟨payloads, -, hbuilt⟩ := Program.bind_eq_ok hbuilt
    obtain ⟨-, -, hbuilt⟩ := Program.bind_eq_ok hbuilt
    rw [← Except.ok.inj hbuilt]
  have hfunc' : wanderingContext.func = wanderingFunction := by
    rw [BlockContext.func, hmachine, hfunc]
  have hindex : wanderingContext.func.index = 0 := by
    rw [hfunc']
    decide +kernel
  have hcallees : ∀ b ∈ wanderingContext.frames.machine.blocks,
      b.term.transfer?.all (fun x => (wanderingContext.calleeId x.1).isOk) = true := by
    decide +kernel
  refine ⟨hfunc' ▸ mem_wandering, hfunc' ▸ check_wandering, ⟨_, hosts', hhosts, ?_⟩, ?_,
    fun b hb => ⟨fun i types hi => ?_, fun fn args results next hterm => ?_⟩⟩
  · rw [hfunc', hmachine]
    exact hsplit
  · rw [hmachine]
    exact hbuilt
  · obtain ⟨b', hb', -⟩ := Option.map_eq_some_iff.mp hi
    have hlt := (List.getElem?_eq_some_iff.mp hb').1
    have hget : ((List.range wanderingContext.frames.machine.blocks.length).map BlockId.ofNat)[i]?
        = some (.ofNat i) := by
      rw [List.getElem?_map, List.getElem?_range hlt]
      rfl
    rw [BlockContext.blockId, hindex]
    change (entry ((List.range wanderingContext.frames.machine.blocks.length).map
      BlockId.ofNat) i).isOk = true
    rw [entry, hget]
    rfl
  · have hall := hcallees b hb
    rw [hterm] at hall
    exact hall

/-- The theorem at this machine. -/
theorem Frames.code_agrees_wandering :
    Program.ofModule wandering = .ok wanderingProgram
      ∧ CallGraph.build wanderingProgram = .ok wanderingGraph
      ∧ wanderingContext.Laid wanderingProgram wanderingGraph
      ∧ Emit.FramesAgree wanderingProgram wanderingGraph wanderingContext
        { exe := { (default : Compile.Executable) with layout := {} } } :=
  ⟨read_wandering, build_wandering, laid_wandering,
    Frames.code_agrees read_wandering build_wandering laid_wandering rfl⟩

end WasmShader
