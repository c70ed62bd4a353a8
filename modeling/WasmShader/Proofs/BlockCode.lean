import WasmShader.Proofs.BlockForm
import WasmShader.Proofs.DirectForm
import WasmShader.Proofs.FrameCode

/-!
# Code of blocks

The function of a typed block does what the evaluation of the block does. Its frame is popped
into the variables that the block's code uses; behind that code the terminator's pushes what
the way out of the block says, or writes the results into the room that the caller left.

The words of the frame are gone then, and no word below it has changed, apart from the room
for the results. A push that does not fit the stack traps instead, and nothing is written.
-/

namespace WasmShader

open Execution (Datum Env FitsAll meaning callMeaning storedAll wordsFrom)
open Structured (Oracle Store Shared Exit)

/-! ## Payloads -/

/-- The payload of a block: locals of the function, each once, and the operands on entry. -/
structure Payload.Formed (l : Layout) (f : Function) (operands : List ValueType) (pl : Payload) :
    Prop where
  nodup : pl.locals.Nodup
  types : ∃ saved, List.Forall₂ (fun i t => f.locals[i]? = some t) pl.locals saved
    ∧ pl.types = saved ++ operands
  known : AllKnown pl.types
  offsets : pl.offsets = l.offsetsFrom 0 pl.types
  words : pl.words = l.sizeOf pl.types

theorem Payload.Formed.operands_known {l : Layout} {f : Function} {operands : List ValueType}
    {pl : Payload} (h : pl.Formed l f operands) : AllKnown operands := by
  obtain ⟨saved, -, htypes⟩ := h.types
  exact (htypes ▸ h.known).of_append.2

/-- Every block of the machine stands at its number and has a payload. -/
structure Frames.Formed (fr : Frames) : Prop where
  length : fr.payloads.length = fr.machine.blocks.length
  index : ∀ i (b : Block), fr.machine.blocks[i]? = some b → b.index = i
  payload : ∀ i (b : Block), fr.machine.blocks[i]? = some b →
    (fr.payload i).Formed fr.layout fr.machine.func b.entry

theorem Frames.Formed.payload_of_entry {fr : Frames} (h : fr.Formed) {i : Nat}
    {operands : List ValueType} (hentry : fr.machine.entryTypes? i = some operands) :
    (fr.payload i).Formed fr.layout fr.machine.func operands := by
  obtain ⟨b, hb, rfl⟩ := Option.map_eq_some_iff.mp hentry
  exact h.payload i b hb

/-- Looking for the payload of a block of the machine does not crash. -/
theorem Frames.Formed.entry_payload {fr : Frames} (h : fr.Formed) {i : Nat}
    (hi : i < fr.machine.blocks.length) : entry fr.payloads i = .ok (fr.payload i) := by
  rw [entry, Frames.payload, List.getD_eq_getElem?_getD,
    List.getElem?_eq_getElem (by rw [h.length]; exact hi)]
  rfl

/-- The locals that a payload saves. -/
def Payload.saved (pl : Payload) (locals : List Datum) : List Datum :=
  pl.locals.map fun i => locals.getD i default

namespace Emit

variable {σ : Type}

/-! ## Emission of pushes -/

/-- The variables of the locals that a payload saves. -/
def savedVars (pl : Payload) : List (String × ValueType) := (pl.locals.map localName).zip pl.types

/-- The variables of the operands from a place on. -/
def slotVars (start : Nat) (types : List ValueType) : List (String × ValueType) :=
  (slotNames start types).zip types

theorem types_slotVars (start : Nat) (types : List ValueType) :
    (slotVars start types).map (·.2) = types :=
  List.map_snd_zip (Nat.le_of_eq (length_slotNames start types).symm)

theorem savedVars_eq {pl : Payload} {saved operands : List ValueType}
    (htypes : pl.types = saved ++ operands) (hlen : pl.locals.length = saved.length) :
    savedVars pl = (pl.locals.map localName).zip saved := by
  have hnames : (pl.locals.map localName).length = saved.length := by rw [List.length_map, hlen]
  have hzip := @List.zip_append _ _ (pl.locals.map localName) [] saved operands hnames
  rw [List.append_nil, List.zip_nil_left, List.append_nil] at hzip
  rw [savedVars, htypes, hzip]

section Emission

variable {bc : BlockContext} {es : State}

theorem pushVars_declares {is : List Nat} {saved : List ValueType}
    (h : List.Forall₂ (fun i t => bc.func.locals[i]? = some t) is saved) (p : Push) (es : State) :
    Declares bc.toContext bc.func (is.foldlM (fun p i => do
        let name ← Emitter.localVar bc.toContext bc.func i
        return p.value bc.layout (.var name) (← entry bc.func.locals i)) p) es fun p' es' =>
      p' = p.values bc.layout ((is.map localName).zip saved) ∧ ∀ i ∈ is, localName i ∈ es'.names := by
  induction h generalizing p es with
  | nil => exact .pure ⟨rfl, nofun⟩
  | @cons i t is saved ht _ ih =>
      rw [List.foldlM_cons]
      refine .bind (Q := fun p' es' => p' = p.value bc.layout (.var (localName i)) t
        ∧ localName i ∈ es'.names) ?_ ?_
      · refine .bind (localVar_declares ht es) ?_
        rintro _ es₁ - ⟨rfl, hname⟩
        refine .bind (entry_declares ht es₁) ?_
        rintro _ _ - ⟨rfl, rfl⟩
        exact .pure ⟨rfl, hname⟩
      · rintro _ es₁ - ⟨rfl, hname⟩
        refine (ih _ es₁).mono ?_
        rintro _ es₂ hgrows ⟨rfl, hnames⟩
        refine ⟨rfl, fun j hj => ?_⟩
        rcases List.mem_cons.mp hj with rfl | hj
        · exact hgrows.names hname
        · exact hnames j hj

theorem pushLocals_declares {l : Layout} {pl : Payload} {operands : List ValueType}
    (hpl : pl.Formed l bc.func operands) (p : Push) (es : State) :
    Declares bc.toContext bc.func (bc.pushLocals p pl) es fun p' es' =>
      p' = p.values bc.layout (savedVars pl) ∧ ∀ i ∈ pl.locals, localName i ∈ es'.names := by
  obtain ⟨saved, hsaved, htypes⟩ := hpl.types
  rw [savedVars_eq htypes hsaved.length_eq]
  exact pushVars_declares hsaved p es

theorem pushSlots_declares (p : Push) (start : Nat) {types : List ValueType} (hknown : AllKnown types)
    (es : State) :
    Declares bc.toContext bc.func (bc.pushSlots p start types) es fun p' _ =>
      p' = p.values bc.layout (slotVars start types) := by
  induction types generalizing p start es with
  | nil => exact .pure rfl
  | cons t types ih =>
      obtain ⟨ht, hts⟩ := List.forall_mem_cons.mp hknown
      rw [BlockContext.pushSlots]
      refine .bind (slot_declares ht start es) ?_
      rintro _ es₁ - ⟨rfl, -⟩
      exact ih _ _ hts es₁

/-- The payload of a block that is entered with some operands. -/
theorem payload_declares (hframes : bc.frames.Formed) {i : Nat} {operands : List ValueType}
    (hi : bc.frames.machine.entryTypes? i = some operands) (es : State) :
    Declares bc.toContext bc.func (entry bc.frames.payloads i : Emitter Payload) es
      fun pl es' => bc.frames.payload i = pl ∧ es = es' := by
  obtain ⟨b, hb, -⟩ := Option.map_eq_some_iff.mp hi
  exact lift_declares (hframes.entry_payload (List.getElem?_eq_some_iff.mp hb).1) es

/-! ## Emission of terminators -/

/-- The number of a block of the machine. -/
def BlockContext.numberOf (bc : BlockContext) (block : Nat) : BlockId :=
  (bc.blockId block).toOption.getD default

/-- The number of the block that a callee starts with. -/
def BlockContext.calleeNumber (bc : BlockContext) : Callee → BlockId
  | .func fn => (bc.ids.get fn 0).toOption.getD default
  | .host h => h.id

theorem eq_ok_of_isOk {ε α : Type} [Inhabited α] {x : Except ε α} (h : x.isOk = true) :
    x = .ok (x.toOption.getD default) := eq_ok_getD h default

/-- The blocks that a block leads to have numbers. -/
structure Numbered (bc : BlockContext) (t : Terminator) : Prop where
  blocks : ∀ i types, bc.frames.machine.entryTypes? i = some types → (bc.blockId i).isOk = true
  callee : ∀ fn args results next, t = .call fn args results next → (bc.ids.get fn 0).isOk = true

/-- The variables that the frame of the target of an edge is made of. -/
def edgeVars (bc : BlockContext) (e : Edge) (stack : TypeStack) : List (String × ValueType) :=
  savedVars (bc.frames.payload e.target)
    ++ (slotVars 0 (stack.take e.keep) ++ slotVars (stack.length - e.carry) (stack.top e.carry))

/-- The code of an edge. -/
def edgeCode (bc : BlockContext) (e : Edge) (stack : TypeStack) : List Shader.Stmt :=
  ((Push.values bc.layout {} (edgeVars bc e stack)).blockId (bc.numberOf e.target)).finish
    bc.stackWords

/-- The locals that the frame of a block saves have variables. -/
def Saves (bc : BlockContext) (target : Nat) (es : State) : Prop :=
  ∀ i ∈ (bc.frames.payload target).locals, localName i ∈ es.names

theorem Saves.mono {target : Nat} {es' : State} {ctx : Context} {f : Function}
    (h : Saves bc target es) (hgrows : es.Grows ctx f es') : Saves bc target es' :=
  fun i hi => hgrows.names (h i hi)

theorem emitEdge_declares (hframes : bc.frames.Formed)
    {stack : TypeStack} (hknown : AllKnown stack) {e : Edge} (he : e.Typed bc.frames.machine stack)
    (hid : (bc.blockId e.target).isOk = true) (es : State) :
    Declares bc.toContext bc.func (bc.emitEdge e stack) es fun code es' =>
      code = edgeCode bc e stack ∧ Saves bc e.target es' := by
  have hkeep := he.keep
  have hcarry := he.carry
  have hpl : Payload.Formed _ bc.func _ _ := hframes.payload_of_entry he.target
  unfold BlockContext.emitEdge
  have hguard : (decide (stack.length < e.keep) || decide (stack.length < e.carry)) = false := by
    rw [Bool.or_eq_false_iff, decide_eq_false_iff_not, decide_eq_false_iff_not]
    exact ⟨by omega, by omega⟩
  rw [hguard]
  simp only [Bool.false_eq_true, if_false]
  refine .bind (payload_declares hframes he.target es) ?_
  rintro _ _ - ⟨rfl, rfl⟩
  refine .bind (pushLocals_declares hpl {} es) ?_
  rintro _ es₁ - ⟨rfl, hnames⟩
  refine .bind (pushSlots_declares _ 0 (hknown.take e.keep) es₁) ?_
  rintro _ es₂ hgrows₂ rfl
  refine .bind (pushSlots_declares _ (stack.length - e.carry) (hknown.drop _) es₂) ?_
  rintro _ es₃ hgrows₃ rfl
  refine .bind (lift_declares (eq_ok_of_isOk hid) es₃) ?_
  rintro _ _ - ⟨rfl, rfl⟩
  refine .pure ⟨?_, fun i hi => hgrows₃.names (hgrows₂.names (hnames i hi))⟩
  rw [edgeCode, edgeVars, Push.values_append, Push.values_append]
  rfl

/-- The cases of a switch. -/
def edgeCases (bc : BlockContext) (stack : TypeStack) (i : Nat) (edges : List Edge) :
    List Shader.Case :=
  numberedCases i (edges.map (edgeCode bc · stack))

theorem emitEdges_declares (hframes : bc.frames.Formed)
    {stack : TypeStack} (hknown : AllKnown stack) {edges : List Edge} (hedges : ∀ e ∈ edges, e.Typed bc.frames.machine stack)
    (hids : ∀ e ∈ edges, (bc.blockId e.target).isOk = true) (i : Nat) (es : State) :
    Declares bc.toContext bc.func (bc.emitEdges stack i edges) es fun cases es' =>
      cases = edgeCases bc stack i edges ∧ ∀ e ∈ edges, Saves bc e.target es' := by
  induction edges generalizing i es with
  | nil => exact .pure ⟨rfl, nofun⟩
  | cons e edges ih =>
      rw [BlockContext.emitEdges]
      refine .bind (emitEdge_declares hframes hknown (hedges e (List.mem_cons_self ..))
        (hids e (List.mem_cons_self ..)) es) ?_
      rintro _ es₁ - ⟨rfl, hsaves⟩
      refine .bind (ih (fun e' he' => hedges e' (List.mem_cons_of_mem _ he'))
        (fun e' he' => hids e' (List.mem_cons_of_mem _ he')) (i + 1) es₁) ?_
      rintro _ es₂ hgrows ⟨rfl, hrest⟩
      refine .pure ⟨rfl, fun e' he' => ?_⟩
      rcases List.mem_cons.mp he' with rfl | he'
      · exact hsaves.mono hgrows
      · exact hrest e' he'

/-- The code of a transfer that takes the top `n` operands. -/
def transferCode (bc : BlockContext) (stack : TypeStack) (n : Nat) (results : List ValueType)
    (next : Nat) (callee : BlockId) : List Shader.Stmt :=
  let saved := Push.values bc.layout {}
    (savedVars (bc.frames.payload next) ++ slotVars 0 (stack.below n))
  let frame := (saved.reserve (bc.layout.sizeOf results)).blockId (bc.numberOf next)
  ((frame.values bc.layout (slotVars (stack.length - n) (stack.top n))).blockId callee).finish
    bc.stackWords

theorem emitTransfer_declares (hframes : bc.frames.Formed) {stack : TypeStack}
    (hknown : AllKnown stack) {n : Nat} (hn : n ≤ stack.length)
    {results operands : List ValueType} (hresults : AllKnown results) {next : Nat}
    (hnext : bc.frames.machine.entryTypes? next = some operands)
    (hid : (bc.blockId next).isOk = true) (callee : BlockId) (es : State) :
    Declares bc.toContext bc.func (bc.emitTransfer stack n results next callee) es fun code es' =>
      code = transferCode bc stack n results next callee ∧ Saves bc next es' := by
  have hpl : Payload.Formed _ bc.func _ _ := hframes.payload_of_entry hnext
  unfold BlockContext.emitTransfer
  rw [if_neg (by omega)]
  refine .bind (payload_declares hframes hnext es) ?_
  rintro _ _ - ⟨rfl, rfl⟩
  refine .bind (pushLocals_declares hpl {} es) ?_
  rintro _ es₁ - ⟨rfl, hnames⟩
  refine .bind (pushSlots_declares _ 0 (hknown.take _) es₁) ?_
  rintro _ es₂ hgrows₂ rfl
  refine .bind (lift_declares (Layout.size_eq_ok bc.layout hresults) es₂) ?_
  rintro _ _ - ⟨rfl, rfl⟩
  refine .bind (lift_declares (eq_ok_of_isOk hid) es₂) ?_
  rintro _ _ - ⟨rfl, rfl⟩
  refine .bind (pushSlots_declares _ (stack.length - n) (hknown.drop _) es₂) ?_
  rintro _ es₃ hgrows₃ rfl
  refine .pure ⟨?_, fun i hi => hgrows₃.names (hgrows₂.names (hnames i hi))⟩
  rw [transferCode, Push.values_append]
  rfl

/-- The code that writes results into the room for them. -/
def resultCode (l : Layout) (room : Nat) : (start off : Nat) → List ValueType → List Shader.Stmt
  | _, _, [] => []
  | start, off, t :: ts =>
    storeValue l stackBuffer (BlockContext.resultWord room off) (.var (slotName start t)) t
      ++ resultCode l room (start + 1) (off + l.words t) ts

theorem emitResults_declares (room start off : Nat) {types : List ValueType}
    (hknown : AllKnown types) (es : State) :
    Declares bc.toContext bc.func (bc.emitResults room start off types) es fun code _ =>
      code = resultCode bc.layout room start off types := by
  induction types generalizing start off es with
  | nil => exact .pure rfl
  | cons t types ih =>
      obtain ⟨ht, hts⟩ := List.forall_mem_cons.mp hknown
      rw [BlockContext.emitResults]
      refine .bind (slot_declares ht start es) ?_
      rintro _ es₁ - ⟨rfl, -⟩
      refine .bind (ih _ _ hts es₁) ?_
      rintro _ es₂ - rfl
      exact .pure rfl

/-- The code of a terminator behind operands of the given types. -/
def exitCode (bc : BlockContext) (stack : TypeStack) : Terminator → List Shader.Stmt
  | .goto e => edgeCode bc e stack
  | .branch taken notTaken =>
    let cond : Shader.Expr := .var (slotName (stack.length - 1) .i32)
    [.ifElse cond.isNonzero (edgeCode bc taken (stack.below 1))
      (edgeCode bc notTaken (stack.below 1))]
  | .switch cases fallback =>
    [.switch (.var (slotName (stack.length - 1) .i32)) (edgeCases bc (stack.below 1) 0 cases)
      (edgeCode bc fallback (stack.below 1))]
  | .call fn args results next =>
    transferCode bc stack args.length results next (bc.calleeNumber (.func fn))
  | .host h args results next => transferCode bc stack args.length results next h.id
  | .ret results =>
    resultCode bc.layout (bc.layout.sizeOf results) (stack.length - results.length) 0 results
  | .trap code => trapStmts code

theorem below_one (rest : TypeStack) (t : ValueType) : (rest ++ [t] : TypeStack).below 1 = rest :=
  stack_below_append rest rfl

theorem length_sub_one (rest : TypeStack) (t : ValueType) :
    (rest ++ [t]).length - 1 = rest.length := by
  rw [List.length_append, List.length_singleton, Nat.add_sub_cancel]

theorem decision_declares (rest : TypeStack) {t : ValueType} (ht : t.isKnown = true) (es : State) :
    Declares bc.toContext bc.func (bc.decision (rest ++ [t])) es fun r _ =>
      r = (.var (slotName rest.length t), rest) := by
  rw [BlockContext.decision, List.getLast?_concat, length_sub_one]
  refine .bind (slot_declares ht _ es) ?_
  rintro _ es₁ - ⟨rfl, -⟩
  exact .pure (by rw [below_one])

theorem emitTerminator_declares (hframes : bc.frames.Formed) {b : Block} {p : Program}
    (hknown : AllKnown b.stack) (hterm : b.term.Typed p bc.frames.machine b.stack)
    (hids : Numbered bc b.term) (es : State) :
    Declares bc.toContext bc.func (bc.emitTerminator b) es fun code es' =>
      code = exitCode bc b.stack b.term ∧ ∀ target ∈ b.term.successors, Saves bc target es' := by
  have hedge {stack : TypeStack} {e : Edge} (he : e.Typed bc.frames.machine stack) :=
    hids.blocks _ _ he.target
  unfold BlockContext.emitTerminator
  generalize b.stack = stack at hterm hknown
  generalize b.term = term at hterm hids
  cases hterm with
  | @goto _ e he =>
      refine (emitEdge_declares hframes hknown he (hedge he) es).mono ?_
      rintro _ es₁ - ⟨rfl, hsaves⟩
      refine ⟨rfl, fun target ht => ?_⟩
      simp only [Terminator.successors, Terminator.edges, Terminator.next?, List.map_cons,
        List.map_nil, Option.toList_none, List.append_nil, List.mem_singleton] at ht
      exact ht ▸ hsaves
  | @branch rest taken notTaken ht hf =>
      have hrest := hknown.of_append.1
      refine .bind (decision_declares rest rfl es) ?_
      rintro _ es₁ - rfl
      refine .bind (emitEdge_declares hframes hrest ht (hedge ht) es₁) ?_
      rintro _ es₂ - ⟨rfl, hsaves₂⟩
      refine .bind (emitEdge_declares hframes hrest hf (hedge hf) es₂) ?_
      rintro _ es₃ hgrows₃ ⟨rfl, hsaves₃⟩
      refine .pure ⟨by rw [exitCode, below_one, length_sub_one], fun target ht => ?_⟩
      simp only [Terminator.successors, Terminator.edges, Terminator.next?, List.map_cons,
        List.map_nil, Option.toList_none, List.append_nil, List.mem_cons, List.not_mem_nil,
        or_false] at ht
      rcases ht with rfl | rfl
      · exact hsaves₂.mono hgrows₃
      · exact hsaves₃
  | @switch rest cases fallback hcases hlast =>
      have hrest := hknown.of_append.1
      refine .bind (decision_declares rest rfl es) ?_
      rintro _ es₁ - rfl
      refine .bind (emitEdge_declares hframes hrest hlast (hedge hlast) es₁) ?_
      rintro _ es₂ - ⟨rfl, hsaves₂⟩
      refine .bind (emitEdges_declares hframes hrest hcases (fun e he => hedge (hcases e he)) 0 es₂) ?_
      rintro _ es₃ hgrows₃ ⟨rfl, hsaves₃⟩
      refine .pure ⟨by rw [exitCode, below_one, length_sub_one], fun target ht => ?_⟩
      simp only [Terminator.successors, Terminator.edges, Terminator.next?, List.map_append,
        List.map_cons, List.map_nil, Option.toList_none, List.append_nil, List.mem_append,
        List.mem_map, List.mem_singleton] at ht
      rcases ht with ⟨e, he, rfl⟩ | rfl
      · exact hsaves₃ e he
      · exact hsaves₂.mono hgrows₃
  | @call rest callee sig next htakes hnext =>
      have hcallee := eq_ok_of_isOk (hids.callee callee _ _ _ rfl)
      refine .bind (lift_declares hcallee es) ?_
      rintro _ _ - ⟨rfl, rfl⟩
      refine (emitTransfer_declares hframes hknown (by rw [List.length_append]; omega)
        htakes.known.results hnext (hids.blocks _ _ hnext) _ es).mono ?_
      rintro _ es₁ - ⟨rfl, hsaves⟩
      refine ⟨rfl, fun target ht => ?_⟩
      rw [List.mem_singleton.mp ht]
      exact hsaves
  | @host rest h sig next htakes hnext =>
      refine (emitTransfer_declares hframes hknown (by rw [List.length_append]; omega)
        htakes.known.results hnext (hids.blocks _ _ hnext) _ es).mono ?_
      rintro _ es₁ - ⟨rfl, hsaves⟩
      refine ⟨rfl, fun target ht => ?_⟩
      rw [List.mem_singleton.mp ht]
      exact hsaves
  | @ret rest =>
      have hlen : ¬(rest ++ bc.frames.machine.func.type.results).length
          < bc.frames.machine.func.type.results.length := by
        rw [List.length_append]; omega
      change Declares _ _ (if _ < bc.frames.machine.func.type.results.length then _ else _) es _
      rw [if_neg hlen]
      have hresults := hknown.of_append.2
      refine .bind (lift_declares (Layout.size_eq_ok bc.layout hresults) es) ?_
      rintro _ _ - ⟨rfl, rfl⟩
      refine (emitResults_declares _ _ _ hresults es).mono ?_
      rintro _ es₁ - rfl
      exact ⟨rfl, nofun⟩
  | trap => exact .pure ⟨rfl, nofun⟩

end Emission

/-! ## Runs of pushes -/

/-- Types of values that are still to come have no words. -/
theorem storedAll_left {l : Layout} {ts us : List ValueType} {ds : List Datum}
    (h : ts.length = ds.length) : storedAll l (ts ++ us) ds = storedAll l ts ds := by
  have happ := @Execution.storedAll_append l ts us ds [] h
  rw [List.append_nil] at happ
  rw [happ]
  cases us <;> exact List.append_nil _

/-- The words of a frame that has saved locals and operands; operands that are still to come
have none. -/
def BlockContext.frameWords (bc : BlockContext) (target : Nat) (locals stack : List Datum) :
    List UInt32 :=
  storedAll bc.layout (bc.frames.payload target).types
    ((bc.frames.payload target).saved locals ++ stack)

/-- The words that the way out of a block puts on the stack. -/
inductive Pushes (bc : BlockContext) (locals : List Datum) : Exit → List UInt32 → Prop
  | goto (target : Nat) (stack : List Datum) : Pushes bc locals (.goto target stack)
      (bc.frameWords target locals stack ++ [(bc.numberOf target).val])
  | transfer (callee : Callee) (sig : Signature) (next : Nat) (rest args : List Datum)
      {room : List UInt32} : room.length = bc.layout.sizeOf sig.results →
      Pushes bc locals (.transfer callee sig next rest args)
        (bc.frameWords next locals rest ++ room ++ [(bc.numberOf next).val]
          ++ (storedAll bc.layout sig.params args ++ [(bc.calleeNumber callee).val]))

/-- The code puts the words on top of the `n` in use if they fit, and traps if not. -/
structure RunsPush (env : Env) (limit : UInt32) (s : Execution.State) (n : Nat)
    (code : List Shader.Stmt) (ws : List UInt32) : Prop where
  fits : n + ws.length ≤ limit.toNat → ∃ vars, meaning env code s = some (.ok .next,
      { s.withWords .stack (LaneStack.writeAt (s.lane.words .stack) (LaneStack.headerWords + n) ws)
        with vars })
    ∧ Framed { s.withWords .stack
        (LaneStack.writeAt (s.lane.words .stack) (LaneStack.headerWords + n) ws) with vars }
        (n + ws.length)
  overflow : limit.toNat < n + ws.length →
    meaning env code s = some (.error (.trap .stackOverflow), s.trapped .stackOverflow)

section Run

variable {bc : BlockContext} {env : Env} {s : Execution.State} {n : Nat} {limit : UInt32}

theorem runsPush_of_writes (hs : Framed s n) {p : Push} {ws : List UInt32}
    (hlen : ws.length = p.size) (hn : n + p.size < 2 ^ 32)
    (h : n + p.size ≤ limit.toNat → p.Writes env s n ws) :
    RunsPush env limit s n (p.finish limit) ws := by
  refine ⟨fun hfit => ?_, fun hover => ?_⟩
  · rw [hlen] at hfit
    obtain ⟨vars, hrun, hframed, -⟩ := (h hfit).finish hs hfit
    rw [hlen]
    exact ⟨vars, hrun, hframed⟩
  · rw [hlen] at hover
    exact meaning_finish_overflow hs hover hn

/-- A frame of values, pushed. -/
theorem runsPush_values (env : Env) (hs : Framed s n)
    (hsize : (s.lane.words .stack).size = LaneStack.headerWords + limit.toNat)
    {xs : List (String × ValueType)} {data : List Datum} (hknown : ∀ x ∈ xs, x.2.isKnown = true)
    (hdata : Provides s xs data) (id : BlockId)
    (hn : n + (env.exe.layout.sizeOf (xs.map (·.2)) + 1) < 2 ^ 32) :
    RunsPush env limit s n (((Push.values env.exe.layout {} xs).blockId id).finish limit)
      (storedAll env.exe.layout (xs.map (·.2)) data ++ [id.val]) := by
  have hsum : ((Push.values env.exe.layout {} xs).blockId id).size
      = env.exe.layout.sizeOf (xs.map (·.2)) + 1 := by
    change (Push.values env.exe.layout {} xs).size + 1 = _
    rw [Push.size_values, Nat.zero_add]
  refine runsPush_of_writes hs ?_ (by rw [hsum]; exact hn) fun hfit => ?_
  · rw [hsum, List.length_append, Execution.length_storedAll
      (by rw [List.length_map]; exact hdata.length_eq), List.length_singleton]
  · rw [hsum] at hfit
    have hvalues := (Push.Writes.empty env s n).values hs hknown hdata (by
      change LaneStack.headerWords + n + 0 + _ ≤ _
      omega)
    refine hvalues.blockId hs ?_ id
    rw [Push.size_values]
    change LaneStack.headerWords + n + (0 + _) + 1 ≤ _
    omega

/-- A frame with room for results, and the frame of a callee on top of it, pushed. The room
keeps the words that are there. -/
theorem runsPush_transfer (env : Env) (hs : Framed s n)
    (hsize : (s.lane.words .stack).size = LaneStack.headerWords + limit.toNat)
    {xs ys : List (String × ValueType)} {saved args : List Datum} (results : List ValueType)
    (hxs : ∀ x ∈ xs, x.2.isKnown = true) (hys : ∀ x ∈ ys, x.2.isKnown = true)
    (hsaved : Provides s xs saved) (hargs : Provides s ys args) (next callee : BlockId)
    (hn : n + (env.exe.layout.sizeOf (xs.map (·.2)) + env.exe.layout.sizeOf results + 1
      + (env.exe.layout.sizeOf (ys.map (·.2)) + 1)) < 2 ^ 32) :
    RunsPush env limit s n
      ((((((Push.values env.exe.layout {} xs).reserve (env.exe.layout.sizeOf results)).blockId
        next).values env.exe.layout ys).blockId callee).finish limit)
      (storedAll env.exe.layout (xs.map (·.2)) saved
        ++ wordsFrom (s.lane.words .stack)
          (LaneStack.headerWords + n + env.exe.layout.sizeOf (xs.map (·.2)))
          (env.exe.layout.sizeOf results)
        ++ [next.val] ++ (storedAll env.exe.layout (ys.map (·.2)) args ++ [callee.val])) := by
  let first := ((Push.values env.exe.layout {} xs).reserve (env.exe.layout.sizeOf results)).blockId
    next
  have hvaluesSize : (Push.values env.exe.layout {} xs).size
      = env.exe.layout.sizeOf (xs.map (·.2)) := by
    rw [Push.size_values, Nat.zero_add]
  have hfirst : first.size = env.exe.layout.sizeOf (xs.map (·.2))
      + env.exe.layout.sizeOf results + 1 := by
    change (Push.values env.exe.layout {} xs).size + _ + 1 = _
    rw [hvaluesSize]
  have hsum : ((first.values env.exe.layout ys).blockId callee).size
      = env.exe.layout.sizeOf (xs.map (·.2)) + env.exe.layout.sizeOf results + 1
        + (env.exe.layout.sizeOf (ys.map (·.2)) + 1) := by
    change (first.values env.exe.layout ys).size + 1 = _
    rw [Push.size_values, hfirst, Nat.add_assoc]
  refine runsPush_of_writes hs ?_ (by rw [hsum]; exact hn) fun hfit => ?_
  · refine Eq.trans ?_ hsum.symm
    simp only [List.length_append, List.length_singleton, Execution.length_wordsFrom]
    rw [Execution.length_storedAll (by rw [List.length_map]; exact hsaved.length_eq),
      Execution.length_storedAll (by rw [List.length_map]; exact hargs.length_eq)]
  · rw [hsum] at hfit
    have hvalues := (Push.Writes.empty env s n).values hs hxs hsaved (by
      change LaneStack.headerWords + n + 0 + _ ≤ _
      omega)
    have hreserve := @Push.Writes.reserve _ _ _ _ _ hvalues
      (env.exe.layout.sizeOf results) (by rw [hvaluesSize]; omega)
    have hnext := hreserve.blockId hs (by
      change LaneStack.headerWords + n
        + ((Push.values env.exe.layout {} xs).size + env.exe.layout.sizeOf results) + 1 ≤ _
      rw [hvaluesSize]
      omega) next
    have hcallee := hnext.values hs hys hargs (by
      change LaneStack.headerWords + n + first.size + _ ≤ _
      rw [hfirst]
      omega)
    have hall := hcallee.blockId hs (by
      change LaneStack.headerWords + n + (first.values env.exe.layout ys).size + 1 ≤ _
      rw [Push.size_values, hfirst]
      omega) callee
    rw [List.nil_append, hvaluesSize, List.append_assoc] at hall
    exact hall

/-! ## Runs of terminators -/

theorem provides_slots {start : Nat} {types : List ValueType} {data : List Datum}
    (h : Stand s (slotNames start types) data) : Provides s (slotVars start types) data := by
  induction types generalizing start data with
  | nil => cases h; exact .nil
  | cons t types ih =>
      cases h with
      | cons hd hrest => exact .cons hd (ih hrest)

theorem provides_saved {locals : List Datum}
    (hlocals : ∀ i d, s.vars.lookup (localName i) = some d → locals[i]? = some d) {f : Function}
    {l : Layout} {operands : List ValueType} {pl : Payload} (hpl : pl.Formed l f operands)
    (hpresent : ∀ i ∈ pl.locals, (s.vars.lookup (localName i)).isSome = true) :
    Provides s (savedVars pl) (pl.saved locals) := by
  obtain ⟨saved, hsaved, htypes⟩ := hpl.types
  rw [savedVars_eq htypes hsaved.length_eq, Payload.saved]
  generalize pl.locals = is at hsaved hpresent
  clear htypes hpl
  induction hsaved with
  | nil => exact .nil
  | @cons i t is saved _ _ ih =>
      refine .cons ?_ (ih fun j hj => hpresent j (List.mem_cons_of_mem _ hj))
      obtain ⟨d, hd⟩ := Option.isSome_iff_exists.mp (hpresent i (List.mem_cons_self ..))
      change s.vars.lookup (localName i) = some (locals.getD i default)
      rw [hd, List.getD_eq_getElem?_getD, hlocals i d hd]
      rfl

theorem types_savedVars {f : Function} {operands saved : List ValueType} {pl : Payload}
    (hsaved : List.Forall₂ (fun i t => f.locals[i]? = some t) pl.locals saved)
    (htypes : pl.types = saved ++ operands) : (savedVars pl).map (·.2) = saved := by
  rw [savedVars_eq htypes hsaved.length_eq]
  exact List.map_snd_zip (Nat.le_of_eq (by rw [List.length_map, hsaved.length_eq]))

theorem known_of_types {xs : List (String × ValueType)} {types : List ValueType}
    (h : AllKnown types) (hxs : xs.map (·.2) = types) : ∀ x ∈ xs, x.2.isKnown = true := by
  intro x hx
  exact h x.2 (hxs ▸ List.mem_map.mpr ⟨x, hx, rfl⟩)

/-- The parts that the code of a block is put together from agree. -/
structure Agreeing (bc : BlockContext) (env : Env) : Prop where
  layout : bc.layout = env.exe.layout
  framesLayout : bc.frames.layout = env.exe.layout
  frames : bc.frames.Formed
  locals : AllKnown bc.func.locals

/-- They do, and sums of stack pointers and pushes do not overflow. -/
structure Fitted (bc : BlockContext) (env : Env) : Prop extends Agreeing bc env where
  limit : bc.stackWords.toNat < 2 ^ 31

/-- The frame of the target of an edge, pushed. -/
theorem runsPush_edge (hagree : Agreeing bc env) {types : TypeStack} {e : Edge}
    (he : e.Typed bc.frames.machine types) {locals data : List Datum}
    (hlocals : ∀ i d, s.vars.lookup (localName i) = some d → locals[i]? = some d)
    (hslots : Stand s (slotNames 0 types) data) (hs : Framed s n)
    (hsize : (s.lane.words .stack).size = LaneStack.headerWords + bc.stackWords.toNat)
    (hpresent : ∀ i ∈ (bc.frames.payload e.target).locals,
      (s.vars.lookup (localName i)).isSome = true)
    (hn : n + (bc.frames.payload e.target).frameWords < 2 ^ 32) :
    RunsPush env bc.stackWords s n (edgeCode bc e types)
      (bc.frameWords e.target locals (data.take e.keep ++ Structured.top e.carry data)
        ++ [(bc.numberOf e.target).val]) := by
  have hpl := hagree.frames.payload_of_entry he.target
  rw [hagree.framesLayout] at hpl
  obtain ⟨saved, hsaved, htypes⟩ := hpl.types
  have hvars : (edgeVars bc e types).map (·.2) = (bc.frames.payload e.target).types := by
    rw [edgeVars, List.map_append, List.map_append, types_slotVars, types_slotVars,
      types_savedVars hsaved htypes, htypes]
    rfl
  have hdata : Provides s (edgeVars bc e types)
      ((bc.frames.payload e.target).saved locals
        ++ (data.take e.keep ++ Structured.top e.carry data)) :=
    List.rel_append (provides_saved hlocals hpl hpresent)
      (List.rel_append (provides_slots (hslots.take e.keep)) (provides_slots (hslots.top e.carry)))
  have hrun := runsPush_values env hs hsize
    (known_of_types hpl.known hvars) hdata (bc.numberOf e.target) (by
      rw [hvars, ← hpl.words]
      exact hn)
  rw [hvars] at hrun
  rw [BlockContext.frameWords, edgeCode, hagree.layout]
  exact hrun

theorem edge_runs (hfit : Fitted bc env) {types : TypeStack} {e : Edge}
    (he : e.Typed bc.frames.machine types) {data : List Datum} {st : Store σ}
    (hholds : Holds bc.program env.exe.layout types data st s) (hs : Framed s n)
    (hsize : (s.lane.words .stack).size = LaneStack.headerWords + bc.stackWords.toNat)
    (hpresent : ∀ i ∈ (bc.frames.payload e.target).locals,
      (s.vars.lookup (localName i)).isSome = true)
    (hn : n ≤ bc.stackWords.toNat)
    (hwords : (bc.frames.payload e.target).frameWords ≤ bc.stackWords.toNat) :
    ∃ ws, Pushes bc st.locals (.ofEdge e data) ws
      ∧ RunsPush env bc.stackWords s n (edgeCode bc e types) ws := by
  have hlimit := hfit.limit
  exact ⟨_, .goto e.target _, runsPush_edge hfit.toAgreeing he hholds.locals hholds.slots hs hsize
    hpresent (by omega)⟩

/-- The frame to come back to and the frame of what is called, pushed. -/
theorem runsPush_transferCode (hagree : Agreeing bc env) {rest : TypeStack} (callee : Callee)
    {sig : Signature} (hsig : sig.Known) {next : Nat}
    (hnext : bc.frames.machine.entryTypes? next = some (rest ++ sig.results))
    {locals kept args : List Datum}
    (hlocals : ∀ i d, s.vars.lookup (localName i) = some d → locals[i]? = some d)
    (hslots : Stand s (slotNames 0 (rest ++ sig.params)) (kept ++ args))
    (hlen : sig.params.length = args.length) (hs : Framed s n)
    (hsize : (s.lane.words .stack).size = LaneStack.headerWords + bc.stackWords.toNat)
    (hpresent : ∀ i ∈ (bc.frames.payload next).locals,
      (s.vars.lookup (localName i)).isSome = true)
    (hn : n + ((bc.frames.payload next).frameWords + bc.frames.layout.sizeOf sig.params + 1)
      < 2 ^ 32) :
    RunsPush env bc.stackWords s n
      (transferCode bc (rest ++ sig.params) sig.params.length sig.results next
        (bc.calleeNumber callee))
      (bc.frameWords next locals kept
        ++ wordsFrom (s.lane.words .stack) (LaneStack.headerWords + n
          + ((bc.frames.payload next).words - bc.layout.sizeOf sig.results))
          (bc.layout.sizeOf sig.results)
        ++ [(bc.numberOf next).val]
        ++ (storedAll bc.layout sig.params args ++ [(bc.calleeNumber callee).val])) := by
  have hpl := hagree.frames.payload_of_entry hnext
  rw [hagree.framesLayout] at hpl hn
  obtain ⟨saved, hsaved, htypes⟩ := hpl.types
  have htotal := hslots.length_slots
  rw [List.length_append, List.length_append] at htotal
  obtain ⟨hbelow, habove⟩ := hslots.split (by omega)
  let xs := savedVars (bc.frames.payload next) ++ slotVars 0 rest
  have hxs : xs.map (·.2) = saved ++ rest := by
    rw [List.map_append, types_slotVars, types_savedVars hsaved htypes]
  have hall : (bc.frames.payload next).types = (saved ++ rest) ++ sig.results := by
    rw [htypes, List.append_assoc]
  have hwords : (bc.frames.payload next).words
      = env.exe.layout.sizeOf (saved ++ rest) + env.exe.layout.sizeOf sig.results := by
    rw [hpl.words, hall, Layout.sizeOf_append]
  have hknown : AllKnown (saved ++ rest) := fun t ht =>
    hpl.known t (by rw [hall]; exact List.mem_append_left _ ht)
  have hprovided : Provides s xs ((bc.frames.payload next).saved locals ++ kept) :=
    List.rel_append (provides_saved hlocals hpl hpresent) (provides_slots hbelow)
  have hrun := runsPush_transfer env hs hsize sig.results
    (known_of_types hknown hxs) (known_of_types hsig.params (types_slotVars rest.length _))
    hprovided (provides_slots habove) (bc.numberOf next) (bc.calleeNumber callee) (by
      rw [Payload.frameWords, hwords] at hn
      rw [hxs, types_slotVars]
      omega)
  have hstored : storedAll env.exe.layout (bc.frames.payload next).types
      ((bc.frames.payload next).saved locals ++ kept)
      = storedAll env.exe.layout (xs.map (·.2))
        ((bc.frames.payload next).saved locals ++ kept) := by
    rw [hall, hxs, storedAll_left]
    rw [← hxs, List.length_map]
    exact hprovided.length_eq
  rw [types_slotVars] at hrun
  rw [BlockContext.frameWords, transferCode, hagree.layout, hstored, hwords, Nat.add_sub_cancel,
    ← hxs, stack_below_append rest rfl, stack_top_append rest rfl, List.length_append,
    Nat.add_sub_cancel]
  exact hrun

theorem transfer_runs (hfit : Fitted bc env) {rest : TypeStack} {callee : Callee} {sig : Signature}
    (htakes : callee.Takes bc.program sig) {next : Nat}
    (hnext : bc.frames.machine.entryTypes? next = some (rest ++ sig.results)) {kept args : List Datum}
    {st : Store σ}
    (hholds : Holds bc.program env.exe.layout (rest ++ sig.params) (kept ++ args) st s)
    (hlen : sig.params.length = args.length) (hs : Framed s n)
    (hsize : (s.lane.words .stack).size = LaneStack.headerWords + bc.stackWords.toNat)
    (hpresent : ∀ i ∈ (bc.frames.payload next).locals,
      (s.vars.lookup (localName i)).isSome = true)
    (hn : n ≤ bc.stackWords.toNat)
    (hwords : (bc.frames.payload next).frameWords + bc.frames.layout.sizeOf sig.params + 1
      ≤ bc.stackWords.toNat) :
    ∃ ws, Pushes bc st.locals (.transfer callee sig next kept args) ws
      ∧ RunsPush env bc.stackWords s n (transferCode bc (rest ++ sig.params) sig.params.length
        sig.results next (bc.calleeNumber callee)) ws := by
  have hlimit := hfit.limit
  exact ⟨_, .transfer callee sig next kept args (Execution.length_wordsFrom ..),
    runsPush_transferCode hfit.toAgreeing callee htakes.known hnext hholds.locals hholds.slots hlen hs
      hsize hpresent (by omega)⟩

theorem meaning_resultCode (env : Env) {room : Nat} (hs : Framed s n) (hroom : room + 1 ≤ n)
    (hn : LaneStack.headerWords + n ≤ (s.lane.words .stack).size) {start off : Nat}
    {types : List ValueType} {data : List Datum} (hknown : AllKnown types)
    (hdata : Stand s (slotNames start types) data)
    (hoff : off + env.exe.layout.sizeOf types ≤ room) :
    meaning env (resultCode env.exe.layout room start off types) s
      = some (.ok .next, s.withWords .stack (LaneStack.writeAt (s.lane.words .stack)
        (LaneStack.headerWords + (n - 1 - room) + off) (storedAll env.exe.layout types data))) := by
  induction types generalizing s start off data with
  | nil =>
      cases hdata
      refine Execution.meaning_nil.trans ?_
      rw [storedAll, List.zipWith_nil_left, List.flatten_nil, LaneStack.writeAt,
        Execution.State.withWords_words]
  | cons t types ih =>
      cases hdata with
      | @cons _ d _ data hd hdata =>
          rw [Layout.sizeOf_cons] at hoff
          have hplaces := placesAt_resultWord (l := env.exe.layout) hs hroom
            (show off + env.exe.layout.words t ≤ room by omega) hn
          have hvar : ∀ us : Array UInt32, us.size = (s.lane.words .stack).size →
              Execution.eval env.exe.layout (s.withWords .stack us) (.var (slotName start t))
                = .ok d := fun us _ => Execution.State.lookup_of_vars hd
          have hstore := Execution.meaning_storeValue (hknown t (List.mem_cons_self ..)) hplaces hvar
          have hsize := Execution.size_writeAt (s.lane.words .stack)
            (LaneStack.headerWords + (n - 1 - room) + off) (d.stored env.exe.layout t)
          have hrest := ih (hs.withWords hsize) (by
              rw [Execution.State.lane_withWords, Execution.Lane.words_withWords, hsize]; exact hn)
            (fun u hu => hknown u (List.mem_cons_of_mem _ hu)) hdata
            (show off + env.exe.layout.words t + _ ≤ room by omega)
          rw [resultCode, Execution.meaning_append_next hstore, hrest, Execution.storedAll_cons,
            writeAt_append, Datum.length_stored, Execution.State.withWords_withWords,
            Execution.State.lane_withWords, Execution.Lane.words_withWords,
            Nat.add_assoc (LaneStack.headerWords + (n - 1 - room))]

/-! ## Ends of blocks -/

/-- The stack of a lane without a trap, with the given data words in use. -/
def InUse (words : Array UInt32) (data : List UInt32) : Prop :=
  ∃ back, words.toList = data.length.toUInt32 :: 0 :: (data ++ back)

/-- What the way out of a block makes of the data words below the block's frame. -/
inductive Leaves (bc : BlockContext) (locals : List Datum) (below : List UInt32) :
    Exit → List UInt32 → Prop
  | push {exit : Exit} {ws : List UInt32} : Pushes bc locals exit ws →
      below.length + ws.length ≤ bc.stackWords.toNat → Leaves bc locals below exit (below ++ ws)
  | ret {results : List Datum} {low room : List UInt32} {id : UInt32} :
      below = low ++ room ++ [id] → room.length = bc.layout.sizeOf bc.func.type.results →
      Leaves bc locals below (.ret results)
        (low ++ storedAll bc.layout bc.func.type.results results ++ [id])

/-- The code behind a block's own ends as the terminator does, or with a push that does not
fit. -/
def ExitEnds (bc : BlockContext) (below : List UInt32) (s : Execution.State) :
    Execution.Ending Execution.Flow → Structured.Ending (Store σ) Exit → Prop
  | (.ok flow, s'), (.ok exit, st) =>
    flow = .next ∧ ∃ data ws, Leaves bc st.locals below exit data ∧ InUse ws data
      ∧ ws.size = (s.lane.words .stack).size ∧ s'.lane = s.lane.withWords .stack ws
      ∧ s'.privates = s.privates
  | (.error (.trap c), s'), (.ok exit, st) =>
    (∃ ws, Pushes bc st.locals exit ws ∧ bc.stackWords.toNat < below.length + ws.length)
      ∧ c = .stackOverflow ∧ s'.lane = (s.trapped c).lane
  | (.error (.trap c), s'), (.error (.trap c'), _) => c = c' ∧ s'.lane = (s.trapped c).lane
  | _, _ => False

/-- The header and the data words, with the stack pointer written back. -/
theorem inUse_setSp {words : Array UInt32} {h₀ : UInt32} {data back : List UInt32}
    (h : words.toList = h₀ :: 0 :: (data ++ back)) :
    InUse (words.setIfInBounds 0 data.length.toUInt32) data := by
  refine ⟨back, ?_⟩
  rw [Array.toList_setIfInBounds, h, List.set_cons_zero]

theorem exitEnds_of_runsPush {below : List UInt32}
    (hsize : (s.lane.words .stack).size = LaneStack.headerWords + bc.stackWords.toNat)
    {h₀ : UInt32} {back : List UInt32}
    (hwords : (s.lane.words .stack).toList = h₀ :: 0 :: (below ++ back)) {exit : Exit}
    {st : Store σ} {ws : List UInt32} (hpush : Pushes bc st.locals exit ws)
    {code : List Shader.Stmt} (hrun : RunsPush env bc.stackWords s below.length code ws) :
    Option.Rel (ExitEnds bc below s) (meaning env (code ++ [writeSp]) s) (some (.ok exit, st)) := by
  rw [Execution.meaning_append]
  by_cases hfit : below.length + ws.length ≤ bc.stackWords.toNat
  · obtain ⟨vars, hcode, hframed⟩ := hrun.fits hfit
    let words := LaneStack.writeAt (s.lane.words .stack) (LaneStack.headerWords + below.length) ws
    have hback : (s.lane.words .stack).size = LaneStack.headerWords + below.length + back.length := by
      rw [← Array.length_toList, hwords, List.length_cons, List.length_cons, List.length_append,
        LaneStack.headerWords]
      omega
    have hwritten : words.toList = h₀ :: 0 :: ((below ++ ws) ++ back.drop ws.length) := by
      rw [Execution.toList_writeAt (by omega), hwords]
      simp [LaneStack.headerWords, Nat.add_comm 2, Nat.add_right_comm _ 2, List.drop_append]
    have hwsize : words.size = (s.lane.words .stack).size := Execution.size_writeAt ..
    have hpos : 0 < words.size := by rw [hwsize, hsize, LaneStack.headerWords]; omega
    have hsp := meaning_writeSp hframed env hpos
    rw [hcode]
    change Option.Rel _ (meaning env [writeSp] _) _
    rw [hsp]
    refine .some ⟨rfl, below ++ ws, words.setIfInBounds 0 (below.length + ws.length).toUInt32,
      .push hpush hfit, ?_, ?_, ?_, rfl⟩
    · rw [← List.length_append]
      exact inUse_setSp hwritten
    · rw [Array.size_setIfInBounds, hwsize]
    · change (s.lane.withWords .stack words).withWords .stack
        (((s.lane.withWords .stack words).words .stack).setIfInBounds 0 _) = _
      rw [Execution.Lane.words_withWords, Execution.Lane.withWords_withWords]
  · have hover : bc.stackWords.toNat < below.length + ws.length := by omega
    rw [hrun.overflow hover]
    exact .some ⟨⟨ws, hpush, hover⟩, rfl, rfl⟩

/-- The state in front of a terminator, with `below` in use. -/
structure AtExit (bc : BlockContext) (env : Env) (t : Terminator) (types : TypeStack)
    (data : List Datum) (st : Store σ) (s : Execution.State) (below : List UInt32) : Prop where
  holds : Holds bc.program env.exe.layout types data st s
  framed : Framed s below.length
  size : (s.lane.words .stack).size = LaneStack.headerWords + bc.stackWords.toNat
  words : ∃ h₀ back, (s.lane.words .stack).toList = h₀ :: 0 :: (below ++ back)
  present : ∀ target ∈ t.successors, ∀ i ∈ (bc.frames.payload target).locals,
    (s.vars.lookup (localName i)).isSome = true

theorem AtExit.used {t : Terminator} {types : TypeStack} {data : List Datum} {st : Store σ}
    {below : List UInt32} (h : AtExit bc env t types data st s below) :
    below.length ≤ bc.stackWords.toNat := by
  obtain ⟨h₀, back, hwords⟩ := h.words
  have hlen := congrArg List.length hwords
  rw [Array.length_toList, h.size, List.length_cons, List.length_cons, List.length_append,
    LaneStack.headerWords] at hlen
  omega

/-- The words that a terminator pushes fit an empty stack. -/
def PushFits (bc : BlockContext) (t : Terminator) : Prop :=
  (∀ e ∈ t.edges, (bc.frames.payload e.target).frameWords ≤ bc.stackWords.toNat)
    ∧ ∀ args results next,
      ((∃ fn, t = .call fn args results next) ∨ ∃ h, t = .host h args results next) →
      (bc.frames.payload next).frameWords + bc.frames.layout.sizeOf args + 1
        ≤ bc.stackWords.toNat

theorem edge_ends (hfit : Fitted bc env) {t : Terminator} {types : TypeStack} {e : Edge}
    (he : e.Typed bc.frames.machine types) {data : List Datum} {st : Store σ}
    {below : List UInt32} {allTypes : TypeStack} {allData : List Datum}
    (hs : AtExit bc env t allTypes allData st s below)
    (hholds : Holds bc.program env.exe.layout types data st s) (hmem : e ∈ t.edges)
    (hpush : PushFits bc t) :
    Option.Rel (ExitEnds bc below s) (meaning env (edgeCode bc e types ++ [writeSp]) s)
      (some (.ok (.ofEdge e data), st)) := by
  obtain ⟨h₀, back, hwords⟩ := hs.words
  have htarget : e.target ∈ t.successors :=
    List.mem_append_left _ (List.mem_map.mpr ⟨e, hmem, rfl⟩)
  obtain ⟨ws, hws, hrun⟩ := edge_runs hfit he hholds hs.framed hs.size (hs.present _ htarget)
    hs.used (hpush.1 e hmem)
  exact exitEnds_of_runsPush hs.size hwords hws hrun

/-- A result: the words in the room for it are overwritten, and nothing is pushed. -/
theorem ret_ends (hfit : Fitted bc env) {t : Terminator} {rest : TypeStack} {data : List Datum}
    {st : Store σ} {below : List UInt32}
    (hs : AtExit bc env t (rest ++ bc.func.type.results) data st s below)
    (hfits : FitsAll env.exe.layout (rest ++ bc.func.type.results) data)
    (hknown : AllKnown bc.func.type.results) {low room : List UInt32} {id : UInt32}
    (hbelow : below = low ++ room ++ [id])
    (hroom : room.length = env.exe.layout.sizeOf bc.func.type.results) :
    Option.Rel (ExitEnds bc below s)
      (meaning env (exitCode bc (rest ++ bc.func.type.results) (.ret bc.func.type.results)
        ++ [writeSp]) s)
      (some (.ok (.ret (Structured.top bc.func.type.results.length data)), st)) := by
  obtain ⟨h₀, back, hwords⟩ := hs.words
  obtain ⟨kept, results, rfl, -, hresults⟩ := hfits.of_append
  obtain ⟨-, habove⟩ := hs.holds.below hresults.length_eq
  have hlen : below.length = low.length + room.length + 1 := by
    rw [hbelow, List.length_append, List.length_append, List.length_singleton]
  have hused := hs.used
  have hsize := hs.size
  have hrun := meaning_resultCode env hs.framed (by omega) (by omega) hknown habove
    (show 0 + env.exe.layout.sizeOf bc.func.type.results ≤ room.length by omega)
  let stored := storedAll env.exe.layout bc.func.type.results results
  let written := LaneStack.writeAt (s.lane.words .stack)
    (LaneStack.headerWords + (below.length - 1 - room.length) + 0) stored
  have hstored : stored.length = room.length := by
    rw [hroom]; exact Execution.length_storedAll hresults.length_eq
  have hplace : (h₀ :: 0 :: low).length
      = LaneStack.headerWords + (below.length - 1 - room.length) + 0 := by
    rw [List.length_cons, List.length_cons, LaneStack.headerWords]; omega
  have hparts : (s.lane.words .stack).toList = (h₀ :: 0 :: low) ++ room ++ (id :: back) := by
    rw [hwords, hbelow]; simp
  have hwritten : written.toList = h₀ :: 0 :: ((low ++ stored ++ [id]) ++ back) := by
    rw [Execution.toList_writeAt_of_append hparts hplace hstored]; simp
  have hwsize : written.size = (s.lane.words .stack).size := Execution.size_writeAt ..
  have hsame : below.length = (low ++ stored ++ [id]).length := by
    rw [hlen, List.length_append, List.length_append, List.length_singleton, hstored]
  have hsp := meaning_writeSp (hs.framed.withWords (r := .stack) hwsize) env (by
    rw [Execution.State.lane_withWords, Execution.Lane.words_withWords, hwsize, hsize,
      LaneStack.headerWords]
    omega)
  rw [Execution.State.lane_withWords, Execution.Lane.words_withWords,
    Execution.State.withWords_withWords] at hsp
  have hcode : exitCode bc (rest ++ bc.func.type.results) (.ret bc.func.type.results)
      = resultCode env.exe.layout room.length rest.length 0 bc.func.type.results := by
    rw [exitCode, List.length_append, Nat.add_sub_cancel, hfit.layout, hroom]
  have hleaves : Leaves bc st.locals below (.ret results) (low ++ stored ++ [id]) := by
    have hret := @Leaves.ret bc st.locals below results low room id hbelow
      (by rw [hroom, hfit.layout])
    rw [hfit.layout] at hret
    exact hret
  rw [hcode, Execution.meaning_append_next hrun, hsp, Structured.top_append kept results
    hresults.length_eq.symm]
  refine .some ⟨rfl, low ++ stored ++ [id], written.setIfInBounds 0 below.length.toUInt32, hleaves,
    ?_, ?_, rfl, rfl⟩
  · rw [hsame]
    exact inUse_setSp hwritten
  · rw [Array.size_setIfInBounds, hwsize]

/-- The code of a terminator does what the terminator does. -/
theorem exit_rel (hfit : Fitted bc env) {t : Terminator} {types : TypeStack}
    (ht : t.Typed bc.program bc.frames.machine types) (hpush : PushFits bc t) {data : List Datum}
    {st : Store σ} {below : List UInt32} (hs : AtExit bc env t types data st s below)
    (hfits : FitsAll env.exe.layout types data) (hknown : AllKnown bc.func.type.results)
    {low room : List UInt32} {id : UInt32} (hbelow : below = low ++ room ++ [id])
    (hroom : room.length = env.exe.layout.sizeOf bc.func.type.results) :
    Option.Rel (ExitEnds bc below s) (meaning env (exitCode bc types t ++ [writeSp]) s)
      (Structured.exitBy data t st) := by
  obtain ⟨h₀, back, hwords⟩ := hs.words
  cases ht with
  | @goto _ e he => exact edge_ends hfit he hs hs.holds (List.mem_singleton.mpr rfl) hpush
  | @branch rest taken notTaken htaken hnotTaken =>
      obtain ⟨kept, bs, rfl, -, hbs⟩ := hfits.of_append
      obtain ⟨c, rfl, hc⟩ := hbs.of_single
      obtain ⟨hholds, habove⟩ := hs.holds.below rfl
      cases habove with
      | cons hcond _ =>
      obtain ⟨b, hb, htruth⟩ := eval_isNonzero (l := env.exe.layout) hcond hc
      have hexit : Structured.exitBy (kept ++ [c]) (.branch taken notTaken) st
          = some (.ok (.ofEdge (if c.truth then taken else notTaken) kept), st) :=
        Structured.bind_of_ok (Structured.popOne_append kept c st)
      rw [hexit, exitCode, below_one, length_sub_one, List.singleton_append,
        Execution.meaning_cons, Execution.stmtMeaning_ifElse hb, htruth]
      cases c.truth with
      | true =>
          rw [if_pos rfl, if_pos rfl, ← Execution.meaning_append]
          exact edge_ends hfit htaken hs hholds (List.mem_cons_self ..) hpush
      | false =>
          rw [if_neg Bool.false_ne_true, if_neg Bool.false_ne_true, ← Execution.meaning_append]
          exact edge_ends hfit hnotTaken hs hholds
            (List.mem_cons_of_mem _ (List.mem_cons_self ..)) hpush
  | @switch rest cases fallback hcases hlast =>
      obtain ⟨kept, bs, rfl, -, hbs⟩ := hfits.of_append
      obtain ⟨c, rfl, hc⟩ := hbs.of_single
      obtain ⟨hholds, habove⟩ := hs.holds.below rfl
      cases habove with
      | cons hcond _ =>
      have hselector : Execution.eval env.exe.layout s (.var (slotName rest.length .i32)) = .ok c :=
        Execution.State.lookup_of_vars hcond
      have hexit : Structured.exitBy (kept ++ [c]) (.switch cases fallback) st
          = some (.ok (.ofEdge (cases.getD c.x.toNat fallback) kept), st) :=
        Structured.bind_of_ok (Structured.popOne_append kept c st)
      rw [hexit, exitCode, below_one, length_sub_one, List.singleton_append,
        Execution.meaning_cons, Execution.stmtMeaning_switch hselector, edgeCases,
        find_numberedCases (Nat.zero_le _), Nat.sub_zero, List.getElem?_map,
        List.getD_eq_getElem?_getD]
      cases hcase : cases[c.x.toNat]? with
      | none =>
          change Option.Rel _ ((meaning env (edgeCode bc fallback rest) s).bind _) _
          rw [← Execution.meaning_append]
          exact edge_ends hfit hlast hs hholds
            (List.mem_append_right _ (List.mem_singleton.mpr rfl)) hpush
      | some e =>
          have hmem := List.mem_of_getElem? hcase
          change Option.Rel _ ((meaning env (edgeCode bc e rest) s).bind _) _
          rw [← Execution.meaning_append]
          exact edge_ends hfit (hcases e hmem) hs hholds (List.mem_append_left _ hmem) hpush
  | @call rest callee sig next htakes hnext =>
      obtain ⟨kept, args, rfl, -, hargs⟩ := hfits.of_append
      have hexit : Structured.exitBy (kept ++ args) (.call callee sig.params sig.results next) st
          = some (.ok (.transfer (.func callee) sig next kept args), st) :=
        Structured.bind_of_ok (Structured.split_append kept args hargs.length_eq.symm st)
      obtain ⟨ws, hws, hrun⟩ := transfer_runs hfit htakes hnext hs.holds hargs.length_eq hs.framed
        hs.size (hs.present next (List.mem_singleton.mpr rfl)) hs.used
        (hpush.2 _ _ _ (.inl ⟨callee, rfl⟩))
      rw [hexit]
      exact exitEnds_of_runsPush hs.size hwords hws hrun
  | @host rest h sig next htakes hnext =>
      obtain ⟨kept, args, rfl, -, hargs⟩ := hfits.of_append
      have hexit : Structured.exitBy (kept ++ args) (.host h sig.params sig.results next) st
          = some (.ok (.transfer (.host h) sig next kept args), st) :=
        Structured.bind_of_ok (Structured.split_append kept args hargs.length_eq.symm st)
      obtain ⟨ws, hws, hrun⟩ := transfer_runs hfit htakes hnext hs.holds hargs.length_eq hs.framed
        hs.size (hs.present next (List.mem_singleton.mpr rfl)) hs.used
        (hpush.2 _ _ _ (.inr ⟨h, rfl⟩))
      rw [hexit]
      exact exitEnds_of_runsPush hs.size hwords hws hrun
  | ret => exact ret_ends hfit hs hfits hknown hbelow hroom
  | trap =>
      rw [exitCode, trapStmts, List.singleton_append, Execution.meaning_cons,
        Execution.stmtMeaning_trap]
      exact .some ⟨rfl, rfl⟩

end Run

end Emit

end WasmShader
