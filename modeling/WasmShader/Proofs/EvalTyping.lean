import WasmShader.Proofs.FormedProgram
import WasmShader.Proofs.NumericCode

/-!
# Typed code does not get stuck

Evaluating a typed body on operands, locals and globals of the right types ends, if it ends,
with operands of the types that the derivation says, with a trap, or because the host
failed. It is never stuck, whatever answers its calls, as long as the answers are of the
declared types.
-/

namespace WasmShader

open Execution (Datum FitsAll)

namespace Structured

variable {σ α β : Type}

/-! ## Running evaluations -/

theorem bind_apply (x : Eval σ α) (k : α → Eval σ β) (st : Store σ) :
    (x >>= k) st = (x st).bind fun
      | (.ok a, st') => k a st'
      | (.error e, st') => some (.error e, st') := by
  change (x st).bind (fun r => (ExceptT.bindCont k r.1) r.2) = _
  congr 1
  funext r
  obtain ⟨r, st'⟩ := r
  cases r with
  | ok a => rfl
  | error e => rfl

theorem bind_of_ok {x : Eval σ α} {k : α → Eval σ β} {st st' : Store σ} {a : α}
    (h : x st = some (.ok a, st')) : (x >>= k) st = k a st' := by
  rw [bind_apply, h]; rfl

/-- If the evaluation ends, its end is as described. -/
def Sat (x : Eval σ α) (st : Store σ) (Q : Except Stop α → Store σ → Prop) : Prop :=
  ∀ r st', x st = some (r, st') → Q r st'

theorem Sat.pure {a : α} {st : Store σ} {Q : Except Stop α → Store σ → Prop} (h : Q (.ok a) st) :
    Sat (Pure.pure a : Eval σ α) st Q := by
  intro r st' heq
  cases heq
  exact h

theorem Sat.bind {x : Eval σ α} {k : α → Eval σ β} {st : Store σ}
    {Q : Except Stop α → Store σ → Prop} {R : Except Stop β → Store σ → Prop} (hx : Sat x st Q)
    (hok : ∀ a st', Q (.ok a) st' → Sat (k a) st' R)
    (herror : ∀ e st', Q (.error e) st' → R (.error e) st') : Sat (x >>= k) st R := by
  intro r st' h
  rw [bind_apply] at h
  obtain ⟨⟨ra, st''⟩, hra, hk⟩ := Option.bind_eq_some_iff.mp h
  have hQ := hx ra st'' hra
  cases ra with
  | ok a => exact hok a st'' hQ r st' hk
  | error e => cases hk; exact herror e _ hQ

/-! ## The operands on top -/

theorem top_append (as bs : List Datum) {n : Nat} (hn : bs.length = n) :
    top n (as ++ bs) = bs := by
  rw [top, List.length_append, hn, Nat.add_sub_cancel]
  exact List.drop_left

theorem split_append (as bs : List Datum) {n : Nat} (hn : bs.length = n) (st : Store σ) :
    (split n (as ++ bs) : Eval σ _) st = some (.ok (as, bs), st) := by
  rw [split, if_neg (by rw [List.length_append]; omega), top_append as bs hn, List.length_append,
    hn, Nat.add_sub_cancel, List.take_left]
  rfl

theorem popOne_append (as : List Datum) (d : Datum) (st : Store σ) :
    (popOne (as ++ [d]) : Eval σ _) st = some (.ok (as, d), st) := by
  rw [popOne, bind_of_ok (split_append as [d] (n := 1) rfl st)]
  rfl

/-- Goes on behind code that control has passed. -/
def goOn (k : List Datum → Eval σ Flow) :
    Ending (Store σ) Flow → Option (Ending (Store σ) Flow)
  | (.ok (.next stack), st) => k stack st
  | r => some r

theorem evalSeq_cons (p : Program) (l : Layout) (oracle : Oracle σ) (n : Node) (ns : List Node)
    (stack : List Datum) (st : Store σ) :
    evalSeq p l oracle (n :: ns) stack st
      = (evalNode p l oracle n stack st).bind (goOn (evalSeq p l oracle ns)) := by
  rw [evalSeq, bind_apply]
  congr 1
  funext r
  obtain ⟨r, st'⟩ := r
  cases r with
  | error e => rfl
  | ok flow => cases flow <;> rfl

/-! ## Fitting states and ends -/

end Structured

/-- A trap that a program makes by itself. -/
def TrapCode.isPlain (c : TrapCode) : Bool := c = .unreachable || c.isArithmetic

/-- The values fit the globals of a program; immutable ones never change. -/
def Program.GlobalsFit (p : Program) (l : Layout) (values : List Datum) : Prop :=
  List.Forall₂ (fun (g : Global) d =>
    d.Fits l g.type ∧ (g.isMutable = false → d = .ofValue l g.init)) p.globals values

namespace Structured

variable {σ : Type}

/-- The locals and globals of a running function fit. -/
structure Store.Fits (p : Program) (l : Layout) (f : Function) (st : Store σ) : Prop where
  locals : FitsAll l f.locals st.locals
  globals : p.GlobalsFit l st.shared.globals

/-- A way to stop that typed code has. -/
def Stop.IsProper : Stop → Prop
  | .trap c => c.isPlain = true
  | .hostFailed _ _ => True
  | .stuck => False

/-- How typed code ends: with operands as the derivation says. -/
def FlowFits (p : Program) (l : Layout) (f : Function) (labels : Program.Labels)
    (out : Option TypeStack) : Except Stop Flow → Store σ → Prop
  | .ok (.next stack), st => (∃ types, out = some types ∧ FitsAll l types stack) ∧ st.Fits p l f
  | .ok (.branch depth stack), st =>
    (∃ types below carried, labels[depth]? = some types ∧ stack = below ++ carried
      ∧ FitsAll l types carried) ∧ st.Fits p l f
  | .ok (.ret stack), st =>
    (∃ below carried, stack = below ++ carried ∧ FitsAll l f.type.results carried)
      ∧ st.Fits p l f
  | .error e, st => e.IsProper ∧ p.GlobalsFit l st.shared.globals

/-- What a request takes and gives. -/
def requestSignature? (p : Program) : Request → Option Signature
  | .call fn => (p.func? fn).map (·.type)
  | .host (.importCall idx) => p.imports[idx]?.map (·.type)
  | .host (.callIndirect typeIdx) =>
    p.types[typeIdx]?.map fun t => ⟨t.sig.params ++ [.i32], t.sig.results⟩
  | .host (.memory .memorySize) => some ⟨[], [.i32]⟩
  | .host (.memory .memoryGrow) => some ⟨[.i32], [.i32]⟩
  | .host (.memory _) => none

/-- How an answer ends: with results of the declared types. -/
def AnswerFits (p : Program) (l : Layout) (results : List ValueType) :
    Except Stop (List Datum) → Shared σ → Prop
  | .ok rs, shared => FitsAll l results rs ∧ p.GlobalsFit l shared.globals
  | .error e, shared => e.IsProper ∧ p.GlobalsFit l shared.globals

/-- All answers are of the declared types. -/
def Oracle.Sound (p : Program) (l : Layout) (oracle : Oracle σ) : Prop :=
  ∀ r sig args shared, requestSignature? p r = some sig → FitsAll l sig.params args →
    p.GlobalsFit l shared.globals → ∀ answer shared',
    oracle r args shared = some (answer, shared') → AnswerFits p l sig.results answer shared'

/-! ## Instructions -/

section Soundness

variable {p : Program} {l : Layout} {f : Function} {oracle : Oracle σ}

/-- An evaluation whose end is known. -/
theorem Sat.of_eq {α : Type} {x : Eval σ α} {st st' : Store σ} {r : Except Stop α}
    {Q : Except Stop α → Store σ → Prop} (h : x st = some (r, st')) (hQ : Q r st') : Sat x st Q := by
  intro r' st'' h'
  rw [h] at h'
  cases h'
  exact hQ

theorem Sat.of_ok {α β : Type} {x : Eval σ α} {k : α → Eval σ β} {st st' : Store σ} {a : α}
    {Q : Except Stop β → Store σ → Prop} (h : x st = some (.ok a, st')) (hk : Sat (k a) st' Q) :
    Sat (x >>= k) st Q := by
  intro r st'' h'
  rw [bind_of_ok h] at h'
  exact hk r st'' h'

theorem getElem?_global {values : List Datum} (h : p.GlobalsFit l values) {i : Nat} {g : Global}
    (hg : p.globals[i]? = some g) : ∃ d, values[i]? = some d ∧ d.Fits l g.type
      ∧ (g.isMutable = false → d = .ofValue l g.init) := by
  unfold Program.GlobalsFit at h
  generalize p.globals = globals at h hg
  induction h generalizing i with
  | nil => cases hg
  | cons hd _ ih =>
      cases i with
      | zero => cases hg; exact ⟨_, rfl, hd⟩
      | succ i => exact ih hg

theorem set_global {values : List Datum} (h : p.GlobalsFit l values) {i : Nat} {g : Global}
    (hg : p.globals[i]? = some g) (hmutable : g.isMutable = true) {d : Datum}
    (hd : d.Fits l g.type) : p.GlobalsFit l (values.set i d) := by
  unfold Program.GlobalsFit at h ⊢
  generalize p.globals = globals at h hg
  induction h generalizing i with
  | nil => cases hg
  | cons hd' htail ih =>
      cases i with
      | zero =>
          cases hg
          exact .cons ⟨hd, fun hi => by rw [hmutable] at hi; cases hi⟩ htail
      | succ i => exact .cons hd' (ih hg)

/-- Asking for something that takes the operands on top. -/
theorem askTop_append (r : Request) (as bs : List Datum) {n : Nat} (hn : bs.length = n)
    (st : Store σ) :
    askTop oracle r n (as ++ bs) st = (oracle r bs st.shared).map fun (answer, shared) =>
      (answer.map fun rs => .next (as ++ rs), { st with shared }) := by
  rw [askTop, bind_of_ok (split_append as bs hn st)]
  change (ask oracle r bs >>= fun rs => (Pure.pure (Flow.next (as ++ rs)) : Eval σ Flow)) st = _
  rw [bind_apply, ask]
  cases oracle r bs st.shared with
  | none => rfl
  | some x =>
      obtain ⟨answer, shared⟩ := x
      cases answer <;> rfl

/-- Asking for something that the top operands are right for. -/
theorem askTop_fits (horacle : oracle.Sound p l) {labels : Program.Labels} {r : Request}
    {sig : Signature} (hr : requestSignature? p r = some sig) {n : Nat}
    (hn : n = sig.params.length) {rest : TypeStack} {stack : List Datum}
    (hfits : FitsAll l (rest ++ sig.params) stack) {st : Store σ} (hst : st.Fits p l f) :
    Sat (askTop oracle r n stack) st (FlowFits p l f labels (some (rest ++ sig.results))) := by
  obtain ⟨as, bs, rfl, has, hbs⟩ := hfits.of_append
  subst hn
  intro e st' h
  rw [askTop_append r as bs hbs.length_eq.symm st] at h
  obtain ⟨⟨answer, shared⟩, hans, heq⟩ := Option.map_eq_some_iff.mp h
  have hanswer := horacle r sig bs st.shared hr hbs hst.globals answer shared hans
  cases heq
  cases answer with
  | ok rs => exact ⟨⟨_, rfl, has.append hanswer.1⟩, ⟨hst.locals, hanswer.2⟩⟩
  | error e' => exact hanswer

/-- What a call of a function asks for takes and gives what the function does. -/
theorem requestSignature_callRequest (hp : p.Formed) {target : Nat} {sig : Signature}
    (h : p.signature? target = some sig) :
    requestSignature? p (callRequest p target) = some sig := by
  unfold Program.signature? at h
  unfold callRequest
  by_cases himport : p.isImport target = true
  · rw [if_pos himport] at h
    obtain ⟨i, hi, rfl⟩ := Option.map_eq_some_iff.mp h
    rw [hi]
    change p.imports[i.index]?.map (·.type) = _
    rw [hp.importIndex target i hi, hi]
    rfl
  · rw [if_neg himport] at h
    have hnone : p.imports[target]? = none := by
      rw [Program.isImport, decide_eq_true_eq] at himport
      exact List.getElem?_eq_none (by omega)
    rw [hnone]
    exact h

theorem Store.Fits.setLocal {st : Store σ} (h : st.Fits p l f) {i : Nat} {t : ValueType}
    {d : Datum} (ht : f.locals[i]? = some t) (hd : d.Fits l t) :
    Store.Fits p l f { st with locals := st.locals.set i d } :=
  ⟨h.locals.set ht hd, h.globals⟩

theorem evalConstant {i : Instr} {v : Value} (h : i.Constant v) (stack : List Datum)
    (st : Store σ) :
    evalInstr p l oracle i stack st = some (.ok (.next (stack ++ [.ofValue l v])), st) := by
  unfold evalInstr
  cases h with
  | i32 hop himm => simp only [hop, himm]; rfl
  | i64 hop himm => simp only [hop, himm]; rfl
  | f32 hop himm => simp only [hop, himm]; rfl
  | f64 hop himm => simp only [hop, himm]; rfl
  | v128 hop himm => simp only [hop, himm]; rfl

/-! The equations of the other instructions, on a stack that holds their operands. -/

theorem evalNumeric {i : Instr} {op : NumericOp} (hop : i.operation = .numeric op)
    (rest : List Datum) {args : List Datum} (hlen : args.length = op.signature.params.length)
    (st : Store σ) :
    evalInstr p l oracle i (rest ++ args) st = match numericResult l op args with
      | .ok d => some (.ok (.next (rest ++ [d])), st)
      | .error (.trap code) => some (.error (.trap code), st)
      | .error _ => some (.error .stuck, st) := by
  unfold evalInstr
  simp only [hop]
  rw [bind_of_ok (split_append rest args hlen st)]
  dsimp only
  cases numericResult l op args with
  | ok d => rfl
  | error e => cases e <;> rfl

theorem evalNop {i : Instr} (hop : i.operation = .nop) (stack : List Datum) (st : Store σ) :
    evalInstr p l oracle i stack st = some (.ok (.next stack), st) := by
  unfold evalInstr; simp only [hop]; rfl

theorem evalUnreachable {i : Instr} (hop : i.operation = .unreachable) (stack : List Datum)
    (st : Store σ) :
    evalInstr p l oracle i stack st = some (.error (.trap .unreachable), st) := by
  unfold evalInstr; simp only [hop]; rfl

theorem evalBr {i : Instr} {depth : UInt32} (hop : i.operation = .br)
    (himm : i.imm = .branch depth) (stack : List Datum) (st : Store σ) :
    evalInstr p l oracle i stack st = some (.ok (.branch depth.toNat stack), st) := by
  unfold evalInstr; simp only [hop, himm]; rfl

theorem evalBrIf {i : Instr} {depth : UInt32} (hop : i.operation = .brIf)
    (himm : i.imm = .branch depth) (rest : List Datum) (c : Datum) (st : Store σ) :
    evalInstr p l oracle i (rest ++ [c]) st
      = some (.ok (if c.truth then .branch depth.toNat rest else .next rest), st) := by
  unfold evalInstr
  simp only [hop, himm]
  rw [bind_of_ok (popOne_append rest c st)]
  rfl

theorem evalBrTable {i : Instr} {depths : List UInt32} {fallback : UInt32}
    (hop : i.operation = .brTable) (himm : i.imm = .branchTable depths fallback)
    (rest : List Datum) (c : Datum) (st : Store σ) :
    evalInstr p l oracle i (rest ++ [c]) st
      = some (.ok (.branch (depths.getD c.x.toNat fallback).toNat rest), st) := by
  unfold evalInstr
  simp only [hop, himm]
  rw [bind_of_ok (popOne_append rest c st)]
  rfl

theorem evalRet {i : Instr} (hop : i.operation = .ret) (stack : List Datum) (st : Store σ) :
    evalInstr p l oracle i stack st = some (.ok (.ret stack), st) := by
  unfold evalInstr; simp only [hop]; rfl

theorem evalDrop {i : Instr} (hop : i.operation = .drop) (rest : List Datum) (d : Datum)
    (st : Store σ) :
    evalInstr p l oracle i (rest ++ [d]) st = some (.ok (.next rest), st) := by
  unfold evalInstr
  simp only [hop]
  rw [bind_of_ok (popOne_append rest d st)]
  rfl

theorem evalSelect {i : Instr} (hop : i.operation = .select) (rest : List Datum) (a b c : Datum)
    (st : Store σ) :
    evalInstr p l oracle i (rest ++ [a, b, c]) st
      = some (.ok (.next (rest ++ [if c.truth then a else b])), st) := by
  unfold evalInstr
  simp only [hop]
  rw [bind_of_ok (split_append rest [a, b, c] (n := 3) rfl st)]
  rfl

theorem evalLocalGet {i : Instr} {idx : UInt32} (hop : i.operation = .localGet)
    (himm : i.imm = .localVar idx) (stack : List Datum) {d : Datum} {st : Store σ}
    (hd : st.locals[idx.toNat]? = some d) :
    evalInstr p l oracle i stack st = some (.ok (.next (stack ++ [d])), st) := by
  unfold evalInstr
  simp only [hop, himm]
  have hget : (getLocal idx.toNat : Eval σ Datum) st = some (.ok d, st) := by
    rw [getLocal, bind_of_ok (a := st) rfl, hd]; rfl
  rw [bind_of_ok hget]
  rfl

theorem evalLocalSet {i : Instr} {idx : UInt32} (hop : i.operation = .localSet)
    (himm : i.imm = .localVar idx) (rest : List Datum) (d : Datum) (st : Store σ) :
    evalInstr p l oracle i (rest ++ [d]) st
      = some (.ok (.next rest), { st with locals := st.locals.set idx.toNat d }) := by
  unfold evalInstr
  simp only [hop, himm]
  rw [bind_of_ok (popOne_append rest d st)]
  rfl

theorem evalLocalTee {i : Instr} {idx : UInt32} (hop : i.operation = .localTee)
    (himm : i.imm = .localVar idx) (rest : List Datum) (d : Datum) (st : Store σ) :
    evalInstr p l oracle i (rest ++ [d]) st
      = some (.ok (.next (rest ++ [d])), { st with locals := st.locals.set idx.toNat d }) := by
  unfold evalInstr
  simp only [hop, himm]
  rw [bind_of_ok (popOne_append rest d st)]
  rfl

theorem evalGlobalGet {i : Instr} {idx : UInt32} (hop : i.operation = .globalGet)
    (himm : i.imm = .globalVar idx) (stack : List Datum) {d : Datum} {st : Store σ}
    (hd : st.shared.globals[idx.toNat]? = some d) :
    evalInstr p l oracle i stack st = some (.ok (.next (stack ++ [d])), st) := by
  unfold evalInstr
  simp only [hop, himm]
  have hget : (getGlobal idx.toNat : Eval σ Datum) st = some (.ok d, st) := by
    rw [getGlobal, bind_of_ok (a := st) rfl, hd]; rfl
  rw [bind_of_ok hget]
  rfl

theorem evalGlobalSet {i : Instr} {idx : UInt32} (hop : i.operation = .globalSet)
    (himm : i.imm = .globalVar idx) (rest : List Datum) (d : Datum) (st : Store σ) :
    evalInstr p l oracle i (rest ++ [d]) st
      = some (.ok (.next rest), { st with
          shared := { st.shared with globals := st.shared.globals.set idx.toNat d } }) := by
  unfold evalInstr
  simp only [hop, himm]
  rw [bind_of_ok (popOne_append rest d st)]
  rfl

theorem evalCall {i : Instr} {target : UInt32} {sig : Signature} (hop : i.operation = .call)
    (himm : i.imm = .call target) (hsig : p.signature? target.toNat = some sig)
    (stack : List Datum) :
    evalInstr p l oracle i stack
      = askTop oracle (callRequest p target.toNat) sig.params.length stack := by
  unfold evalInstr; simp only [hop, himm, hsig]

theorem evalCallIndirect {i : Instr} {typeIdx table : UInt32} {t : TypeEntry}
    (hop : i.operation = .callIndirect) (himm : i.imm = .callIndirect typeIdx table)
    (ht : p.types[typeIdx.toNat]? = some t) (stack : List Datum) :
    evalInstr p l oracle i stack
      = askTop oracle (.host (.callIndirect typeIdx.toNat)) (t.sig.params.length + 1) stack := by
  unfold evalInstr; simp only [hop, himm, ht]

theorem evalMemorySize {i : Instr} (hop : i.operation = .memorySize) (stack : List Datum) :
    evalInstr p l oracle i stack = askTop oracle (.host (.memory .memorySize)) 0 stack := by
  unfold evalInstr; simp only [hop]

theorem evalMemoryGrow {i : Instr} (hop : i.operation = .memoryGrow) (stack : List Datum) :
    evalInstr p l oracle i stack = askTop oracle (.host (.memory .memoryGrow)) 1 stack := by
  unfold evalInstr; simp only [hop]

theorem isPlain_of_isArithmetic {c : TrapCode} (h : c.isArithmetic = true) : c.isPlain = true := by
  rw [TrapCode.isPlain, h, Bool.or_true]

/-- A typed instruction does not get stuck. -/
theorem evalInstr_fits (hp : p.Formed) (horacle : oracle.Sound p l) {labels : Program.Labels}
    {i : Instr} {types : TypeStack} {out : Option TypeStack}
    (h : Program.TypedInstr p f labels i types out) {stack : List Datum}
    (hfits : FitsAll l types stack) {st : Store σ} (hst : st.Fits p l f) :
    Sat (evalInstr p l oracle i stack) st (FlowFits p l f labels out) := by
  cases h with
  | @numeric op rest hop =>
      obtain ⟨as, bs, rfl, has, hbs⟩ := hfits.of_append
      have hmem := mem_table_of_operation hop
      obtain ⟨t, ht, -⟩ := (shape_of_mem hmem).results
      have heq := @evalNumeric _ p l oracle _ _ hop as _ hbs.length_eq.symm st
      have hend := numericResult_end hmem ht hbs
      generalize numericResult l op bs = r at heq hend
      match r, hend with
      | .ok d, hd =>
          rw [ht]
          exact .of_eq heq ⟨⟨_, rfl, has.append (.single hd)⟩, hst⟩
      | .error (.trap c), hc => exact .of_eq heq ⟨isPlain_of_isArithmetic hc, hst.globals⟩
  | nop hop => exact .of_eq (evalNop hop stack st) ⟨⟨_, rfl, hfits⟩, hst⟩
  | unreachable hop => exact .of_eq (evalUnreachable hop stack st) ⟨rfl, hst.globals⟩
  | @constant v _ hv =>
      exact .of_eq (evalConstant hv stack st)
        ⟨⟨_, rfl, hfits.append (.single (Datum.fits_ofValue l v))⟩, hst⟩
  | drop hop =>
      obtain ⟨as, bs, rfl, has, hbs⟩ := hfits.of_append
      obtain ⟨d, rfl, -⟩ := hbs.of_single
      exact .of_eq (evalDrop hop as d st) ⟨⟨_, rfl, has⟩, hst⟩
  | @select t rest hop =>
      obtain ⟨as, bs, rfl, has, hbs⟩ := hfits.of_append
      cases hbs with
      | cons ha hbs =>
          cases hbs with
          | cons hb hbs =>
              obtain ⟨c, rfl, -⟩ := FitsAll.of_single hbs
              refine .of_eq (evalSelect hop as _ _ c st) ⟨⟨_, rfl, has.append (.single ?_)⟩, hst⟩
              split
              · exact ha
              · exact hb
  | localGet hop himm ht =>
      obtain ⟨d, hd, hfit⟩ := hst.locals.getElem? ht
      exact .of_eq (evalLocalGet hop himm stack hd) ⟨⟨_, rfl, hfits.append (.single hfit)⟩, hst⟩
  | localSet hop himm ht =>
      obtain ⟨as, bs, rfl, has, hbs⟩ := hfits.of_append
      obtain ⟨d, rfl, hd⟩ := hbs.of_single
      exact .of_eq (evalLocalSet hop himm as d st) ⟨⟨_, rfl, has⟩, hst.setLocal ht hd⟩
  | localTee hop himm ht =>
      obtain ⟨as, bs, rfl, has, hbs⟩ := hfits.of_append
      obtain ⟨d, rfl, hd⟩ := hbs.of_single
      exact .of_eq (evalLocalTee hop himm as d st)
        ⟨⟨_, rfl, has.append (.single hd)⟩, hst.setLocal ht hd⟩
  | globalGet hop himm hg =>
      obtain ⟨d, hd, hfit, -⟩ := getElem?_global hst.globals hg
      exact .of_eq (evalGlobalGet hop himm stack hd) ⟨⟨_, rfl, hfits.append (.single hfit)⟩, hst⟩
  | globalSet hop himm hg hmutable =>
      obtain ⟨as, bs, rfl, has, hbs⟩ := hfits.of_append
      obtain ⟨d, rfl, hd⟩ := hbs.of_single
      exact .of_eq (evalGlobalSet hop himm as d st)
        ⟨⟨_, rfl, has⟩, hst.locals, set_global hst.globals hg hmutable hd⟩
  | call hop himm hsig =>
      rw [evalCall hop himm hsig]
      exact askTop_fits horacle (requestSignature_callRequest hp hsig) rfl hfits hst
  | @callIndirect typeIdx table t rest hop himm ht herr =>
      rw [evalCallIndirect hop himm ht]
      have hr : requestSignature? p (.host (.callIndirect typeIdx.toNat))
          = some ⟨t.sig.params ++ [.i32], t.sig.results⟩ := by
        rw [requestSignature?, ht]; rfl
      exact askTop_fits horacle hr (by rw [List.length_append]; rfl) hfits hst
  | memorySize hop =>
      rw [evalMemorySize hop]
      have hr : requestSignature? p (.host (.memory .memorySize)) = some ⟨[], [.i32]⟩ := rfl
      exact askTop_fits horacle hr rfl (by rw [List.append_nil]; exact hfits) hst
  | memoryGrow hop =>
      rw [evalMemoryGrow hop]
      have hr : requestSignature? p (.host (.memory .memoryGrow)) = some ⟨[.i32], [.i32]⟩ := rfl
      exact askTop_fits horacle hr rfl hfits hst
  | br hop himm hlabel =>
      obtain ⟨as, bs, rfl, has, hbs⟩ := hfits.of_append
      exact .of_eq (evalBr hop himm _ st) ⟨⟨_, as, bs, hlabel, rfl, hbs⟩, hst⟩
  | brIf hop himm hlabel =>
      obtain ⟨as, bs, rfl, has, hbs⟩ := hfits.of_append
      obtain ⟨c, rfl, -⟩ := hbs.of_single
      refine .of_eq (evalBrIf hop himm as c st) ?_
      split
      · obtain ⟨below, carried, rfl, -, hcarried⟩ := has.of_append
        exact ⟨⟨_, below, carried, hlabel, rfl, hcarried⟩, hst⟩
      · exact ⟨⟨_, rfl, has⟩, hst⟩
  | @brTable depths fallback types rest hop himm hfallback hdepths =>
      obtain ⟨as, bs, rfl, has, hbs⟩ := hfits.of_append
      obtain ⟨c, rfl, -⟩ := hbs.of_single
      obtain ⟨below, carried, rfl, -, hcarried⟩ := has.of_append
      have hlabel : labels[(depths.getD c.x.toNat fallback).toNat]? = some types := by
        rw [List.getD_eq_getElem?_getD]
        cases hd : depths[c.x.toNat]? with
        | none => exact hfallback
        | some depth => exact hdepths depth (List.mem_of_getElem? hd)
      exact .of_eq (evalBrTable hop himm _ c st) ⟨⟨_, below, carried, hlabel, rfl, hcarried⟩, hst⟩
  | ret hop =>
      obtain ⟨as, bs, rfl, has, hbs⟩ := hfits.of_append
      exact .of_eq (evalRet hop _ st) ⟨⟨as, bs, rfl, hbs⟩, hst⟩

/-! ## Bodies -/

/-- Behind a construct: its label carries what the construct leaves. -/
theorem FlowFits.leave {labels : Program.Labels} {results : List ValueType} {outer : TypeStack}
    {below : List Datum} (hbelow : FitsAll l outer below) {r : Flow} {st : Store σ}
    (h : FlowFits p l f (results :: labels) (some results) (.ok r) st) :
    FlowFits p l f labels (some (outer ++ results)) (.ok (r.leave below results.length)) st := by
  cases r with
  | next stack =>
      obtain ⟨⟨types, htypes, hfits⟩, hst⟩ := h
      cases htypes
      exact ⟨⟨_, rfl, hbelow.append hfits⟩, hst⟩
  | branch depth stack =>
      obtain ⟨⟨types, rest, carried, hlabel, rfl, hfits⟩, hst⟩ := h
      cases depth with
      | zero =>
          cases hlabel
          rw [Flow.leave, top_append rest carried hfits.length_eq.symm]
          exact ⟨⟨_, rfl, hbelow.append hfits⟩, hst⟩
      | succ depth => exact ⟨⟨types, rest, carried, hlabel, rfl, hfits⟩, hst⟩
  | ret stack => exact h

/-- A property of the states of a repetition that ends with a property of results. -/
theorem untilDone_property {α β : Type} {step : α → Option (α ⊕ β)} {I : α → Prop} {Q : β → Prop}
    (hstep : ∀ a r, I a → step a = some r → match r with | .inl a' => I a' | .inr b => Q b)
    {a : α} {b : β} (ha : I a) (h : untilDone step a = some b) : Q b := by
  obtain ⟨n, hn⟩ := untilDone_eq_some_iff.mp h
  clear h
  induction n generalizing a with
  | zero => cases hn
  | succ n ih =>
      rw [within] at hn
      split at hn
      · cases hn
      · next next heq => exact ih (hstep a _ ha heq) hn
      · next done heq => cases hn; exact hstep a _ ha heq

/-- Behind a loop: every round starts with operands of the label's types. -/
theorem evalLoop_fits {labels : Program.Labels} {sig : Signature}
    {body : List Datum → Eval σ Flow}
    (hbody : ∀ args st, FitsAll l sig.params args → st.Fits p l f →
      Sat (body args) st (FlowFits p l f (sig.params :: labels) (some sig.results)))
    {args : List Datum} {st : Store σ} (hargs : FitsAll l sig.params args) (hst : st.Fits p l f) :
    Sat (evalLoop sig.params.length body args) st
      (FlowFits p l f (sig.results :: labels) (some sig.results)) := by
  intro r st' h
  refine untilDone_property (I := fun a => FitsAll l sig.params a.1 ∧ a.2.Fits p l f)
    (Q := fun r => FlowFits p l f (sig.results :: labels) (some sig.results) r.1 r.2) ?_
    ⟨hargs, hst⟩ h
  rintro ⟨args, st⟩ r ⟨hargs, hst⟩ hr
  obtain ⟨⟨e, st'⟩, hend, rfl⟩ := Option.map_eq_some_iff.mp hr
  have hflow := hbody args st hargs hst e st' hend
  cases e with
  | error e => exact hflow
  | ok flow =>
      cases flow with
      | next stack => exact hflow
      | ret stack => exact hflow
      | branch depth stack =>
          obtain ⟨⟨types, rest, carried, hlabel, rfl, hfits⟩, hst⟩ := hflow
          cases depth with
          | zero =>
              cases hlabel
              change FitsAll l sig.params (top sig.params.length (rest ++ carried)) ∧ _
              rw [top_append rest carried hfits.length_eq.symm]
              exact ⟨hfits, hst⟩
          | succ depth => exact ⟨⟨types, rest, carried, hlabel, rfl, hfits⟩, hst⟩

mutual

/-- A typed node does not get stuck. -/
theorem evalNode_fits (hp : p.Formed) (horacle : oracle.Sound p l) :
    (n : Node) → {labels : Program.Labels} → {types : TypeStack} → {out : Option TypeStack} →
    Program.TypedNode p f labels n types out → {stack : List Datum} → FitsAll l types stack →
    {st : Store σ} → st.Fits p l f →
    Sat (evalNode p l oracle n stack) st (FlowFits p l f labels out)
  | .instr i, labels, types, out, h, stack, hfits, st, hst => by
      cases h with
      | instr hi => rw [evalNode]; exact evalInstr_fits hp horacle hi hfits hst
  | .block loop sig body, labels, types, out, h, stack, hfits, st, hst => by
      cases h with
      | block hknown hbody =>
          obtain ⟨outer, args, rfl, houter, hargs⟩ := hfits.of_append
          rw [evalNode]
          refine .of_ok (split_append outer args hargs.length_eq.symm st) ?_
          refine Sat.bind (Q := FlowFits p l f (sig.results :: labels) (some sig.results)) ?_ ?_ ?_
          · cases loop with
            | false => exact evalSeq_fits hp horacle body hbody hargs hst
            | true =>
                exact evalLoop_fits (fun args st hargs hst =>
                  evalSeq_fits hp horacle body hbody hargs hst) hargs hst
          · exact fun flow st' hflow => .pure (hflow.leave houter)
          · exact fun e st' he => he
  | .ifThen sig body, labels, types, out, h, stack, hfits, st, hst => by
      cases h with
      | ifThen hknown heq hbody =>
          obtain ⟨below, cs, rfl, hbelow, hc⟩ := hfits.of_append
          obtain ⟨outer, args, rfl, houter, hargs⟩ := hbelow.of_append
          obtain ⟨c, rfl, -⟩ := hc.of_single
          rw [evalNode]
          refine .of_ok (popOne_append _ c st) ?_
          refine .of_ok (split_append outer args hargs.length_eq.symm st) ?_
          refine Sat.bind (Q := FlowFits p l f (sig.results :: labels) (some sig.results)) ?_ ?_ ?_
          · split
            · exact evalSeq_fits hp horacle body hbody hargs hst
            · exact .pure ⟨⟨_, rfl, heq ▸ hargs⟩, hst⟩
          · exact fun flow st' hflow => .pure (hflow.leave houter)
          · exact fun e st' he => he
  | .ifElse sig body alternative, labels, types, out, h, stack, hfits, st, hst => by
      cases h with
      | ifElse hknown hbody halternative =>
          obtain ⟨below, cs, rfl, hbelow, hc⟩ := hfits.of_append
          obtain ⟨outer, args, rfl, houter, hargs⟩ := hbelow.of_append
          obtain ⟨c, rfl, -⟩ := hc.of_single
          rw [evalNode]
          refine .of_ok (popOne_append _ c st) ?_
          refine .of_ok (split_append outer args hargs.length_eq.symm st) ?_
          refine Sat.bind (Q := FlowFits p l f (sig.results :: labels) (some sig.results)) ?_ ?_ ?_
          · split
            · exact evalSeq_fits hp horacle body hbody hargs hst
            · exact evalSeq_fits hp horacle alternative halternative hargs hst
          · exact fun flow st' hflow => .pure (hflow.leave houter)
          · exact fun e st' he => he

/-- A typed sequence does not get stuck. -/
theorem evalSeq_fits (hp : p.Formed) (horacle : oracle.Sound p l) :
    (ns : List Node) → {labels : Program.Labels} → {types : TypeStack} →
    {results : List ValueType} → Program.TypedSeq p f labels ns types results →
    {stack : List Datum} → FitsAll l types stack → {st : Store σ} → st.Fits p l f →
    Sat (evalSeq p l oracle ns stack) st (FlowFits p l f labels (some results))
  | [], labels, types, results, h, stack, hfits, st, hst => by
      cases h with
      | nil => rw [evalSeq]; exact .pure ⟨⟨_, rfl, hfits⟩, hst⟩
  | n :: ns, labels, types, results, h, stack, hfits, st, hst => by
      rw [evalSeq]
      cases h with
      | cons hn hns =>
          refine Sat.bind (evalNode_fits hp horacle n hn hfits hst) (fun flow st' hflow => ?_)
            (fun e st' he => he)
          cases flow with
          | next stack' =>
              obtain ⟨⟨mid, hmid, hfits'⟩, hst'⟩ := hflow
              cases hmid
              exact evalSeq_fits hp horacle ns hns hfits' hst'
          | branch depth stack' => exact .pure hflow
          | ret stack' => exact .pure hflow
      | last hn =>
          refine Sat.bind (evalNode_fits hp horacle n hn hfits hst) (fun flow st' hflow => ?_)
            (fun e st' he => he)
          cases flow with
          | next stack' =>
              obtain ⟨⟨mid, hmid, -⟩, -⟩ := hflow
              cases hmid
          | branch depth stack' => exact .pure hflow
          | ret stack' => exact .pure hflow

end

/-! ## Functions -/

/-- A function starts with locals of their types. -/
theorem initialLocals_fits {f : Function} {args : List Datum}
    (hlocals : ∃ declared, f.locals = f.type.params ++ declared)
    (hargs : FitsAll l f.type.params args) : FitsAll l f.locals (initialLocals l f args) := by
  obtain ⟨declared, hdeclared⟩ := hlocals
  rw [initialLocals, hdeclared, List.drop_left]
  exact hargs.append (FitsAll.zeros l declared)

/-- A checked function gives results of its types. -/
theorem evalFunction_fits (hp : p.Formed) (horacle : oracle.Sound p l) (hf : f ∈ p.funcs)
    {u : Unit} (hcheck : p.check f = .ok u) {args : List Datum}
    (hargs : FitsAll l f.type.params args) {shared shared' : Shared σ}
    (hshared : p.GlobalsFit l shared.globals) {answer : Except Stop (List Datum)}
    (h : evalFunction p l oracle f args shared = some (answer, shared')) :
    AnswerFits p l f.type.results answer shared' := by
  obtain ⟨body, hbody, htyped⟩ := Program.typedSeq_of_check_function (hp.body f hf) hcheck
  rw [evalFunction, hbody] at h
  obtain ⟨⟨r, st'⟩, hr, heq⟩ := Option.map_eq_some_iff.mp h
  cases heq
  have hst : Store.Fits p l f ⟨initialLocals l f args, shared⟩ :=
    ⟨initialLocals_fits (hp.funcLocals f hf) hargs, hshared⟩
  have hend := evalSeq_fits hp horacle body htyped .nil hst r st' hr
  cases r with
  | error e => exact hend
  | ok flow =>
      cases flow with
      | next stack =>
          obtain ⟨⟨types, htypes, hfits⟩, hst'⟩ := hend
          cases htypes
          refine ⟨?_, hst'.globals⟩
          change FitsAll l f.type.results (top f.type.results.length ([] ++ stack))
          rw [top_append [] stack hfits.length_eq.symm]
          exact hfits
      | branch depth stack =>
          obtain ⟨⟨types, rest, carried, hlabel, rfl, hfits⟩, hst'⟩ := hend
          cases depth with
          | zero =>
              cases hlabel
              refine ⟨?_, hst'.globals⟩
              change FitsAll l f.type.results (top f.type.results.length (rest ++ carried))
              rw [top_append rest carried hfits.length_eq.symm]
              exact hfits
          | succ depth => cases hlabel
      | ret stack =>
          obtain ⟨⟨rest, carried, rfl, hfits⟩, hst'⟩ := hend
          refine ⟨?_, hst'.globals⟩
          change FitsAll l f.type.results (top f.type.results.length (rest ++ carried))
          rw [top_append rest carried hfits.length_eq.symm]
          exact hfits

end Soundness

end Structured

end WasmShader
