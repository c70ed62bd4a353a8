import WasmShader.Machine.Frame
import WasmShader.Proofs.InstrCode

/-!
# Blocks and how they are left

A block is evaluated like any body; its terminator then says how it is left: for another block
of the machine, for a callee or the host with a block to come back to, or back to the caller.
What a block needs to know of the others is the operands that they are entered with
(`Machine.entryTypes?`); `Block.Typed` says that the body and the terminator fit these.

A typed block is always left in one of these ways, or it traps.
-/

namespace WasmShader

open Execution (Datum FitsAll)

/-- The operands on entry to a block of the machine. -/
def Machine.entryTypes? (m : Machine) (index : Nat) : Option (List ValueType) :=
  m.blocks[index]?.map (·.entry)

/-! ## Typed blocks -/

/-- The types that an edge carries over. -/
def Edge.types (e : Edge) (stack : TypeStack) : List ValueType :=
  stack.take e.keep ++ stack.top e.carry

/-- The target of the edge is entered with what it carries over, of different operands. -/
structure Edge.Typed (m : Machine) (stack : TypeStack) (e : Edge) : Prop where
  room : e.keep + e.carry ≤ stack.length
  target : m.entryTypes? e.target = some (e.types stack)

theorem Edge.Typed.keep {m : Machine} {stack : TypeStack} {e : Edge} (h : e.Typed m stack) :
    e.keep ≤ stack.length := Nat.le_trans (Nat.le_add_right ..) h.room

theorem Edge.Typed.carry {m : Machine} {stack : TypeStack} {e : Edge} (h : e.Typed m stack) :
    e.carry ≤ stack.length := Nat.le_trans (Nat.le_add_left ..) h.room

/-- What control is transferred to: a function, or the host. -/
inductive Callee
  | func (fn : Nat)
  | host (func : HostFunc)

/-- What a callee takes and gives. -/
structure Callee.Takes (p : Program) (sig : Signature) (callee : Callee) : Prop where
  known : sig.Known
  func : ∀ fn, callee = .func fn → (p.func? fn).map (·.type) = some sig
  host : ∀ h, callee = .host h →
    Structured.requestSignature? p (.host h.key) = some sig ∧ h.params = sig.params
      ∧ h.results = sig.results

/-- The terminator fits the operands in front of it. -/
inductive Terminator.Typed (p : Program) (m : Machine) : TypeStack → Terminator → Prop
  | goto {stack : TypeStack} {e : Edge} : e.Typed m stack → Typed p m stack (.goto e)
  | branch {rest : TypeStack} {taken notTaken : Edge} : taken.Typed m rest →
      notTaken.Typed m rest → Typed p m (rest ++ [.i32]) (.branch taken notTaken)
  | switch {rest : TypeStack} {cases : List Edge} {fallback : Edge} :
      (∀ e ∈ cases, e.Typed m rest) → fallback.Typed m rest →
      Typed p m (rest ++ [.i32]) (.switch cases fallback)
  | call {rest : TypeStack} {callee : Nat} {sig : Signature} {next : Nat} :
      Callee.Takes p sig (.func callee) → m.entryTypes? next = some (rest ++ sig.results) →
      Typed p m (rest ++ sig.params) (.call callee sig.params sig.results next)
  | host {rest : TypeStack} {h : HostFunc} {sig : Signature} {next : Nat} :
      Callee.Takes p sig (.host h) → m.entryTypes? next = some (rest ++ sig.results) →
      Typed p m (rest ++ sig.params) (.host h sig.params sig.results next)
  | ret {rest : TypeStack} :
      Typed p m (rest ++ m.func.type.results) (.ret m.func.type.results)
  | trap {stack : TypeStack} : Typed p m stack (.trap .unreachable)

/-- The block's code fits the operands on its entry and what its terminator leads to. -/
structure Block.Typed (p : Program) (a : Analysis) (kept : Nat → Prop) (m : Machine) (b : Block) :
    Prop where
  body : Program.TypedSeq p m.func [] b.body b.entry b.stack
  direct : ∀ i ∈ Body.instrs b.body, i.IsDirect p a kept m.func.index
  stays : ∀ i ∈ Body.instrs b.body, i.operation ≠ .ret
  known : AllKnown b.stack
  term : b.term.Typed p m b.stack

namespace Structured

variable {σ : Type}

/-! ## Leaving a block -/

/-- How a block is left. -/
inductive Exit
  | goto (target : Nat) (stack : List Datum)
  /-- The block to come back to gets the results on top of `rest`. -/
  | transfer (callee : Callee) (sig : Signature) (next : Nat) (rest args : List Datum)
  | ret (results : List Datum)

/-- The edge as a way to leave a block. -/
def Exit.ofEdge (e : Edge) (stack : List Datum) : Exit :=
  .goto e.target (stack.take e.keep ++ top e.carry stack)

/-- What a terminator does. -/
def exitBy (stack : List Datum) : Terminator → Eval σ Exit
  | .goto e => return .ofEdge e stack
  | .branch taken notTaken => do
    let (rest, c) ← popOne stack
    return .ofEdge (if c.truth then taken else notTaken) rest
  | .switch cases fallback => do
    let (rest, c) ← popOne stack
    return .ofEdge (cases.getD c.x.toNat fallback) rest
  | .call callee args results next => do
    let (rest, operands) ← split args.length stack
    return .transfer (.func callee) ⟨args, results⟩ next rest operands
  | .host func args results next => do
    let (rest, operands) ← split args.length stack
    return .transfer (.host func) ⟨args, results⟩ next rest operands
  | .ret results => return .ret (top results.length stack)
  | .trap code => throw (.trap code)

/-- Evaluates a block up to where it is left. -/
noncomputable def evalBlock (p : Program) (l : Layout) (oracle : Oracle σ) (b : Block) (stack : List Datum) :
    Eval σ Exit := do
  match ← evalSeq p l oracle b.body stack with
  | .next stack => exitBy stack b.term
  | _ => throw .stuck

theorem split_store {n : Nat} {stack : List Datum} {st : Store σ}
    {r : Ending (Store σ) (List Datum × List Datum)} (h : split n stack st = some r) :
    r.2 = st := by
  unfold split at h
  split at h <;> cases h <;> rfl

/-- A terminator changes neither locals nor globals. -/
theorem exitBy_store {stack : List Datum} {t : Terminator} {st : Store σ}
    {r : Ending (Store σ) Exit} (h : exitBy stack t st = some r) : r.2 = st := by
  have hbind {α : Type} {x : Eval σ α} (hx : ∀ r, x st = some r → r.2 = st)
      {k : α → Eval σ Exit} (hk : ∀ a r, k a st = some r → r.2 = st) :
      ∀ r, (x >>= k) st = some r → r.2 = st := by
    intro r hr
    rw [bind_apply] at hr
    obtain ⟨⟨a, st'⟩, hx', hr⟩ := Option.bind_eq_some_iff.mp hr
    obtain rfl : st' = st := hx _ hx'
    cases a with
    | error e => cases hr; rfl
    | ok a => exact hk a r hr
  have hpure (exit : Exit) : ∀ r, (pure exit : Eval σ Exit) st = some r → r.2 = st := by
    rintro r ⟨⟩
    rfl
  have hpop : ∀ r, (popOne stack : Eval σ _) st = some r → r.2 = st := by
    intro r hr
    unfold popOne at hr
    rw [bind_apply] at hr
    obtain ⟨⟨a, st'⟩, hsplit, hr⟩ := Option.bind_eq_some_iff.mp hr
    obtain rfl : st' = st := split_store hsplit
    cases a with
    | error e => cases hr; rfl
    | ok a =>
        dsimp only at hr
        split at hr <;> cases hr <;> rfl
  cases t with
  | goto e => exact hpure _ r h
  | branch taken notTaken => exact hbind hpop (fun _ => hpure _) r h
  | switch cases fallback => exact hbind hpop (fun _ => hpure _) r h
  | call callee args results next => exact hbind (fun _ => split_store) (fun _ => hpure _) r h
  | host func args results next => exact hbind (fun _ => split_store) (fun _ => hpure _) r h
  | ret results => exact hpure _ r h
  | trap code => cases h; rfl

/-- Goes on with a terminator behind the code of a block. -/
def atTerminator (t : Terminator) :
    Ending (Store σ) Flow → Option (Ending (Store σ) Exit)
  | (.ok (.next stack), st) => exitBy stack t st
  | (.ok _, st) => some (.error .stuck, st)
  | (.error e, st) => some (.error e, st)

theorem evalBlock_eq (p : Program) (l : Layout) (oracle : Oracle σ) (b : Block)
    (stack : List Datum) (st : Store σ) :
    evalBlock p l oracle b stack st
      = (evalSeq p l oracle b.body stack st).bind (atTerminator b.term) := by
  rw [evalBlock, bind_apply]
  congr 1
  funext r
  obtain ⟨r, st'⟩ := r
  cases r with
  | error e => rfl
  | ok flow => cases flow <;> rfl

/-- What is known of the end of a typed block. -/
def ExitFits (p : Program) (l : Layout) (m : Machine) : Except Stop Exit → Store σ → Prop
  | .ok (.goto target stack), st =>
    (∃ types, m.entryTypes? target = some types ∧ FitsAll l types stack) ∧ st.Fits p l m.func
  | .ok (.transfer callee sig next rest args), st =>
    (∃ types, m.entryTypes? next = some (types ++ sig.results) ∧ FitsAll l types rest)
      ∧ callee.Takes p sig ∧ FitsAll l sig.params args ∧ st.Fits p l m.func
  | .ok (.ret results), st => FitsAll l m.func.type.results results ∧ st.Fits p l m.func
  | .error e, st => e.IsProper ∧ p.GlobalsFit l st.shared.globals

/-! ## Code without returns -/

theorem Sat.throw {α : Type} {e : Stop} {st : Store σ} {Q : Except Stop α → Store σ → Prop}
    (h : Q (.error e) st) : Sat (throw e : Eval σ α) st Q := by
  intro r st' hr
  cases hr
  exact h

/-- The evaluation never returns from the function. -/
def Stays (x : Eval σ Flow) : Prop := ∀ st, Sat x st fun r _ => ∀ stack, r ≠ .ok (.ret stack)

namespace Stays

variable {α : Type}

theorem pure {flow : Flow} (h : ∀ stack, flow ≠ .ret stack) : Stays (Pure.pure flow : Eval σ Flow) :=
  fun _ => .pure fun stack heq => h stack (Except.ok.inj heq)

theorem throw (e : Stop) : Stays (throw e : Eval σ Flow) :=
  fun _ => .throw nofun

theorem bind {x : Eval σ α} {k : α → Eval σ Flow} (h : ∀ a, Stays (k a)) : Stays (x >>= k) :=
  fun _ => Sat.bind (Q := fun _ _ => True) (fun _ _ _ => trivial) (fun a st' _ => h a st') nofun

/-- Evaluation that goes on behind another only as long as that goes on. -/
theorem andThen {x : Eval σ Flow} {k : Flow → Eval σ Flow} (hx : Stays x)
    (hk : ∀ flow, (∀ stack, flow ≠ .ret stack) → Stays (k flow)) : Stays (x >>= k) :=
  fun st => (hx st).bind (fun flow st' h => hk flow (fun stack heq => h stack (by rw [heq])) st')
    nofun

theorem ite {c : Prop} [Decidable c] {x y : Eval σ Flow} (hx : Stays x) (hy : Stays y) :
    Stays (if c then x else y) := by
  split
  · exact hx
  · exact hy

end Stays

section Stays

variable {p : Program} {l : Layout} {oracle : Oracle σ}

theorem evalInstr_stays {i : Instr} (h : i.operation ≠ .ret) (stack : List Datum) :
    Stays (evalInstr p l oracle i stack) := by
  unfold evalInstr
  generalize i.operation = op at h
  generalize i.imm = imm
  dsimp only
  split
  all_goals first | exact absurd rfl h | skip
  all_goals repeat' first
    | exact .pure fun _ heq => by cases heq
    | exact .pure fun _ heq => by split at heq <;> cases heq
    | exact .throw _
    | split
    | refine .bind fun _ => ?_

theorem leave_ne_ret {flow : Flow} (h : ∀ stack, flow ≠ .ret stack) (outer : List Datum) (n : Nat) :
    ∀ stack, flow.leave outer n ≠ .ret stack := by
  intro stack heq
  cases flow with
  | next stack' => cases heq
  | branch depth stack' => cases depth <;> cases heq
  | ret stack' => exact h stack' rfl

theorem evalLoop_stays {n : Nat} {body : List Datum → Eval σ Flow} (h : ∀ args, Stays (body args))
    (args : List Datum) : Stays (evalLoop n body args) := by
  intro st r st' hr
  refine untilDone_property (I := fun _ => True)
    (Q := fun (x : Ending (Store σ) Flow) => ∀ stack, x.1 ≠ .ok (.ret stack))
    (fun (args, st) r _ hstep => ?_) trivial hr
  obtain ⟨⟨flow, st₁⟩, hbody, rfl⟩ := Option.map_eq_some_iff.mp hstep
  have hflow := h args st flow st₁ hbody
  match flow with
  | .ok (.branch 0 stack) => exact trivial
  | .ok (.next stack) => exact hflow
  | .ok (.branch (depth + 1) stack) => exact hflow
  | .ok (.ret stack) => exact hflow
  | .error e => exact hflow

mutual

theorem evalNode_stays : (n : Node) → (∀ i ∈ n.instrs, i.operation ≠ .ret) →
    (stack : List Datum) → Stays (evalNode p l oracle n stack)
  | .instr i, h, stack => by
      rw [evalNode]
      exact evalInstr_stays (h i (by rw [Node.instrs]; exact List.mem_singleton.mpr rfl)) stack
  | .block loop sig body, h, stack => by
      rw [Node.instrs] at h
      rw [evalNode]
      refine .bind fun (outer, args) => .andThen ?_ fun flow hflow =>
        .pure (leave_ne_ret hflow _ _)
      exact .ite (evalLoop_stays (evalSeq_stays body h) args) (evalSeq_stays body h args)
  | .ifThen sig body, h, stack => by
      rw [Node.instrs] at h
      rw [evalNode]
      refine .bind fun (stack, c) => .bind fun (outer, args) => .andThen ?_ fun flow hflow =>
        .pure (leave_ne_ret hflow _ _)
      exact .ite (evalSeq_stays body h args) (.pure nofun)
  | .ifElse sig body alternative, h, stack => by
      rw [Node.instrs] at h
      rw [evalNode]
      refine .bind fun (stack, c) => .bind fun (outer, args) => .andThen ?_ fun flow hflow =>
        .pure (leave_ne_ret hflow _ _)
      exact .ite (evalSeq_stays body (fun i hi => h i (List.mem_append_left _ hi)) args)
        (evalSeq_stays alternative (fun i hi => h i (List.mem_append_right _ hi)) args)

theorem evalSeq_stays : (ns : List Node) → (∀ i ∈ Body.instrs ns, i.operation ≠ .ret) →
    (stack : List Datum) → Stays (evalSeq p l oracle ns stack)
  | [], _, stack => by
      rw [evalSeq]
      exact .pure nofun
  | n :: ns, h, stack => by
      rw [Body.instrs] at h
      rw [evalSeq]
      refine .andThen (evalNode_stays n (fun i hi => h i (List.mem_append_left _ hi)) stack)
        fun flow hflow => ?_
      cases flow with
      | next stack' =>
          exact evalSeq_stays ns (fun i hi => h i (List.mem_append_right _ hi)) stack'
      | branch depth stack' => exact .pure nofun
      | ret stack' => exact absurd rfl (hflow stack')

end

end Stays

/-! ## Typed blocks are left properly -/

section Fits

variable {p : Program} {l : Layout} {oracle : Oracle σ} {m : Machine}

theorem top_fits {types : TypeStack} {stack : List Datum} (h : FitsAll l types stack) (n : Nat) :
    FitsAll l (types.top n) (top n stack) := by
  rw [TypeStack.top, top, h.length_eq]
  exact List.forall₂_drop _ h

theorem ofEdge_fits {types : TypeStack} {e : Edge} (he : e.Typed m types) {stack : List Datum}
    (hfits : FitsAll l types stack) {st : Store σ} (hst : st.Fits p l m.func) :
    ExitFits p l m (.ok (.ofEdge e stack)) st :=
  ⟨⟨_, he.target, FitsAll.append (List.forall₂_take _ hfits) (top_fits hfits e.carry)⟩, hst⟩

theorem exitBy_fits {types : TypeStack} {t : Terminator} (h : t.Typed p m types)
    {stack : List Datum} (hfits : FitsAll l types stack) {st : Store σ} (hst : st.Fits p l m.func) :
    Sat (exitBy stack t) st (ExitFits p l m) := by
  cases h with
  | goto he => exact .pure (ofEdge_fits he hfits hst)
  | branch ht hf =>
      obtain ⟨rest, bs, rfl, hrest, hbs⟩ := hfits.of_append
      obtain ⟨c, rfl, -⟩ := hbs.of_single
      refine .of_ok (popOne_append rest c st) (.pure ?_)
      split
      · exact ofEdge_fits ht hrest hst
      · exact ofEdge_fits hf hrest hst
  | @switch _ cases fallback hcases hlast =>
      obtain ⟨rest, bs, rfl, hrest, hbs⟩ := hfits.of_append
      obtain ⟨c, rfl, -⟩ := hbs.of_single
      refine .of_ok (popOne_append rest c st) (.pure ?_)
      rw [List.getD_eq_getElem?_getD]
      cases hget : cases[c.x.toNat]? with
      | none => exact ofEdge_fits hlast hrest hst
      | some e => exact ofEdge_fits (hcases e (List.mem_of_getElem? hget)) hrest hst
  | call htakes hnext =>
      obtain ⟨rest, args, rfl, hrest, hargs⟩ := hfits.of_append
      refine .of_ok (split_append rest args hargs.length_eq.symm st) (.pure ?_)
      exact ⟨⟨_, hnext, hrest⟩, htakes, hargs, hst⟩
  | host htakes hnext =>
      obtain ⟨rest, args, rfl, hrest, hargs⟩ := hfits.of_append
      refine .of_ok (split_append rest args hargs.length_eq.symm st) (.pure ?_)
      exact ⟨⟨_, hnext, hrest⟩, htakes, hargs, hst⟩
  | ret =>
      obtain ⟨rest, results, rfl, -, hresults⟩ := hfits.of_append
      refine .pure ⟨?_, hst⟩
      rw [top_append rest results hresults.length_eq.symm]
      exact hresults
  | trap => exact .throw ⟨rfl, hst.globals⟩

/-- Behind a typed block is what its terminator leads to. -/
theorem evalBlock_fits (hp : p.Formed) (horacle : oracle.Sound p l) {a : Analysis}
    {kept : Nat → Prop} {b : Block} (hb : b.Typed p a kept m) {stack : List Datum}
    (hfits : FitsAll l b.entry stack) {st : Store σ} (hst : st.Fits p l m.func) :
    Sat (evalBlock p l oracle b stack) st (ExitFits p l m) := by
  have hflow : Sat (evalSeq p l oracle b.body stack) st fun r st' =>
      FlowFits p l m.func [] (some b.stack) r st' ∧ ∀ stack', r ≠ .ok (.ret stack') :=
    fun r st' hr => ⟨evalSeq_fits hp horacle b.body hb.body hfits hst r st' hr,
      evalSeq_stays b.body hb.stays stack st r st' hr⟩
  refine hflow.bind (fun flow st' h => ?_) (fun e st' h => h.1)
  cases flow with
  | next stack' =>
      obtain ⟨⟨⟨types, htypes, hfits'⟩, hst'⟩, -⟩ := h
      cases htypes
      exact exitBy_fits hb.term hfits' hst'
  | branch depth stack' =>
      obtain ⟨⟨⟨types, below, carried, hlabel, -⟩, -⟩, -⟩ := h
      cases hlabel
  | ret stack' => exact absurd rfl (h.2 stack')

end Fits

end Structured

end WasmShader
