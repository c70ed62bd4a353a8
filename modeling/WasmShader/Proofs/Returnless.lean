import WasmShader.Proofs.CallNesting
import WasmShader.Proofs.Instruments
import WasmShader.Proofs.StackFree

/-!
# Code without returns

The body of a block has no return: a return of the function is a terminator, and so is a branch to
the label of the function. Its code therefore has no return statement at any depth, and never leaves
the function of the block (`remains_stmts`).
-/

namespace WasmShader

open Emit

namespace Shader

/-- No return statement stands in the code, at any depth. -/
def Returnless (code : List Stmt) : Prop := ∀ values, ¬Within (.ret values) code

theorem Returnless.nil : Returnless [] := by
  rintro values (hmem | ⟨hmem, -, -⟩) <;> cases hmem

theorem returnless_iff {code : List Stmt} : Returnless code ↔
    ∀ st ∈ code, (∀ values, st ≠ .ret values) ∧ ∀ part ∈ st.parts, Returnless part := by
  constructor
  · exact fun h st hst => ⟨fun values heq => h values (.here (heq ▸ hst)),
      fun part hpart values hwithin => h values (.inner hst hpart hwithin)⟩
  · rintro h values (hmem | ⟨hmem, hpart, hwithin⟩)
    · exact (h _ hmem).1 values rfl
    · exact (h _ hmem).2 _ hpart values hwithin

theorem returnless_cons {st : Stmt} {rest : List Stmt} : Returnless (st :: rest) ↔
    ((∀ values, st ≠ .ret values) ∧ ∀ part ∈ st.parts, Returnless part) ∧ Returnless rest := by
  rw [returnless_iff, List.forall_mem_cons, ← returnless_iff]

theorem Returnless.of_mem {code : List Stmt} (h : Returnless code) {st : Stmt} (hst : st ∈ code) :
    Returnless [st] :=
  returnless_iff.mpr (List.forall_mem_singleton.mpr (returnless_iff.mp h st hst))

theorem returnless_append {code rest : List Stmt} :
    Returnless (code ++ rest) ↔ Returnless code ∧ Returnless rest := by
  rw [returnless_iff, List.forall_mem_append, ← returnless_iff, ← returnless_iff]

/-- Statements that have no statements and are no returns. -/
theorem Returnless.of_leaves {code : List Stmt}
    (h : ∀ st ∈ code, (∀ values, st ≠ .ret values) ∧ st.parts = []) : Returnless code :=
  returnless_iff.mpr fun st hst =>
    ⟨(h st hst).1, by rw [(h st hst).2]; exact List.forall_mem_nil _⟩

theorem Returnless.of_leaf {st : Stmt} (hret : ∀ values, st ≠ .ret values) (hparts : st.parts = []) :
    Returnless [st] :=
  .of_leaves (List.forall_mem_singleton.mpr ⟨hret, hparts⟩)

theorem returnless_block {label : String} {body : List Stmt} :
    Returnless [.block label body] ↔ Returnless body := by
  simp [returnless_cons, Stmt.parts, Returnless.nil]

theorem returnless_loop {label : String} {body : List Stmt} :
    Returnless [.loop label body] ↔ Returnless body := by
  simp [returnless_cons, Stmt.parts, Returnless.nil]

theorem returnless_ifElse {cond : Expr} {body alternative : List Stmt} :
    Returnless [.ifElse cond body alternative] ↔ Returnless body ∧ Returnless alternative := by
  simp [returnless_cons, Stmt.parts, Returnless.nil]

theorem returnless_switch {selector : Expr} {cases : List Case} {fallback : List Stmt} :
    Returnless [.switch selector cases fallback]
      ↔ (∀ c ∈ cases, Returnless c.body) ∧ Returnless fallback := by
  simp [returnless_cons, Stmt.parts, Returnless.nil, or_imp, forall_and]

end Shader

open Shader

/-! ## Emission -/

namespace Emit

theorem returnless_trapStmts (code : TrapCode) : Returnless (trapStmts code) := .of_leaf nofun rfl

theorem returnless_assign (name : String) (e : Expr) : Returnless [.assign name e] :=
  .of_leaf nofun rfl

theorem returnless_storeValue (l : Layout) (buffer : String) (place : Nat → Expr) (v : Expr)
    (t : ValueType) : Returnless (storeValue l buffer place v t) := by
  unfold storeValue
  dsimp only
  split <;> exact .of_leaves (by simp [Stmt.parts])

theorem returnless_checks {m : Mnemonic} {a b : Expr} {low : Lowered}
    (h : lowerI32 m a b = some low) : Returnless low.checks := by
  cases m <;> simp only [lowerI32, comparison?, unary?, Option.map_some, Option.some.injEq,
    reduceCtorEq] at h <;> subst h <;>
    simp [returnless_cons, Returnless.nil, trapIf, Stmt.parts]

theorem returnless_numericStmts (l : Layout) (op : NumericOp) (args : List Expr) (dst : String) :
    Returnless (numericStmts l op args dst) := by
  unfold numericStmts
  dsimp only
  split
  · exact returnless_assign _ _
  split
  · split
    · next low hlow =>
      exact returnless_append.mpr ⟨returnless_checks hlow, returnless_assign _ _⟩
    · exact returnless_assign _ _
  · split
    · exact .of_leaf nofun rfl
    · exact .of_leaf nofun rfl
    · split <;> exact returnless_assign _ _
  · split <;> exact returnless_assign _ _
  · split <;> exact returnless_assign _ _
  · exact returnless_assign _ _
  · exact returnless_assign _ _

section Steps

variable {ctx : Context} {f : WasmShader.Function} {labels : List Label}

theorem moveSlots_returnless (dst src : Nat) (ts : List ValueType) :
    Returns (moveSlots ctx dst src ts) Returnless := by
  induction ts generalizing dst src with
  | nil => exact .pure .nil
  | cons t ts ih =>
      rw [moveSlots]
      refine .ite (ih (dst + 1) (src + 1)) (.skip fun target => .skip fun source => ?_)
      refine .bind (ih (dst + 1) (src + 1)) fun rest hrest => .pure ?_
      exact returnless_append.mpr ⟨returnless_assign _ _, hrest⟩

/-- A branch returns from the function only if the label is that of the function. -/
theorem emitBranch_returnless (hlabels : ∀ l ∈ labels, l.kind ≠ .func) (depth : UInt32) :
    Returns (emitBranch ctx labels depth) Returnless := by
  have hjump {dst src : Nat} {ts : List ValueType} {st : Stmt} (hst : Returnless [st]) :
      Returns (do return (← moveSlots ctx dst src ts) ++ [st]) Returnless :=
    .bind (moveSlots_returnless dst src ts) fun moves hmoves =>
      .pure (returnless_append.mpr ⟨hmoves, hst⟩)
  unfold emitBranch
  split
  · exact .crash
  · next l hl =>
    refine .skip fun es => ?_
    split
    · next hfunc => exact absurd hfunc (hlabels l (List.mem_of_getElem? hl))
    · exact .ite .crash_bind (hjump (.of_leaf nofun rfl))
    · exact .ite .crash_bind (hjump (.of_leaf nofun rfl))

theorem emitCases_returnless (hlabels : ∀ l ∈ labels, l.kind ≠ .func) (i : Nat)
    (depths : List UInt32) :
    Returns (emitCases ctx labels i depths) fun cases => ∀ c ∈ cases, Returnless c.body := by
  induction depths generalizing i with
  | nil => exact .pure (List.forall_mem_nil _)
  | cons depth depths ih =>
      rw [emitCases]
      refine .bind (emitBranch_returnless hlabels depth) fun body hbody => ?_
      exact .bind (ih (i + 1)) fun rest hrest => .pure (List.forall_mem_cons.mpr ⟨hbody, hrest⟩)

theorem emitConstant_returnless (v : Value) : Returns (emitConstant ctx v) Returnless :=
  .skip fun _ => .pure (returnless_assign _ _)

theorem emitCall_returnless (target : Nat) : Returns (emitCall ctx f target) Returnless := by
  unfold emitCall
  dsimp only
  refine .ite (.skip fun _ => .pure (returnless_trapStmts _))
    (.ite (.skip fun _ => .pure (returnless_trapStmts _)) ?_)
  exact .skip fun _ => .skip fun _ => .pure (.of_leaf nofun rfl)

theorem emitInstr_returnless (hlabels : ∀ l ∈ labels, l.kind ≠ .func) {i : Instr}
    (hi : i.operation ≠ .ret) : Returns (emitInstr ctx f labels i) Returnless := by
  unfold emitInstr
  dsimp only
  split
  · exact .skip fun _ => .skip fun _ => .skip fun _ => .skip fun _ =>
      .pure (returnless_numericStmts _ _ _ _)
  · exact .pure .nil
  · exact .pure (returnless_trapStmts _)
  · exact emitBranch_returnless hlabels _
  · exact .skip fun _ => .bind (emitBranch_returnless hlabels _) fun body hbody =>
      .pure (returnless_ifElse.mpr ⟨hbody, .nil⟩)
  · exact .skip fun _ => .bind (emitBranch_returnless hlabels _) fun last hlast =>
      .bind (emitCases_returnless hlabels 0 _) fun cases hcases =>
        .pure (returnless_switch.mpr ⟨hcases, hlast⟩)
  · next hret => exact absurd hret hi
  · exact emitConstant_returnless _
  · exact emitConstant_returnless _
  · exact emitConstant_returnless _
  · exact emitConstant_returnless _
  · exact emitConstant_returnless _
  · exact .skip fun _ => .pure .nil
  · refine .skip fun es => .ite .crash_bind (.skip fun t => .skip fun vars => ?_)
    split
    · exact .skip fun _ => .pure (returnless_assign _ _)
    · exact .crash
  · exact .skip fun _ => .skip fun _ => .skip fun _ => .pure (returnless_assign _ _)
  · exact .skip fun _ => .skip fun _ => .pure (returnless_assign _ _)
  · refine .skip fun es => ?_
    split
    · exact .crash
    · exact .skip fun _ => .skip fun _ => .pure (returnless_assign _ _)
  · refine .skip fun r => ?_
    split
    · exact emitConstant_returnless _
    · exact .skip fun _ => .pure (returnless_assign _ _)
  · refine .skip fun r => ?_
    split
    · exact .crash
    · exact .skip fun _ => .skip fun _ => .pure (returnless_storeValue _ _ _ _ _)
  · exact emitCall_returnless _
  · exact .skip fun _ => .skip fun _ => .pure (returnless_trapStmts _)
  · exact .skip fun _ => .pure (returnless_trapStmts _)
  · exact .skip fun _ => .pure (returnless_trapStmts _)
  all_goals exact .throw _

mutual

theorem emitNode_returnless : (n : Node) → {labels : List Label} →
    (∀ l ∈ labels, l.kind ≠ .func) → (∀ i ∈ n.instrs, i.operation ≠ .ret) →
    Returns (emitNode ctx f labels n) Returnless
  | .instr i, labels, hlabels, h => by
      rw [emitNode]
      exact emitInstr_returnless hlabels (h i (by rw [Node.instrs]; exact List.mem_singleton_self i))
  | .block loop sig body, labels, hlabels, h => by
      rw [Node.instrs] at h
      rw [emitNode]
      refine .skip fun outer => .skip fun name => ?_
      have hkind : (if loop = true then LabelKind.loop else .block) ≠ .func := by
        cases loop <;> nofun
      refine .bind (emitSeq_returnless body (List.forall_mem_cons.mpr ⟨hkind, hlabels⟩) h)
        fun inner hinner => .skip fun _ => .pure ?_
      cases loop with
      | false => exact returnless_block.mpr hinner
      | true => exact returnless_loop.mpr (returnless_append.mpr ⟨hinner, .of_leaf nofun rfl⟩)
  | .ifThen sig body, labels, hlabels, h => by
      rw [Node.instrs] at h
      rw [emitNode]
      refine .skip fun cond => .skip fun outer => .skip fun name => ?_
      refine .bind (emitSeq_returnless body (List.forall_mem_cons.mpr ⟨nofun, hlabels⟩) h)
        fun inner hinner => .skip fun _ => .pure ?_
      exact returnless_block.mpr (returnless_ifElse.mpr ⟨hinner, .nil⟩)
  | .ifElse sig body alternative, labels, hlabels, h => by
      rw [Node.instrs] at h
      rw [emitNode]
      refine .skip fun cond => .skip fun es => .skip fun outer => .skip fun name => ?_
      refine .bind (emitSeq_returnless body (List.forall_mem_cons.mpr ⟨nofun, hlabels⟩)
        fun i hi => h i (List.mem_append_left _ hi)) fun inner hinner => .skip fun _ => ?_
      refine .bind (emitSeq_returnless alternative (List.forall_mem_cons.mpr ⟨nofun, hlabels⟩)
        fun i hi => h i (List.mem_append_right _ hi)) fun other hother => .skip fun _ => .pure ?_
      exact returnless_block.mpr (returnless_ifElse.mpr ⟨hinner, hother⟩)

/-- Instructions that do not return become code that does not, where no label is that of the
function. -/
theorem emitSeq_returnless : (ns : List Node) → {labels : List Label} →
    (∀ l ∈ labels, l.kind ≠ .func) → (∀ i ∈ Body.instrs ns, i.operation ≠ .ret) →
    Returns (emitSeq ctx f labels ns) Returnless
  | [], labels, _, _ => by
      rw [emitSeq]
      exact .pure .nil
  | n :: ns, labels, hlabels, h => by
      rw [Body.instrs] at h
      rw [emitSeq]
      exact .bind (emitNode_returnless n hlabels fun i hi => h i (List.mem_append_left _ hi))
        fun first hfirst => .bind (emitSeq_returnless ns hlabels
          fun i hi => h i (List.mem_append_right _ hi)) fun rest hrest =>
          .pure (returnless_append.mpr ⟨hfirst, hrest⟩)

end

end Steps

end Emit

/-! ## Runs -/

namespace Execution

open Exec

/-- The flow is no return. -/
def Flow.Stays (flow : Flow) : Prop := ∀ values, flow ≠ .ret values

namespace Flow

theorem stays_next : next.Stays := nofun

theorem stays_leave (label : String) : (leave label).Stays := nofun

theorem stays_again (label : String) : (again label).Stays := nofun

end Flow

/-- Wherever the run ends without a stop, it does not return. -/
def Remains (x : Exec Flow) : Prop :=
  ∀ s flow s', outcome x s = some (.ok flow, s') → flow.Stays

namespace Remains

theorem pure {flow : Flow} (h : flow.Stays) : Remains (Pure.pure flow) := by
  intro s flow' s' heq
  cases heq
  exact h

theorem throw (e : Stop) : Remains (MonadExcept.throw e) := by
  intro s flow s' heq
  cases e <;> cases heq

theorem bind {α : Type} {x : Exec α} {k : α → Exec Flow} (h : ∀ a, Remains (k a)) :
    Remains (x >>= k) := by
  intro s flow s' heq
  rw [outcome_bind] at heq
  obtain ⟨⟨r, s₁⟩, -, hk⟩ := Option.bind_eq_some_iff.mp heq
  cases r with
  | error e => cases hk
  | ok a => exact h a s₁ flow s' hk

theorem andThen {x : Exec Flow} {k : Flow → Exec Flow} (hx : Remains x)
    (h : ∀ flow, flow.Stays → Remains (k flow)) : Remains (x >>= k) := by
  intro s flow s' heq
  rw [outcome_bind] at heq
  obtain ⟨⟨r, s₁⟩, hr, hk⟩ := Option.bind_eq_some_iff.mp heq
  cases r with
  | error e => cases hk
  | ok flow₁ => exact h flow₁ (hx s flow₁ s₁ hr) s₁ flow s' hk

end Remains

theorem remains_simple (env : Env) {st : Stmt} (hsimple : st.isSimple)
    (h : ∀ values, st ≠ .ret values) : Remains (stmt env 1 st) := by
  cases st with
  | ifElse | block | loop | switch | call => cases hsimple
  | assign name e => rw [stmt]; exact .bind fun _ => .bind fun _ => .pure Flow.stays_next
  | store buffer index e =>
      rw [stmt]
      exact .bind fun _ => .bind fun _ => .bind fun _ => .pure Flow.stays_next
  | leave label => rw [stmt]; exact .pure (Flow.stays_leave _)
  | again label => rw [stmt]; exact .pure (Flow.stays_again _)
  | ret es => exact absurd rfl (h es)
  | trap code => rw [stmt]; exact .bind fun _ => .throw _
  | absent => rw [stmt]; exact .throw _

/-- The steps of code without return statements do not return. The functions that it calls do: their
code is outside. -/
theorem sustained_remains (env : Env) :
    Sustained bare bare env env 0 (fun inside st => inside = true → Returnless [st])
      (fun inside _ => inside = false) (fun inside flow => inside = true → flow.Stays)
      (fun inside x _ => inside = true → Remains x) (fun _ {_} _ _ => True) where
  exe := rfl
  part hst hpart _ hs hin := ((returnless_cons.mp (hst hin)).1.2 _ hpart).of_mem hs
  body hf _ _ hin := by
    rw [hf] at hin
    cases hin
  reached := trivial
  checkCancelled := trivial
  dispatch _ _ := trivial
  called _ _ := ⟨false, rfl, fun _ _ _ => trivial⟩
  simple hst hsimple hin := remains_simple env hsimple (returnless_cons.mp (hst hin)).1.1
  test _ _ := trivial
  undefined _ _ := .throw _
  values _ := trivial
  receive _ _ := trivial
  framed _ _ _ := trivial
  next _ := Flow.stays_next
  pure h hin := .pure (h hin)
  bind _ hk hin := .bind fun a => hk a hin
  andThen hx hk hin := (hx hin).andThen fun flow hflow => hk flow (fun _ => hflow) hin
  outOfFuel _ _ _ := .throw _
  noCall _ _ := trivial

/-- Code without return statements does not return. -/
theorem remains_stmts (env : Env) (n : Nat) {ss : List Stmt} (h : Returnless ss) :
    Remains (stmts env n ss) :=
  ((sustained_remains env).run_bare n true).1 ss (fun _ hs _ => h.of_mem hs) rfl

end Execution

end WasmShader
