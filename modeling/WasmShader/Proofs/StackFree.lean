import WasmShader.Proofs.LaneCode

/-!
# Code that leaves the stack alone

The code of direct forms, and that of the bodies of blocks, works on variables, globals and io
words: it reads and writes no word of the stack, and does not assign to the variable with the stack
pointer (`StmtsApart`). What it does therefore cannot depend on the words of the stack, whatever
these are. As in `LaneCode`, nothing is asked of what the code is emitted from.
-/

namespace WasmShader

open Emit

/-! ## Code apart from the stack -/

namespace Shader

mutual

/-- The expression reads no word of the stack. -/
@[grind] def Expr.Apart : Expr → Prop
  | .lit _ _ | .var _ | .laneIndex | .absent => True
  | .load buffer index => buffer ≠ stackBuffer ∧ index.Apart
  | .binary _ left right => left.Apart ∧ right.Apart
  | .unary _ x | .extract x _ | .bitcast _ x | .convert _ x => x.Apart
  | .select cond onTrue onFalse => cond.Apart ∧ onTrue.Apart ∧ onFalse.Apart
  | .compose _ parts => AllApart parts
  | .intrinsic _ args _ _ => AllApart args

@[grind] def AllApart : List Expr → Prop
  | [] => True
  | e :: es => e.Apart ∧ AllApart es

end

mutual

/-- The statement reads and writes no word of the stack, and does not assign to the variable with the
stack pointer. -/
@[grind] def Stmt.Apart : Stmt → Prop
  | .assign name e => name ≠ spVar ∧ e.Apart
  | .store buffer index e => buffer ≠ stackBuffer ∧ index.Apart ∧ e.Apart
  | .ifElse cond body alternative => cond.Apart ∧ StmtsApart body ∧ StmtsApart alternative
  | .block _ body | .loop _ body => StmtsApart body
  | .leave _ | .again _ | .trap _ | .absent => True
  | .switch selector cases fallback =>
    selector.Apart ∧ CasesApart cases ∧ StmtsApart fallback
  | .ret values => AllApart values
  | .call _ args results => AllApart args ∧ ∀ r ∈ results, r ≠ spVar

@[grind] def StmtsApart : List Stmt → Prop
  | [] => True
  | s :: ss => s.Apart ∧ StmtsApart ss

@[grind] def CasesApart : List Case → Prop
  | [] => True
  | .mk _ body :: cs => StmtsApart body ∧ CasesApart cs

end

theorem allApart_iff {es : List Expr} : AllApart es ↔ ∀ e ∈ es, e.Apart := by
  induction es with
  | nil => simp [AllApart]
  | cons e es ih => simp [AllApart, ih]

theorem stmtsApart_iff {ss : List Stmt} : StmtsApart ss ↔ ∀ s ∈ ss, s.Apart := by
  induction ss with
  | nil => simp [StmtsApart]
  | cons s ss ih => simp [StmtsApart, ih]

theorem casesApart_iff {cs : List Case} : CasesApart cs ↔ ∀ c ∈ cs, StmtsApart c.body := by
  induction cs with
  | nil => simp [CasesApart]
  | cons c cs ih =>
      obtain ⟨values, body⟩ := c
      simp [CasesApart, Case.body, ih]

theorem stmtsApart_append {ss ts : List Stmt} :
    StmtsApart (ss ++ ts) ↔ StmtsApart ss ∧ StmtsApart ts := by
  simp only [stmtsApart_iff, List.mem_append, or_imp, forall_and]

theorem stmtsApart_singleton {s : Stmt} : StmtsApart [s] ↔ s.Apart := by
  simp [StmtsApart]

end Shader

open Shader

namespace Emit

/-! ## Values -/

theorem ne_spVar_of_isWork {name : String} (h : IsWork name) : name ≠ spVar :=
  fun heq => not_isWork_spVar (heq ▸ h)

theorem apart_u32 (v : UInt32) : (Expr.u32 v).Apart := by simp only [Expr.u32, Expr.Apart]

theorem apart_isNonzero {e : Expr} (h : e.Apart) : e.isNonzero.Apart := by
  simp only [Expr.isNonzero, Expr.Apart]
  exact ⟨h, apart_u32 0⟩

theorem apart_offset {base : Expr} (h : base.Apart) (off : UInt32) : (offset base off).Apart := by
  unfold offset
  split
  · exact h
  · rw [Expr.Apart]
    exact ⟨h, apart_u32 off⟩

theorem apart_var (name : String) : (Expr.var name).Apart := by
  rw [Expr.Apart]
  trivial

theorem apart_baseWord (base : String) (off k : Nat) : (baseWord base off k).Apart :=
  apart_offset (apart_var base) _

theorem apart_top : (Expr.binary .add (.var dataBase) (.var spVar)).Apart := by
  rw [Expr.Apart]
  exact ⟨apart_var _, apart_var _⟩

theorem apart_dataAt (off : UInt32) : (dataAt off).Apart := apart_offset apart_top off

theorem apart_loadValue (l : Layout) {buffer : String} (hbuffer : buffer ≠ stackBuffer)
    {place : Nat → Expr} (h : ∀ k, (place k).Apart) (t : ValueType) :
    (loadValue l buffer place t).Apart := by
  have hall (n : Nat) : AllApart ((List.range n).map fun k => Expr.load buffer (place k)) := by
    refine allApart_iff.mpr fun e he => ?_
    obtain ⟨k, -, rfl⟩ := List.mem_map.mp he
    rw [Expr.Apart]
    exact ⟨hbuffer, h k⟩
  unfold loadValue
  dsimp only
  split <;> simp only [Expr.Apart, AllApart, h, hbuffer, ne_eq, not_false_eq_true, and_self, hall]

theorem apart_storeValue (l : Layout) {buffer : String} (hbuffer : buffer ≠ stackBuffer)
    {place : Nat → Expr} {v : Expr} (h : ∀ k, (place k).Apart) (hv : v.Apart) (t : ValueType) :
    StmtsApart (storeValue l buffer place v t) := by
  unfold storeValue
  dsimp only
  split
  · simp only [StmtsApart, Stmt.Apart, hbuffer, h, hv, ne_eq, not_false_eq_true, and_self]
  · simp only [StmtsApart, Stmt.Apart, Expr.Apart, hbuffer, h, hv, ne_eq, not_false_eq_true,
      and_self]
  · simp only [StmtsApart, Stmt.Apart, Expr.Apart, hbuffer, h, hv, ne_eq, not_false_eq_true,
      and_self]
  · refine stmtsApart_iff.mpr fun s hs => ?_
    obtain ⟨k, -, rfl⟩ := List.mem_map.mp hs
    simp only [Stmt.Apart, Expr.Apart, hbuffer, h, hv, ne_eq, not_false_eq_true, and_self]

theorem apart_trapStmts (code : TrapCode) : StmtsApart (trapStmts code) := by
  simp only [trapStmts, StmtsApart, Stmt.Apart, and_self]

/-! ## Numeric instructions -/

section Numeric

variable {a b : Expr} (ha : a.Apart) (hb : b.Apart)

include ha hb

theorem apart_lowerI32 {m : Mnemonic} {low : Lowered} (h : lowerI32 m a b = some low) :
    StmtsApart low.checks ∧ low.value.Apart := by
  cases m <;> simp only [lowerI32, comparison?, unary?, Option.map_some, Option.some.injEq,
    reduceCtorEq] at h <;> subst h <;>
    simp [StmtsApart, Stmt.Apart, Expr.Apart, boolToU32, asI32, asU32, mask31, trapIf,
      Expr.u32, lowerI32.rotate, lowerI32.extend, ha, hb]

theorem apart_lowerFloat {t : Ty} {m : Mnemonic} {x : Expr}
    (h : lowerFloat t m a b = some x) : x.Apart := by
  cases m <;> simp only [lowerFloat, comparison?, unary?, Option.map_some, Option.some.injEq,
    reduceCtorEq] at h <;> subst h <;>
    simp [Expr.Apart, boolToU32, asI32, Expr.u32, ha, hb]

omit hb in
theorem apart_lowerI64 {m : Mnemonic} {x : Expr} (h : lowerI64 m a = some x) : x.Apart := by
  cases m <;> simp only [lowerI64, Option.some.injEq, reduceCtorEq] at h <;> subst h <;>
    simp [Expr.Apart, AllApart, asI32, asU32, Expr.u32, ha]

end Numeric

theorem apart_getD {args : List Expr} (h : AllApart args) (i : Nat) :
    (args.getD i .absent).Apart := by
  rw [List.getD_eq_getElem?_getD]
  cases hi : args[i]? with
  | none => rw [Option.getD_none, Expr.Apart]; trivial
  | some e => exact allApart_iff.mp h e (List.mem_of_getElem? hi)

theorem apart_numericStmts (l : Layout) (op : NumericOp) {args : List Expr} (hargs : AllApart args)
    {dst : String} (hdst : dst ≠ spVar) : StmtsApart (numericStmts l op args dst) := by
  have hassign {x : Expr} (hx : x.Apart) : StmtsApart [.assign dst x] := by
    rw [stmtsApart_singleton, Stmt.Apart]
    exact ⟨hdst, hx⟩
  have hintrinsic (params results : List ValueType) :
      StmtsApart [.assign dst (.intrinsic op.name args params results)] := by
    refine hassign ?_
    rw [Expr.Apart]
    exact hargs
  have hcall (name : String) : StmtsApart [.call name args [dst]] := by
    rw [stmtsApart_singleton, Stmt.Apart]
    exact ⟨hargs, List.forall_mem_singleton.mpr hdst⟩
  have ha := apart_getD hargs 0
  have hb := apart_getD hargs 1
  unfold numericStmts
  dsimp only
  split
  · exact hintrinsic _ _
  split
  · split
    · next low hlow =>
      obtain ⟨hchecks, hvalue⟩ := apart_lowerI32 ha hb hlow
      exact stmtsApart_append.mpr ⟨hchecks, hassign hvalue⟩
    · exact hintrinsic _ _
  · split
    · exact hcall _
    · exact hcall _
    · split
      · next x hx => exact hassign (apart_lowerI64 ha hx)
      · exact hintrinsic _ _
  · split
    · next x hx => exact hassign (apart_lowerFloat ha hb hx)
    · exact hintrinsic _ _
  · split
    · next x hx => exact hassign (apart_lowerFloat ha hb hx)
    · exact hintrinsic _ _
  · exact hintrinsic _ _
  · exact hintrinsic _ _

/-! ## Steps of emission -/

/-- Wherever the step succeeds, it gives something as described. -/
def Returns {α : Type} (x : Emitter α) (Q : α → Prop) : Prop :=
  ∀ es a es', x es = .ok (a, es') → Q a

namespace Returns

variable {α β : Type} {x : Emitter α} {k : α → Emitter β} {Q : α → Prop} {R : β → Prop}

theorem pure {a : α} (h : Q a) : Returns (Pure.pure a) Q := by
  intro es a es' hx
  cases hx
  exact h

theorem bind (hx : Returns x Q) (hk : ∀ a, Q a → Returns (k a) R) : Returns (x >>= k) R := by
  intro es b es'' h
  obtain ⟨⟨a, es'⟩, ha, hb⟩ := Program.bind_eq_ok (x := x es) h
  exact hk a (hx es a es' ha) es' b es'' hb

theorem always (x : Emitter α) : Returns x fun _ => True := fun _ _ _ _ => trivial

/-- A step of which nothing is said. -/
theorem skip (hk : ∀ a, Returns (k a) R) : Returns (x >>= k) R := (always x).bind fun a _ => hk a

theorem throw (e : Abort) : Returns (MonadExcept.throw e : Emitter α) Q :=
  fun es a es' hx => by cases hx

theorem crash : Returns (Emitter.crash : Emitter α) Q := throw _

theorem crash_bind : Returns (Emitter.crash >>= k) R :=
  fun es b es' h => by cases h

theorem ite {c : Prop} [Decidable c] {y : Emitter α} (hx : Returns x Q) (hy : Returns y Q) :
    Returns (if c then x else y) Q := by
  split
  · exact hx
  · exact hy

end Returns

section Steps

variable {ctx : Context} {f : WasmShader.Function} {labels : List Label}

theorem slot_returns (k : Nat) (t : ValueType) : Returns (Emitter.slot ctx k t) (· ≠ spVar) := by
  refine .skip fun c es a es' hx => ?_
  cases hx
  exact ne_spVar_of_isWork (isWork_slotName k t)

theorem localVar_returns (i : Nat) : Returns (Emitter.localVar ctx f i) (· ≠ spVar) := by
  refine .skip fun t => .skip fun c es a es' hx => ?_
  cases hx
  exact ne_spVar_of_isWork (isWork_localName i)

theorem push_returns (t : ValueType) : Returns (Emitter.push ctx t) (· ≠ spVar) :=
  .skip fun _ => .skip fun _ => slot_returns _ t

theorem slots_returns (base : Nat) (ts : List ValueType) :
    Returns (Emitter.slots ctx base ts) AllApart := by
  induction ts generalizing base with
  | nil => exact .pure trivial
  | cons t ts ih =>
      rw [Emitter.slots]
      exact .skip fun name => .bind (ih (base + 1)) fun vars hvars => .pure ⟨apart_var name, hvars⟩

theorem top_returns (n : Nat) : Returns (Emitter.top ctx n) AllApart :=
  .skip fun _ => .ite .crash (slots_returns _ _)

theorem pop_returns (n : Nat) : Returns (Emitter.pop ctx n) AllApart :=
  .bind (top_returns n) fun _ hvars => .skip fun _ => .pure hvars

theorem pop1_returns : Returns (Emitter.pop1 ctx) Expr.Apart := by
  refine .bind (pop_returns 1) fun vars hvars => ?_
  split
  · exact .pure (allApart_iff.mp hvars _ (List.mem_singleton.mpr rfl))
  · exact .crash

theorem pushAll_returns (ts : List ValueType) :
    Returns (pushAll ctx ts) fun names => ∀ x ∈ names, x ≠ spVar := by
  induction ts with
  | nil => exact .pure (by simp)
  | cons t ts ih =>
      rw [pushAll]
      exact .bind (push_returns t) fun name hname => .bind ih fun names hnames =>
        .pure (List.forall_mem_cons.mpr ⟨hname, hnames⟩)

/-! ## Instructions -/

theorem moveSlots_returns (dst src : Nat) (ts : List ValueType) :
    Returns (moveSlots ctx dst src ts) StmtsApart := by
  induction ts generalizing dst src with
  | nil => exact .pure trivial
  | cons t ts ih =>
      rw [moveSlots]
      refine .ite (ih (dst + 1) (src + 1)) (.bind (slot_returns dst t) fun target htarget => ?_)
      refine .skip fun source => .bind (ih (dst + 1) (src + 1)) fun rest hrest => .pure ?_
      rw [StmtsApart, Stmt.Apart]
      exact ⟨⟨htarget, apart_var source⟩, hrest⟩

theorem emitBranch_returns (depth : UInt32) :
    Returns (emitBranch ctx labels depth) StmtsApart := by
  have hjump {dst src : Nat} {ts : List ValueType} {s : Stmt} (hs : s.Apart) :
      Returns (do return (← moveSlots ctx dst src ts) ++ [s]) StmtsApart :=
    .bind (moveSlots_returns dst src ts) fun moves hmoves =>
      .pure (stmtsApart_append.mpr ⟨hmoves, stmtsApart_singleton.mpr hs⟩)
  unfold emitBranch
  split
  · exact .crash
  · refine .skip fun es => ?_
    split
    · refine .bind (top_returns _) fun vars hvars => .pure ?_
      rw [stmtsApart_singleton, Stmt.Apart]
      exact hvars
    · exact .ite .crash_bind (hjump trivial)
    · exact .ite .crash_bind (hjump trivial)

theorem emitCases_returns (i : Nat) (depths : List UInt32) :
    Returns (emitCases ctx labels i depths) CasesApart := by
  induction depths generalizing i with
  | nil => exact .pure trivial
  | cons depth depths ih =>
      rw [emitCases]
      refine .bind (emitBranch_returns depth) fun body hbody => ?_
      exact .bind (ih (i + 1)) fun rest hrest => .pure ⟨hbody, hrest⟩

theorem emitConstant_returns (v : Value) : Returns (emitConstant ctx v) StmtsApart := by
  refine .bind (push_returns _) fun dst hdst => .pure ?_
  rw [stmtsApart_singleton, Stmt.Apart]
  exact ⟨hdst, trivial⟩

theorem emitCall_returns (target : Nat) : Returns (emitCall ctx f target) StmtsApart := by
  unfold emitCall
  dsimp only
  refine .ite (.skip fun _ => .pure (apart_trapStmts _))
    (.ite (.skip fun _ => .pure (apart_trapStmts _)) ?_)
  refine .bind (pop_returns _) fun args hargs => ?_
  refine .bind (pushAll_returns _) fun results hresults => .pure ?_
  rw [stmtsApart_singleton, Stmt.Apart]
  exact ⟨hargs, hresults⟩

theorem apart_global {off : Nat} (k : Nat) : (baseWord globalBase off k).Apart :=
  apart_baseWord _ off k

theorem emitInstr_returns (i : Instr) : Returns (emitInstr ctx f labels i) StmtsApart := by
  have hassign {dst : String} {x : Expr} (hdst : dst ≠ spVar) (hx : x.Apart) :
      StmtsApart [.assign dst x] := by
    rw [stmtsApart_singleton, Stmt.Apart]
    exact ⟨hdst, hx⟩
  unfold emitInstr
  dsimp only
  split
  · refine .bind (pop_returns _) fun args hargs => .skip fun _ => ?_
    exact .bind (push_returns _) fun dst hdst => .skip fun _ =>
      .pure (apart_numericStmts _ _ hargs hdst)
  · exact .pure trivial
  · exact .pure (apart_trapStmts _)
  · exact emitBranch_returns _
  · refine .bind pop1_returns fun cond hcond => ?_
    refine .bind (emitBranch_returns _) fun body hbody => .pure ?_
    rw [stmtsApart_singleton, Stmt.Apart]
    exact ⟨apart_isNonzero hcond, hbody, trivial⟩
  · refine .bind pop1_returns fun selector hselector => ?_
    refine .bind (emitBranch_returns _) fun last hlast => ?_
    refine .bind (emitCases_returns 0 _) fun cases hcases => .pure ?_
    rw [stmtsApart_singleton, Stmt.Apart]
    exact ⟨hselector, hcases, hlast⟩
  · refine .bind (top_returns _) fun vars hvars => .pure ?_
    rw [stmtsApart_singleton, Stmt.Apart]
    exact hvars
  · exact emitConstant_returns _
  · exact emitConstant_returns _
  · exact emitConstant_returns _
  · exact emitConstant_returns _
  · exact emitConstant_returns _
  · exact .skip fun _ => .pure trivial
  · refine .skip fun es => .ite .crash_bind (.skip fun t => ?_)
    refine .bind (pop_returns 3) fun vars hvars => ?_
    split
    · refine .bind (push_returns t) fun dst hdst => .pure ?_
      have hall := allApart_iff.mp hvars
      refine hassign hdst ?_
      rw [Expr.Apart]
      exact ⟨apart_isNonzero (hall _ (by simp)), hall _ (by simp), hall _ (by simp)⟩
    · exact .crash
  · exact .skip fun t => .bind (push_returns t) fun dst hdst => .skip fun name =>
      .pure (hassign hdst (apart_var name))
  · exact .bind pop1_returns fun v hv => .bind (localVar_returns _) fun name hname =>
      .pure (hassign hname hv)
  · refine .skip fun es => ?_
    split
    · exact .crash
    · exact .bind (localVar_returns _) fun name hname => .skip fun v =>
        .pure (hassign hname (apart_var v))
  · refine .skip fun r => ?_
    split
    · exact emitConstant_returns _
    · exact .bind (push_returns _) fun dst hdst =>
        .pure (hassign hdst (apart_loadValue _ (by decide) apart_global _))
  · refine .skip fun r => ?_
    split
    · exact .crash
    · exact .bind pop1_returns fun v hv => .skip fun _ =>
        .pure (apart_storeValue _ (by decide) apart_global hv _)
  · exact emitCall_returns _
  · exact .skip fun t => .skip fun _ => .pure (apart_trapStmts _)
  · exact .skip fun _ => .pure (apart_trapStmts _)
  · exact .skip fun _ => .pure (apart_trapStmts _)
  all_goals exact .throw _

/-! ## Bodies -/

mutual

theorem emitNode_returns : (n : Node) → {labels : List Label} →
    Returns (emitNode ctx f labels n) StmtsApart
  | .instr i, labels => by
      rw [emitNode]
      exact emitInstr_returns i
  | .block loop sig body, labels => by
      rw [emitNode]
      refine .skip fun outer => .skip fun name => .bind (emitSeq_returns body) fun inner hinner => ?_
      refine .skip fun _ => .pure ?_
      cases loop with
      | false => exact stmtsApart_singleton.mpr hinner
      | true =>
          refine stmtsApart_singleton.mpr ?_
          rw [Stmt.Apart]
          exact stmtsApart_append.mpr ⟨hinner, stmtsApart_singleton.mpr trivial⟩
  | .ifThen sig body, labels => by
      rw [emitNode]
      refine .bind pop1_returns fun cond hcond => .skip fun outer => .skip fun name => ?_
      refine .bind (emitSeq_returns body) fun inner hinner => .skip fun _ => .pure ?_
      simp only [StmtsApart, Stmt.Apart, and_true]
      exact ⟨apart_isNonzero hcond, hinner⟩
  | .ifElse sig body alternative, labels => by
      rw [emitNode]
      refine .bind pop1_returns fun cond hcond => .skip fun es => .skip fun outer => ?_
      refine .skip fun name => .bind (emitSeq_returns body) fun inner hinner => .skip fun _ => ?_
      refine .bind (emitSeq_returns alternative) fun other hother => .skip fun _ => .pure ?_
      simp only [StmtsApart, Stmt.Apart, and_true]
      exact ⟨apart_isNonzero hcond, hinner, hother⟩

theorem emitSeq_returns : (ns : List Node) → {labels : List Label} →
    Returns (emitSeq ctx f labels ns) StmtsApart
  | [], labels => by
      rw [emitSeq]
      exact .pure trivial
  | n :: ns, labels => by
      rw [emitSeq]
      exact .bind (emitNode_returns n) fun first hfirst => .bind (emitSeq_returns ns)
        fun rest hrest => .pure (stmtsApart_append.mpr ⟨hfirst, hrest⟩)

end

end Steps

/-! ## Functions -/

theorem emitParams_returns {ctx : Context} {f : WasmShader.Function} :
    Returns (emitParams ctx f) StmtsApart := by
  unfold emitParams
  induction List.range f.type.params.length with
  | nil => exact .pure trivial
  | cons i is ih =>
      rw [List.mapM_cons]
      refine .bind (Q := Stmt.Apart) (.bind (localVar_returns i) fun name hname => .pure ?_)
        fun st hst => .bind ih fun rest hrest => .pure ⟨hst, hrest⟩
      rw [Stmt.Apart]
      exact ⟨hname, apart_var _⟩

/-- The code of a direct form leaves the stack alone. -/
theorem directFunction_apart {ctx : Context} {f : WasmShader.Function} {fn : Shader.Function}
    (h : directFunction ctx f = .ok fn) : StmtsApart fn.body := by
  obtain ⟨body, code, es, hbody, hrun, rfl⟩ := body_of_directFunction h
  have hreturns : Returns (emitDirectBody ctx f body) StmtsApart := by
    refine .bind emitParams_returns fun params hparams => ?_
    refine .bind (emitSeq_returns body) fun inner hinner => ?_
    refine .bind (slots_returns 0 _) fun vars hvars => .pure ?_
    exact stmtsApart_append.mpr ⟨stmtsApart_append.mpr ⟨hparams, hinner⟩,
      stmtsApart_singleton.mpr hvars⟩
  exact hreturns _ _ _ hrun

theorem numericFunctions_apart : ∀ fn ∈ numericFunctions, StmtsApart fn.body := by
  intro fn hfn
  simp only [numericFunctions, List.mem_cons, List.not_mem_nil, or_false] at hfn
  rcases hfn with rfl | rfl <;>
    simp [i64AddFunction, i64SubFunction, StmtsApart, Stmt.Apart, AllApart, Expr.Apart, part,
      boolToU32, Expr.u32, spVar]

end Emit

end WasmShader
