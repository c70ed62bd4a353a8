import WasmShader.Compile.Basic
import WasmShader.Proofs.Typing
import WasmShader.Proofs.Variables

/-!
# Code that is alike on all lanes

Which lane it runs on reaches the code through the bases of the lane's regions alone. Only
`setup` computes them, and everything else uses a base only as the start of an address in its
own buffer: an expression is *uniform* if it has no lane number and no base outside addresses.
Code is *lawful* if its expressions are uniform, it assigns to no base, and its calls and the
buffers it writes to are among given ones.

Everything that emission gives is lawful, whether or not what it is made from is typed. The
calls of a direct form or of a block are those of 64-bit sums and differences, and those of
direct forms that the analysis lets it call.
-/

namespace WasmShader

open Shader (Expr Stmt Case CallSite)

namespace Emit

/-- The private variables, which hold the bases of the lane's regions. -/
def baseNames : List String := privates.map (·.name)

/-- The bases of the regions in a buffer. -/
def basesOf (buffer : String) : List String :=
  if buffer = stackBuffer then [headerBase, dataBase]
  else if buffer = ioBuffer then [ioBase]
  else if buffer = globalsBuffer then [globalBase]
  else []

end Emit

open Emit

/-! ## Uniform expressions and lawful statements -/

namespace Shader

mutual

/-- The expression depends on the lane only through the words of its regions. -/
@[grind] def Expr.Uniform : Expr → Prop
  | .lit _ _ | .absent => True
  | .var name => name ∉ baseNames
  | .laneIndex => False
  | .load buffer index => index.Place buffer
  | .binary _ left right => left.Uniform ∧ right.Uniform
  | .unary _ x | .extract x _ | .bitcast _ x | .convert _ x => x.Uniform
  | .select cond onTrue onFalse => cond.Uniform ∧ onTrue.Uniform ∧ onFalse.Uniform
  | .compose _ parts => AllUniform parts
  | .intrinsic _ args _ _ => AllUniform args

/-- The expression is a place in a buffer: a base, and what is added to it or taken from it. -/
@[grind] def Expr.Place (buffer : String) : Expr → Prop
  | .var name => name ∈ basesOf buffer
  | .binary op left right => (op = .add ∨ op = .sub) ∧ left.Place buffer ∧ right.Uniform
  | _ => False

@[grind] def AllUniform : List Expr → Prop
  | [] => True
  | e :: es => e.Uniform ∧ AllUniform es

end

theorem allUniform_iff {es : List Expr} : AllUniform es ↔ ∀ e ∈ es, e.Uniform := by
  induction es with
  | nil => simp [AllUniform]
  | cons e es ih => simp [AllUniform, ih]

mutual

/-- The statement has uniform expressions only, assigns to no base, and its calls and the
buffers it writes to are as described. -/
@[grind] def Stmt.Lawful (P : CallSite → Prop) (W : String → Prop) : Stmt → Prop
  | .assign name e => name ∉ baseNames ∧ e.Uniform
  | .store buffer index e => W buffer ∧ index.Place buffer ∧ e.Uniform
  | .ifElse cond body alternative =>
    cond.Uniform ∧ StmtsLawful P W body ∧ StmtsLawful P W alternative
  | .block _ body | .loop _ body => StmtsLawful P W body
  | .leave _ | .again _ | .trap _ | .absent => True
  | .switch selector cases fallback =>
    selector.Uniform ∧ CasesLawful P W cases ∧ StmtsLawful P W fallback
  | .ret values => AllUniform values
  | .call func args results =>
    P ⟨func, args.length, results.length⟩ ∧ AllUniform args ∧ ∀ r ∈ results, r ∉ baseNames

@[grind] def StmtsLawful (P : CallSite → Prop) (W : String → Prop) : List Stmt → Prop
  | [] => True
  | s :: ss => s.Lawful P W ∧ StmtsLawful P W ss

@[grind] def Case.Lawful (P : CallSite → Prop) (W : String → Prop) : Case → Prop
  | .mk _ body => StmtsLawful P W body

@[grind] def CasesLawful (P : CallSite → Prop) (W : String → Prop) : List Case → Prop
  | [] => True
  | c :: cs => c.Lawful P W ∧ CasesLawful P W cs

end

variable {P : CallSite → Prop} {W : String → Prop}

theorem stmtsLawful_iff {ss : List Stmt} : StmtsLawful P W ss ↔ ∀ s ∈ ss, s.Lawful P W := by
  induction ss with
  | nil => simp [StmtsLawful]
  | cons s ss ih => simp [StmtsLawful, ih]

theorem casesLawful_iff {cs : List Case} :
    CasesLawful P W cs ↔ ∀ c ∈ cs, StmtsLawful P W c.body := by
  induction cs with
  | nil => simp [CasesLawful]
  | cons c cs ih =>
      obtain ⟨values, body⟩ := c
      simp [CasesLawful, Case.Lawful, Case.body, ih]

theorem stmtsLawful_append {ss ts : List Stmt} :
    StmtsLawful P W (ss ++ ts) ↔ StmtsLawful P W ss ∧ StmtsLawful P W ts := by
  simp only [stmtsLawful_iff, List.mem_append, or_imp, forall_and]

theorem stmtsLawful_singleton {s : Stmt} : StmtsLawful P W [s] ↔ s.Lawful P W := by
  simp [StmtsLawful]

mutual

theorem Stmt.Lawful.calls : {s : Stmt} → s.Lawful P W → ∀ c ∈ s.calls, P c
  | .assign _ _, _ => by simp [Stmt.calls]
  | .store _ _ _, _ => by simp [Stmt.calls]
  | .leave _, _ => by simp [Stmt.calls]
  | .again _, _ => by simp [Stmt.calls]
  | .trap _, _ => by simp [Stmt.calls]
  | .absent, _ => by simp [Stmt.calls]
  | .ret _, _ => by simp [Stmt.calls]
  | .ifElse _ body alternative, h => by
      rw [Stmt.Lawful] at h
      rw [Stmt.calls]
      exact List.forall_mem_append.mpr ⟨StmtsLawful.calls h.2.1, StmtsLawful.calls h.2.2⟩
  | .block _ body, h => by
      rw [Stmt.Lawful] at h
      rw [Stmt.calls]
      exact StmtsLawful.calls h
  | .loop _ body, h => by
      rw [Stmt.Lawful] at h
      rw [Stmt.calls]
      exact StmtsLawful.calls h
  | .switch _ cases fallback, h => by
      rw [Stmt.Lawful] at h
      rw [Stmt.calls]
      exact List.forall_mem_append.mpr ⟨CasesLawful.calls h.2.1, StmtsLawful.calls h.2.2⟩
  | .call _ _ _, h => by
      rw [Stmt.Lawful] at h
      rw [Stmt.calls]
      exact List.forall_mem_singleton.mpr h.1

theorem StmtsLawful.calls : {ss : List Stmt} → StmtsLawful P W ss → ∀ c ∈ stmtsCalls ss, P c
  | [], _ => by simp [stmtsCalls]
  | s :: ss, h => by
      rw [StmtsLawful] at h
      rw [stmtsCalls]
      exact List.forall_mem_append.mpr ⟨Stmt.Lawful.calls h.1, StmtsLawful.calls h.2⟩

theorem CasesLawful.calls : {cs : List Case} → CasesLawful P W cs → ∀ c ∈ casesCalls cs, P c
  | [], _ => by simp [casesCalls]
  | .mk _ body :: cs, h => by
      rw [CasesLawful, Case.Lawful] at h
      rw [casesCalls, Case.calls]
      exact List.forall_mem_append.mpr ⟨StmtsLawful.calls h.1, CasesLawful.calls h.2⟩

end

section Mono

variable {P' : CallSite → Prop} {W' : String → Prop}

mutual

/-- More calls and more buffers are allowed. -/
theorem Stmt.Lawful.mono (hP : ∀ c, P c → P' c) (hW : ∀ buffer, W buffer → W' buffer) :
    {s : Stmt} → s.Lawful P W → s.Lawful P' W'
  | .assign _ _, h => by rwa [Stmt.Lawful] at h ⊢
  | .store buffer _ _, h => by
      rw [Stmt.Lawful] at h ⊢
      exact ⟨hW buffer h.1, h.2⟩
  | .ifElse _ _ _, h => by
      rw [Stmt.Lawful] at h ⊢
      exact ⟨h.1, StmtsLawful.mono hP hW h.2.1, StmtsLawful.mono hP hW h.2.2⟩
  | .block _ _, h => by
      rw [Stmt.Lawful] at h ⊢
      exact StmtsLawful.mono hP hW h
  | .loop _ _, h => by
      rw [Stmt.Lawful] at h ⊢
      exact StmtsLawful.mono hP hW h
  | .leave _, _ | .again _, _ | .trap _, _ | .absent, _ => by rw [Stmt.Lawful]; trivial
  | .switch _ _ _, h => by
      rw [Stmt.Lawful] at h ⊢
      exact ⟨h.1, CasesLawful.mono hP hW h.2.1, StmtsLawful.mono hP hW h.2.2⟩
  | .ret _, h => by rwa [Stmt.Lawful] at h ⊢
  | .call _ _ _, h => by
      rw [Stmt.Lawful] at h ⊢
      exact ⟨hP _ h.1, h.2⟩

theorem StmtsLawful.mono (hP : ∀ c, P c → P' c) (hW : ∀ buffer, W buffer → W' buffer) :
    {ss : List Stmt} → StmtsLawful P W ss → StmtsLawful P' W' ss
  | [], _ => by rw [StmtsLawful]; trivial
  | _ :: _, h => by
      rw [StmtsLawful] at h ⊢
      exact ⟨Stmt.Lawful.mono hP hW h.1, StmtsLawful.mono hP hW h.2⟩

theorem CasesLawful.mono (hP : ∀ c, P c → P' c) (hW : ∀ buffer, W buffer → W' buffer) :
    {cs : List Case} → CasesLawful P W cs → CasesLawful P' W' cs
  | [], _ => by rw [CasesLawful]; trivial
  | .mk _ _ :: _, h => by
      rw [CasesLawful, Case.Lawful] at h ⊢
      exact ⟨StmtsLawful.mono hP hW h.1, CasesLawful.mono hP hW h.2⟩

end

end Mono

/-- The code of the function is lawful, and none of its variables hides a base. -/
structure Function.Lawful (P : CallSite → Prop) (W : String → Prop) (f : Shader.Function) :
    Prop where
  vars : ∀ v ∈ f.params ++ f.locals, v.name ∉ baseNames
  body : StmtsLawful P W f.body

theorem Function.Lawful.mono {f : Shader.Function} {P' : CallSite → Prop} {W' : String → Prop}
    (h : f.Lawful P W) (hP : ∀ c, P c → P' c) (hW : ∀ buffer, W buffer → W' buffer) :
    f.Lawful P' W' :=
  ⟨h.vars, .mono hP hW h.body⟩

end Shader

open Shader

namespace Emit

variable {P : CallSite → Prop} {W : String → Prop}

/-! ## Places and values -/

theorem not_mem_baseNames_of_isWork {name : String} (h : IsWork name) : name ∉ baseNames := by
  intro hmem
  obtain ⟨v, hv, rfl⟩ := List.mem_map.mp hmem
  exact not_isWork_of_mem_privates hv h

theorem spVar_not_mem : spVar ∉ baseNames := by decide

theorem uniform_u32 (v : UInt32) : (Expr.u32 v).Uniform := by simp only [Expr.u32, Expr.Uniform]

theorem uniform_count (n : Nat) : (Expr.count n).Uniform := uniform_u32 _

theorem uniform_isNonzero {e : Expr} (h : e.Uniform) : e.isNonzero.Uniform := by
  simp only [Expr.isNonzero, Expr.Uniform]
  exact ⟨h, uniform_u32 0⟩

theorem place_shift {buffer : String} {op : BinaryOp} (hop : op = .add ∨ op = .sub)
    {base x : Expr} (h : base.Place buffer) (hx : x.Uniform) :
    (Expr.binary op base x).Place buffer := by
  rw [Expr.Place]
  exact ⟨hop, h, hx⟩

theorem place_offset {buffer : String} {base : Expr} (h : base.Place buffer) (off : UInt32) :
    (offset base off).Place buffer := by
  unfold offset
  split
  · exact h
  · exact place_shift (.inl rfl) h (uniform_u32 off)

theorem place_var {buffer name : String} (h : name ∈ basesOf buffer) :
    (Expr.var name).Place buffer := by
  rw [Expr.Place]
  exact h

theorem uniform_var {name : String} (h : name ∉ baseNames) : (Expr.var name).Uniform := by
  rw [Expr.Uniform]
  exact h

theorem place_top : (Expr.binary .add (.var dataBase) (.var spVar)).Place stackBuffer :=
  place_shift (.inl rfl) (place_var (by decide)) (uniform_var spVar_not_mem)

theorem place_dataWord (off k : Nat) : (dataWord off k).Place stackBuffer :=
  place_offset place_top _

theorem place_header : (Expr.var headerBase).Place stackBuffer := place_var (by decide)

theorem place_trap : trapPlace.Place stackBuffer := place_offset place_header _

theorem place_baseWord {buffer base : String} (h : base ∈ basesOf buffer) (off k : Nat) :
    (baseWord base off k).Place buffer := place_offset (place_var h) _

theorem place_resultWord (room off k : Nat) :
    (BlockContext.resultWord room off k).Place stackBuffer :=
  place_offset (place_shift (.inr rfl) place_top (uniform_count _)) _

theorem uniform_loadValue (l : Layout) {buffer : String} {place : Nat → Expr}
    (h : ∀ k, (place k).Place buffer) (t : ValueType) :
    (loadValue l buffer place t).Uniform := by
  have hword (k : Nat) : (Expr.load buffer (place k)).Uniform := by
    simp only [Expr.Uniform]; exact h k
  have hall (n : Nat) : AllUniform ((List.range n).map fun k => Expr.load buffer (place k)) := by
    refine allUniform_iff.mpr fun e he => ?_
    obtain ⟨k, -, rfl⟩ := List.mem_map.mp he
    exact hword k
  unfold loadValue
  dsimp only
  split <;> simp only [Expr.Uniform, AllUniform, h, and_true, hall]

theorem lawful_storeValue (l : Layout) {buffer : String} {place : Nat → Expr} {v : Expr}
    (hW : W buffer) (h : ∀ k, (place k).Place buffer) (hv : v.Uniform) (t : ValueType) :
    StmtsLawful P W (storeValue l buffer place v t) := by
  unfold storeValue
  dsimp only
  split
  · simp only [StmtsLawful, Stmt.Lawful, hW, h, hv, and_self]
  · simp only [StmtsLawful, Stmt.Lawful, Expr.Uniform, hW, h, hv, and_self]
  · simp only [StmtsLawful, Stmt.Lawful, Expr.Uniform, hW, h, hv, and_self]
  · refine stmtsLawful_iff.mpr fun s hs => ?_
    obtain ⟨k, -, rfl⟩ := List.mem_map.mp hs
    simp only [Stmt.Lawful, Expr.Uniform, hW, h, hv, and_self]

theorem lawful_readSp : readSp.Lawful P W := by
  simp only [readSp, Stmt.Lawful, Expr.Uniform]
  exact ⟨spVar_not_mem, place_header⟩

theorem lawful_writeSp (hW : W stackBuffer) : writeSp.Lawful P W := by
  simp only [writeSp, Stmt.Lawful, Expr.Uniform]
  exact ⟨hW, place_header, spVar_not_mem⟩

theorem lawful_moveSp (op : BinaryOp) (n : Nat) :
    (Stmt.assign spVar (.binary op (.var spVar) (.count n))).Lawful P W := by
  simp only [Stmt.Lawful, Expr.Uniform]
  exact ⟨spVar_not_mem, spVar_not_mem, uniform_count n⟩

theorem lawful_trapStmts (code : TrapCode) : StmtsLawful P W (trapStmts code) := by
  simp only [trapStmts, StmtsLawful, Stmt.Lawful, and_self]

/-! ## Pushes -/

theorem Push.lawful_value (hW : W stackBuffer) {p : Push} (hp : StmtsLawful P W p.stmts)
    (l : Layout) {v : Expr} (hv : v.Uniform) (t : ValueType) :
    StmtsLawful P W (p.value l v t).stmts :=
  stmtsLawful_append.mpr ⟨hp, lawful_storeValue l hW (place_dataWord p.size) hv t⟩

theorem Push.lawful_blockId (hW : W stackBuffer) {p : Push} (hp : StmtsLawful P W p.stmts)
    (id : BlockId) : StmtsLawful P W (p.blockId id).stmts := by
  refine stmtsLawful_append.mpr ⟨hp, stmtsLawful_singleton.mpr ?_⟩
  rw [Stmt.Lawful]
  exact ⟨hW, place_offset place_top _, uniform_u32 _⟩

theorem Push.lawful_finish {p : Push} (hp : StmtsLawful P W p.stmts) (stackWords : UInt32) :
    StmtsLawful P W (p.finish stackWords) := by
  refine stmtsLawful_append.mpr ⟨?_, stmtsLawful_singleton.mpr (lawful_moveSp .add p.size)⟩
  rw [StmtsLawful]
  refine ⟨?_, hp⟩
  simp only [Stmt.Lawful, Expr.Uniform, StmtsLawful, and_true]
  exact ⟨⟨spVar_not_mem, uniform_count _⟩, uniform_u32 _⟩

theorem lawful_popFrame (l : Layout) (pl : Payload) {vars : List String}
    (hvars : ∀ x ∈ vars, x ∉ baseNames) : StmtsLawful P W (popFrame l pl vars) := by
  rw [popFrame, StmtsLawful]
  refine ⟨lawful_moveSp .sub pl.frameWords, stmtsLawful_iff.mpr fun s hs => ?_⟩
  obtain ⟨⟨name, t, off⟩, hmem, rfl⟩ := List.mem_map.mp hs
  rw [Stmt.Lawful]
  exact ⟨hvars name (List.of_mem_zip hmem).1, uniform_loadValue l (place_dataWord off) t⟩

/-! ## Numeric instructions -/

section Numeric

variable {a b : Expr} (ha : a.Uniform) (hb : b.Uniform)

include ha hb

theorem lawful_lowerI32 {m : Mnemonic} {low : Lowered} (h : lowerI32 m a b = some low) :
    StmtsLawful P W low.checks ∧ low.value.Uniform := by
  cases m <;> simp only [lowerI32, comparison?, unary?, Option.map_some, Option.some.injEq,
    reduceCtorEq] at h <;> subst h <;>
    simp [StmtsLawful, Stmt.Lawful, Expr.Uniform, boolToU32, asI32, asU32, mask31, trapIf,
      Expr.u32, lowerI32.rotate, lowerI32.extend, ha, hb]

theorem uniform_lowerFloat {t : Ty} {m : Mnemonic} {x : Expr}
    (h : lowerFloat t m a b = some x) : x.Uniform := by
  cases m <;> simp only [lowerFloat, comparison?, unary?, Option.map_some, Option.some.injEq,
    reduceCtorEq] at h <;> subst h <;>
    simp [Expr.Uniform, boolToU32, asI32, Expr.u32, ha, hb]

omit hb in
theorem uniform_lowerI64 {m : Mnemonic} {x : Expr} (h : lowerI64 m a = some x) : x.Uniform := by
  cases m <;> simp only [lowerI64, Option.some.injEq, reduceCtorEq] at h <;> subst h <;>
    simp [Expr.Uniform, AllUniform, asI32, asU32, Expr.u32, ha]

end Numeric

/-- The calls that code of a function may have: sums and differences, and the direct forms
that its instructions may call. -/
structure Callable (ctx : Context) (f : WasmShader.Function) (P : CallSite → Prop)
    (instrs : List Instr) : Prop where
  add : P ⟨i64Add, 2, 1⟩
  sub : P ⟨i64Sub, 2, 1⟩
  direct : ∀ i ∈ instrs, ∀ target : UInt32, i.operation = .call → i.imm = .call target →
    ctx.program.isImport target.toNat = false →
    ctx.analysis.canCallDirect f.index target.toNat = true →
    let sig := (ctx.program.signature? target.toNat).getD ⟨[], []⟩
    P ⟨directName target.toNat, sig.params.length, sig.results.length⟩

theorem length_params_of_add {op : NumericOp} (h : op.mnemonic = .add ∨ op.mnemonic = .sub) :
    op.signature.params.length = 2 := by
  unfold NumericOp.signature
  rcases h with h | h <;> rw [h] <;> rfl

theorem uniform_getD {args : List Expr} (h : AllUniform args) (i : Nat) :
    (args.getD i .absent).Uniform := by
  rw [List.getD_eq_getElem?_getD]
  cases hi : args[i]? with
  | none => rw [Option.getD_none, Expr.Uniform]; trivial
  | some e => exact allUniform_iff.mp h e (List.mem_of_getElem? hi)

theorem lawful_numericStmts {ctx : Context} {f : WasmShader.Function} {instrs : List Instr}
    (hcalls : Callable ctx f P instrs) (l : Layout) {op : NumericOp} {args : List Expr}
    (hargs : AllUniform args) (hlen : args.length = op.signature.params.length) {dst : String}
    (hdst : dst ∉ baseNames) : StmtsLawful P W (numericStmts l op args dst) := by
  have hassign {x : Expr} (hx : x.Uniform) : StmtsLawful P W [.assign dst x] := by
    rw [stmtsLawful_singleton, Stmt.Lawful]
    exact ⟨hdst, hx⟩
  have hintrinsic (params results : List ValueType) :
      StmtsLawful P W [.assign dst (.intrinsic op.name args params results)] := by
    refine hassign ?_
    rw [Expr.Uniform]
    exact hargs
  have hcall {name : String} (h : P ⟨name, 2, 1⟩) (hm : op.mnemonic = .add ∨ op.mnemonic = .sub) :
      StmtsLawful P W [.call name args [dst]] := by
    rw [stmtsLawful_singleton, Stmt.Lawful, hlen, length_params_of_add hm]
    exact ⟨h, hargs, List.forall_mem_singleton.mpr hdst⟩
  have ha := uniform_getD hargs 0
  have hb := uniform_getD hargs 1
  unfold numericStmts
  dsimp only
  split
  · exact hintrinsic _ _
  split
  · split
    · next low hlow =>
      obtain ⟨hchecks, hvalue⟩ := lawful_lowerI32 ha hb hlow
      exact stmtsLawful_append.mpr ⟨hchecks, hassign hvalue⟩
    · exact hintrinsic _ _
  · split
    · next hm => exact hcall hcalls.add (.inl hm)
    · next hm => exact hcall hcalls.sub (.inr hm)
    · split
      · next x hx => exact hassign (uniform_lowerI64 ha hx)
      · exact hintrinsic _ _
  · split
    · next x hx => exact hassign (uniform_lowerFloat ha hb hx)
    · exact hintrinsic _ _
  · split
    · next x hx => exact hassign (uniform_lowerFloat ha hb hx)
    · exact hintrinsic _ _
  · exact hintrinsic _ _
  · exact hintrinsic _ _

/-! ## Steps of emission -/

/-- No variable declared so far hides a base. -/
def State.Clear (es : State) : Prop := ∀ v ∈ es.declared, v.name ∉ baseNames

/-- Wherever the step succeeds, it declares no variable that hides a base, and gives
something as described. -/
def Gives {α : Type} (x : Emitter α) (Q : α → Prop) : Prop :=
  ∀ es a es', x es = .ok (a, es') → es.Clear → es'.Clear ∧ Q a

namespace Gives

variable {α β : Type} {x : Emitter α} {k : α → Emitter β} {Q : α → Prop} {R : β → Prop}

theorem pure {a : α} (h : Q a) : Gives (Pure.pure a) Q := by
  intro es a' es' hx hes
  cases hx
  exact ⟨hes, h⟩

theorem bind (hx : Gives x Q) (hk : ∀ a, Q a → Gives (k a) R) : Gives (x >>= k) R := by
  intro es b es'' h hes
  obtain ⟨⟨a, es'⟩, ha, hb⟩ := Program.bind_eq_ok (x := x es) h
  obtain ⟨hes', hQ⟩ := hx es a es' ha hes
  exact hk a hQ es' b es'' hb hes'

theorem mono {Q' : α → Prop} (h : Gives x Q) (himp : ∀ a, Q a → Q' a) : Gives x Q' :=
  fun es a es' hx hes => ⟨(h es a es' hx hes).1, himp a (h es a es' hx hes).2⟩

theorem throw (e : Abort) : Gives (MonadExcept.throw e : Emitter α) Q :=
  fun es a es' hx => by cases hx

theorem crash : Gives (Emitter.crash : Emitter α) Q := throw _

theorem crash_bind : Gives (Emitter.crash >>= k) R :=
  fun es b es' h => by cases h

theorem ite {c : Prop} [Decidable c] {y : Emitter α} (hx : c → Gives x Q) (hy : ¬c → Gives y Q) :
    Gives (if c then x else y) Q := by
  split
  · next h => exact hx h
  · next h => exact hy h

theorem lift (y : Except Abort α) : Gives (liftM y : Emitter α) fun a => y = .ok a := by
  intro es a es' hx hes
  obtain ⟨b, hb, h⟩ := Program.bind_eq_ok (x := y) hx
  cases h
  exact ⟨hes, hb⟩

theorem get : Gives (MonadState.get : Emitter State) fun _ => True := by
  intro es a es' hx hes
  cases hx
  exact ⟨hes, trivial⟩

theorem edit {change : State → State} (h : ∀ es, (change es).declared = es.declared) :
    Gives (modify change : Emitter PUnit) fun _ => True := by
  intro es a es' hx hes
  cases hx
  exact ⟨fun v hv => hes v (h es ▸ hv), trivial⟩

end Gives

section Steps

variable {ctx : Context} {f : WasmShader.Function} {labels : List Label}

theorem declare_gives {name : String} (h : name ∉ baseNames) (t : Ty) :
    Gives (Emitter.declare name t) (· ∉ baseNames) := by
  intro es a es' hx hes
  cases hx
  refine ⟨?_, h⟩
  dsimp only
  split
  · exact hes
  · exact List.forall_mem_append.mpr ⟨hes, List.forall_mem_singleton.mpr h⟩

theorem slot_gives (k : Nat) (t : ValueType) : Gives (Emitter.slot ctx k t) (· ∉ baseNames) :=
  .bind (.lift _) fun _ _ => declare_gives (not_mem_baseNames_of_isWork (isWork_slotName k t)) _

theorem localVar_gives (i : Nat) : Gives (Emitter.localVar ctx f i) (· ∉ baseNames) :=
  .bind (.lift _) fun _ _ => .bind (.lift _) fun _ _ =>
    declare_gives (not_mem_baseNames_of_isWork (isWork_localName i)) _

theorem push_gives (t : ValueType) : Gives (Emitter.push ctx t) (· ∉ baseNames) :=
  .bind .get fun _ _ => .bind (.edit fun _ => rfl) fun _ _ => slot_gives _ t

theorem slots_gives (base : Nat) (ts : List ValueType) :
    Gives (Emitter.slots ctx base ts) fun vars => AllUniform vars ∧ vars.length = ts.length := by
  induction ts generalizing base with
  | nil => exact .pure ⟨trivial, rfl⟩
  | cons t ts ih =>
      rw [Emitter.slots]
      refine .bind (slot_gives base t) fun name hname => ?_
      refine .bind (ih (base + 1)) fun vars hvars => ?_
      exact .pure ⟨⟨uniform_var hname, hvars.1⟩, congrArg (· + 1) hvars.2⟩

theorem top_gives (n : Nat) :
    Gives (Emitter.top ctx n) fun vars => AllUniform vars ∧ vars.length = n := by
  refine .bind .get fun es _ => .ite (fun _ => .crash) fun hlen => ?_
  refine (slots_gives _ _).mono fun vars hvars => ⟨hvars.1, ?_⟩
  rw [hvars.2, TypeStack.top, List.length_drop]
  omega

theorem pop_gives (n : Nat) :
    Gives (Emitter.pop ctx n) fun vars => AllUniform vars ∧ vars.length = n :=
  .bind (top_gives n) fun _ hvars => .bind (.edit fun _ => rfl) fun _ _ => .pure hvars

theorem pop1_gives : Gives (Emitter.pop1 ctx) Expr.Uniform := by
  refine .bind (pop_gives 1) fun vars hvars => ?_
  split
  · exact .pure (allUniform_iff.mp hvars.1 _ (List.mem_singleton.mpr rfl))
  · exact .crash

theorem pushAll_gives (ts : List ValueType) :
    Gives (pushAll ctx ts) fun names => (∀ x ∈ names, x ∉ baseNames)
      ∧ names.length = ts.length := by
  induction ts with
  | nil => exact .pure ⟨by simp, rfl⟩
  | cons t ts ih =>
      rw [pushAll]
      refine .bind (push_gives t) fun name hname => ?_
      refine .bind ih fun names hnames => ?_
      exact .pure ⟨List.forall_mem_cons.mpr ⟨hname, hnames.1⟩, congrArg (· + 1) hnames.2⟩

theorem newLabel_gives : Gives Emitter.newLabel fun _ => True :=
  .bind .get fun _ _ => .bind (.edit fun _ => rfl) fun _ _ => .pure trivial

theorem outerStack_gives (n : Nat) : Gives (outerStack n) fun _ => True :=
  .bind .get fun _ _ => .ite (fun _ => .crash) fun _ => .pure trivial

theorem setStack_gives (stack : TypeStack) : Gives (setStack stack) fun _ => True :=
  .edit fun _ => rfl

/-! ## Instructions -/

theorem moveSlots_gives (dst src : Nat) (ts : List ValueType) :
    Gives (moveSlots ctx dst src ts) (StmtsLawful P W) := by
  induction ts generalizing dst src with
  | nil => exact .pure trivial
  | cons t ts ih =>
      rw [moveSlots]
      refine .ite (fun _ => ih (dst + 1) (src + 1)) fun _ => ?_
      refine .bind (slot_gives dst t) fun target htarget => ?_
      refine .bind (slot_gives src t) fun source hsource => ?_
      refine .bind (ih (dst + 1) (src + 1)) fun rest hrest => .pure ?_
      rw [StmtsLawful, Stmt.Lawful]
      exact ⟨⟨htarget, uniform_var hsource⟩, hrest⟩

theorem emitBranch_gives (P : CallSite → Prop) (W : String → Prop) (depth : UInt32) :
    Gives (emitBranch ctx labels depth) (StmtsLawful P W) := by
  have hjump {dst src : Nat} {ts : List ValueType} {s : Stmt} (hs : s.Lawful P W) :
      Gives (do return (← moveSlots ctx dst src ts) ++ [s]) (StmtsLawful P W) :=
    .bind (moveSlots_gives dst src ts) fun moves hmoves =>
      .pure (stmtsLawful_append.mpr ⟨hmoves, stmtsLawful_singleton.mpr hs⟩)
  unfold emitBranch
  split
  · exact .crash
  · refine .bind .get fun es _ => ?_
    split
    · refine .bind (top_gives _) fun vars hvars => .pure ?_
      rw [stmtsLawful_singleton, Stmt.Lawful]
      exact hvars.1
    · exact .ite (fun _ => .crash_bind) fun _ => hjump trivial
    · exact .ite (fun _ => .crash_bind) fun _ => hjump trivial

theorem emitCases_gives (P : CallSite → Prop) (W : String → Prop) (i : Nat) (depths : List UInt32) :
    Gives (emitCases ctx labels i depths) (CasesLawful P W) := by
  induction depths generalizing i with
  | nil => exact .pure trivial
  | cons depth depths ih =>
      rw [emitCases]
      refine .bind (emitBranch_gives P W depth) fun body hbody => ?_
      exact .bind (ih (i + 1)) fun rest hrest => .pure ⟨hbody, hrest⟩

theorem emitSkip_gives (n : Nat) (pushes : List ValueType) :
    Gives (emitSkip ctx n pushes) fun _ => True := by
  have heach : Gives (forIn pushes PUnit.unit fun t _ => do
      let _ ← Emitter.push ctx t
      return ForInStep.yield PUnit.unit) fun _ => True := by
    induction pushes with
    | nil => exact .pure trivial
    | cons t ts ih =>
        rw [List.forIn_cons]
        refine .bind (Q := fun step => step = ForInStep.yield PUnit.unit) ?_ ?_
        · exact .bind (push_gives t) fun _ _ => .pure rfl
        · rintro _ rfl
          exact ih
  exact .bind (pop_gives n) fun _ _ => .bind heach fun _ _ => .pure trivial

theorem emitConstant_gives (v : Value) : Gives (emitConstant ctx v) (StmtsLawful P W) := by
  refine .bind (push_gives _) fun dst hdst => .pure ?_
  rw [stmtsLawful_singleton, Stmt.Lawful]
  exact ⟨hdst, trivial⟩

theorem emitCall_gives {instrs : List Instr} (hcalls : Callable ctx f P instrs) {i : Instr}
    (hi : i ∈ instrs) {target : UInt32} (hop : i.operation = .call)
    (himm : i.imm = .call target) :
    Gives (emitCall ctx f target.toNat) (StmtsLawful P W) := by
  unfold emitCall
  dsimp only
  refine .ite (fun _ => ?_) fun himport => .ite (fun _ => ?_) fun hcan => ?_
  · exact .bind (emitSkip_gives _ _) fun _ _ => .pure (lawful_trapStmts _)
  · exact .bind (emitSkip_gives _ _) fun _ _ => .pure (lawful_trapStmts _)
  · refine .bind (pop_gives _) fun args hargs => ?_
    refine .bind (pushAll_gives _) fun results hresults => .pure ?_
    rw [stmtsLawful_singleton, Stmt.Lawful, hargs.2, hresults.2]
    refine ⟨hcalls.direct i hi target hop himm ?_ ?_, hargs.1, hresults.1⟩
    · exact Bool.eq_false_iff.mpr himport
    · rw [Bool.not_eq_true, Bool.not_eq_false'] at hcan
      exact hcan

theorem globalPlace_gives (idx : UInt32) : Gives (globalPlace ctx idx) fun _ => True :=
  .bind (.lift _) fun _ _ => .pure trivial

theorem place_global {off : Nat} (k : Nat) :
    (baseWord globalBase off k).Place globalsBuffer := place_baseWord (by decide) off k

theorem emitInstr_gives {instrs : List Instr} (hcalls : Callable ctx f P instrs)
    (hW : W globalsBuffer) {i : Instr} (hi : i ∈ instrs) :
    Gives (emitInstr ctx f labels i) (StmtsLawful P W) := by
  unfold emitInstr
  dsimp only
  split
  · refine .bind (pop_gives _) fun args hargs => .bind (.lift _) fun _ _ => ?_
    refine .bind (push_gives _) fun dst hdst => .bind (.lift _) fun _ _ => .pure ?_
    exact lawful_numericStmts hcalls _ hargs.1 hargs.2 hdst
  · exact .pure trivial
  · exact .pure (lawful_trapStmts _)
  · exact emitBranch_gives P W _
  · refine .bind pop1_gives fun cond hcond => ?_
    refine .bind (emitBranch_gives P W _) fun body hbody => .pure ?_
    rw [stmtsLawful_singleton, Stmt.Lawful]
    exact ⟨uniform_isNonzero hcond, hbody, trivial⟩
  · refine .bind pop1_gives fun selector hselector => ?_
    refine .bind (emitBranch_gives P W _) fun last hlast => ?_
    refine .bind (emitCases_gives P W 0 _) fun cases hcases => .pure ?_
    rw [stmtsLawful_singleton, Stmt.Lawful]
    exact ⟨hselector, hcases, hlast⟩
  · refine .bind (top_gives _) fun vars hvars => .pure ?_
    rw [stmtsLawful_singleton, Stmt.Lawful]
    exact hvars.1
  · exact emitConstant_gives _
  · exact emitConstant_gives _
  · exact emitConstant_gives _
  · exact emitConstant_gives _
  · exact emitConstant_gives _
  · exact .bind pop1_gives fun _ _ => .pure trivial
  · refine .bind .get fun es _ => .ite (fun _ => .crash_bind) fun _ => ?_
    refine .bind (.lift _) fun t _ => .bind (pop_gives 3) fun vars hvars => ?_
    split
    · refine .bind (push_gives t) fun dst hdst => .pure ?_
      have hall := allUniform_iff.mp hvars.1
      rw [stmtsLawful_singleton, Stmt.Lawful, Expr.Uniform]
      exact ⟨hdst, uniform_isNonzero (hall _ (by simp)), hall _ (by simp), hall _ (by simp)⟩
    · exact .crash
  · refine .bind (.lift _) fun t _ => .bind (push_gives t) fun dst hdst => ?_
    refine .bind (localVar_gives _) fun name hname => .pure ?_
    exact stmtsLawful_singleton.mpr ⟨hdst, uniform_var hname⟩
  · refine .bind pop1_gives fun v hv => .bind (localVar_gives _) fun name hname => .pure ?_
    exact stmtsLawful_singleton.mpr ⟨hname, hv⟩
  · refine .bind .get fun es _ => ?_
    split
    · exact .crash
    · refine .bind (localVar_gives _) fun name hname => .bind (slot_gives _ _) fun v hv => .pure ?_
      exact stmtsLawful_singleton.mpr ⟨hname, uniform_var hv⟩
  · refine .bind (globalPlace_gives _) fun r _ => ?_
    split
    · exact emitConstant_gives _
    · refine .bind (push_gives _) fun dst hdst => .pure ?_
      exact stmtsLawful_singleton.mpr ⟨hdst, uniform_loadValue _ place_global _⟩
  · refine .bind (globalPlace_gives _) fun r _ => ?_
    split
    · exact .crash
    · exact .bind pop1_gives fun v hv => .bind (.lift _) fun _ _ =>
        .pure (lawful_storeValue _ hW place_global hv _)
  · next hop himm => exact emitCall_gives hcalls hi hop himm
  · exact .bind (.lift _) fun t _ => .bind (emitSkip_gives _ _) fun _ _ =>
      .pure (lawful_trapStmts _)
  · exact .bind (push_gives _) fun _ _ => .pure (lawful_trapStmts _)
  · exact .bind (emitSkip_gives _ _) fun _ _ => .pure (lawful_trapStmts _)
  all_goals exact .throw _

/-! ## Bodies -/

mutual

theorem emitNode_gives {instrs : List Instr} (hcalls : Callable ctx f P instrs)
    (hW : W globalsBuffer) :
    (n : Node) → n.instrs ⊆ instrs → {labels : List Label} →
    Gives (emitNode ctx f labels n) (StmtsLawful P W)
  | .instr i, hsub, labels => by
      rw [emitNode]
      exact emitInstr_gives hcalls hW (hsub (List.mem_singleton.mpr rfl))
  | .block loop sig body, hsub, labels => by
      rw [emitNode]
      refine .bind (outerStack_gives _) fun outer _ => .bind newLabel_gives fun name _ => ?_
      refine .bind (emitSeq_gives hcalls hW body hsub) fun inner hinner => ?_
      refine .bind (setStack_gives _) fun _ _ => .pure ?_
      cases loop with
      | false => exact stmtsLawful_singleton.mpr hinner
      | true =>
          refine stmtsLawful_singleton.mpr ?_
          rw [Stmt.Lawful]
          exact stmtsLawful_append.mpr ⟨hinner, stmtsLawful_singleton.mpr trivial⟩
  | .ifThen sig body, hsub, labels => by
      rw [emitNode]
      refine .bind pop1_gives fun cond hcond => ?_
      refine .bind (outerStack_gives _) fun outer _ => .bind newLabel_gives fun name _ => ?_
      refine .bind (emitSeq_gives hcalls hW body hsub) fun inner hinner => ?_
      refine .bind (setStack_gives _) fun _ _ => .pure ?_
      simp only [StmtsLawful, Stmt.Lawful, and_true]
      exact ⟨uniform_isNonzero hcond, hinner⟩
  | .ifElse sig body alternative, hsub, labels => by
      rw [emitNode]
      refine .bind pop1_gives fun cond hcond => .bind .get fun es _ => ?_
      refine .bind (outerStack_gives _) fun outer _ => .bind newLabel_gives fun name _ => ?_
      refine .bind (emitSeq_gives hcalls hW body fun i hi => hsub (List.mem_append_left _ hi))
        fun inner hinner => ?_
      refine .bind (setStack_gives _) fun _ _ => ?_
      refine .bind (emitSeq_gives hcalls hW alternative
        fun i hi => hsub (List.mem_append_right _ hi)) fun other hother => ?_
      refine .bind (setStack_gives _) fun _ _ => .pure ?_
      simp only [StmtsLawful, Stmt.Lawful, and_true]
      exact ⟨uniform_isNonzero hcond, hinner, hother⟩

theorem emitSeq_gives {instrs : List Instr} (hcalls : Callable ctx f P instrs)
    (hW : W globalsBuffer) :
    (ns : List Node) → Body.instrs ns ⊆ instrs → {labels : List Label} →
    Gives (emitSeq ctx f labels ns) (StmtsLawful P W)
  | [], hsub, labels => by
      rw [emitSeq]
      exact .pure trivial
  | n :: ns, hsub, labels => by
      rw [emitSeq]
      refine .bind (emitNode_gives hcalls hW n fun i hi => hsub (List.mem_append_left _ hi))
        fun first hfirst => ?_
      refine .bind (emitSeq_gives hcalls hW ns fun i hi => hsub (List.mem_append_right _ hi))
        fun rest hrest => .pure (stmtsLawful_append.mpr ⟨hfirst, hrest⟩)

end

end Steps

/-! ## Functions -/

theorem mapM_gives {α β : Type} {k : α → Emitter β} {Q : β → Prop} (h : ∀ a, Gives (k a) Q)
    (xs : List α) : Gives (xs.mapM k) fun ys => ∀ y ∈ ys, Q y := by
  induction xs with
  | nil => exact .pure (by simp)
  | cons x xs ih =>
      rw [List.mapM_cons]
      exact .bind (h x) fun y hy => .bind ih fun ys hys =>
        .pure (List.forall_mem_cons.mpr ⟨hy, hys⟩)

theorem paramName_not_mem (i : Nat) : paramName i ∉ baseNames := by
  intro hmem
  have hhead : ∀ name ∈ baseNames, name.toList.head? ≠ some 'a' := by decide
  exact hhead _ hmem (by rw [toList_paramName]; rfl)

theorem emitParams_gives {ctx : Context} {f : WasmShader.Function} :
    Gives (emitParams ctx f) (StmtsLawful P W) := by
  refine (mapM_gives (Q := Stmt.Lawful P W) (fun i => ?_) _).mono fun _ => stmtsLawful_iff.mpr
  refine .bind (localVar_gives i) fun name hname => .pure ?_
  rw [Stmt.Lawful]
  exact ⟨hname, uniform_var (paramName_not_mem i)⟩

/-- The direct form of a function is lawful. -/
theorem directFunction_lawful {ctx : Context} {f : WasmShader.Function} {fn : Shader.Function}
    (h : directFunction ctx f = .ok fn)
    (hcalls : ∀ body, f.body = .ok body → Callable ctx f P (Body.instrs body))
    (hW : W globalsBuffer) : fn.Lawful P W := by
  obtain ⟨body, code, es, hbody, hrun, rfl⟩ := body_of_directFunction h
  have hgives : Gives (emitDirectBody ctx f body) (StmtsLawful P W) := by
    refine .bind (emitParams_gives (P := P) (W := W)) fun params hparams => ?_
    have hcallable := hcalls body hbody
    refine .bind (emitSeq_gives hcallable hW body fun _ h => h) fun inner hinner => ?_
    refine .bind (slots_gives 0 _) fun vars hvars => .pure ?_
    refine stmtsLawful_append.mpr ⟨stmtsLawful_append.mpr ⟨hparams, hinner⟩, ?_⟩
    exact stmtsLawful_singleton.mpr hvars.1
  obtain ⟨hclear, hcode⟩ := hgives _ _ _ hrun (by simp [State.Clear])
  refine ⟨List.forall_mem_append.mpr ⟨fun v hv => ?_, hclear⟩, hcode⟩
  obtain ⟨i, hi, rfl⟩ := List.mem_mapIdx.mp hv
  exact paramName_not_mem i

section Blocks

variable {bc : BlockContext} {b : Block} (hW : W stackBuffer)

include hW in
theorem pushLocals_gives {p : Push} (hp : StmtsLawful P W p.stmts) (target : Payload) :
    Gives (bc.pushLocals p target) fun p' => StmtsLawful P W p'.stmts := by
  unfold BlockContext.pushLocals
  induction target.locals generalizing p with
  | nil => exact .pure hp
  | cons i is ih =>
      rw [List.foldlM_cons]
      refine .bind (Q := fun p' => StmtsLawful P W p'.stmts) ?_ fun p' hp' => ih hp'
      exact .bind (localVar_gives i) fun name hname => .bind (.lift _) fun t _ =>
        .pure (Push.lawful_value hW hp _ (uniform_var hname) t)

include hW in
theorem pushSlots_gives {p : Push} (hp : StmtsLawful P W p.stmts) (start : Nat)
    (types : List ValueType) :
    Gives (bc.pushSlots p start types) fun p' => StmtsLawful P W p'.stmts := by
  induction types generalizing p start with
  | nil => exact .pure hp
  | cons t types ih =>
      rw [BlockContext.pushSlots]
      exact .bind (slot_gives start t) fun name hname =>
        ih (Push.lawful_value hW hp _ (uniform_var hname) t) (start + 1)

include hW in
theorem emitEdge_gives (e : Edge) (stack : TypeStack) :
    Gives (bc.emitEdge e stack) (StmtsLawful P W) := by
  unfold BlockContext.emitEdge
  refine .ite (fun _ => .crash_bind) fun _ => .bind (.lift _) fun target _ => ?_
  refine .bind (pushLocals_gives (P := P) hW (by exact trivial) _) fun p₁ hp₁ => ?_
  refine .bind (pushSlots_gives hW hp₁ _ _) fun p₂ hp₂ => ?_
  refine .bind (pushSlots_gives hW hp₂ _ _) fun p₃ hp₃ => .bind (.lift _) fun id _ => .pure ?_
  exact Push.lawful_finish (Push.lawful_blockId hW hp₃ id) _

include hW in
theorem emitEdges_gives (stack : TypeStack) (i : Nat) (edges : List Edge) :
    Gives (bc.emitEdges stack i edges) (CasesLawful P W) := by
  induction edges generalizing i with
  | nil => exact .pure trivial
  | cons e edges ih =>
      rw [BlockContext.emitEdges]
      refine .bind (emitEdge_gives (P := P) hW e stack) fun body hbody => ?_
      exact .bind (ih (i + 1)) fun rest hrest => .pure ⟨hbody, hrest⟩

include hW in
theorem emitTransfer_gives (stack : TypeStack) (n : Nat) (results : List ValueType) (next : Nat)
    (callee : BlockId) : Gives (bc.emitTransfer stack n results next callee) (StmtsLawful P W) := by
  unfold BlockContext.emitTransfer
  refine .ite (fun _ => .crash_bind) fun _ => .bind (.lift _) fun target _ => ?_
  refine .bind (pushLocals_gives (P := P) hW (by exact trivial) _) fun p₁ hp₁ => ?_
  refine .bind (pushSlots_gives hW hp₁ _ _) fun p₂ hp₂ => ?_
  refine .bind (.lift _) fun room _ => .bind (.lift _) fun id _ => ?_
  have hp₂' : StmtsLawful P W ((p₂.reserve room).blockId id).stmts :=
    Push.lawful_blockId hW (show StmtsLawful P W (p₂.reserve _).stmts from hp₂) id
  refine .bind (pushSlots_gives hW hp₂' _ _) fun p₃ hp₃ => .pure ?_
  exact Push.lawful_finish (Push.lawful_blockId hW hp₃ callee) _

include hW in
theorem emitResults_gives (room start off : Nat) (types : List ValueType) :
    Gives (bc.emitResults room start off types) (StmtsLawful P W) := by
  induction types generalizing start off with
  | nil => exact .pure trivial
  | cons t types ih =>
      rw [BlockContext.emitResults]
      refine .bind (slot_gives start t) fun name hname => .bind (ih _ _) fun rest hrest =>
        .pure (stmtsLawful_append.mpr ⟨?_, hrest⟩)
      exact lawful_storeValue _ hW (place_resultWord room off) (uniform_var hname) t

theorem decision_gives (stack : TypeStack) :
    Gives (bc.decision stack) fun r => r.1.Uniform := by
  unfold BlockContext.decision
  split
  · exact .crash
  · exact .bind (slot_gives _ _) fun name hname => .pure (uniform_var hname)

include hW in
theorem emitTerminator_gives (b : Block) : Gives (bc.emitTerminator b) (StmtsLawful P W) := by
  unfold BlockContext.emitTerminator
  split
  · exact emitEdge_gives hW _ _
  · refine .bind (decision_gives _) fun r hr => ?_
    refine .bind (emitEdge_gives (P := P) hW _ _) fun body hbody => ?_
    refine .bind (emitEdge_gives (P := P) hW _ _) fun other hother => .pure ?_
    rw [stmtsLawful_singleton, Stmt.Lawful]
    exact ⟨uniform_isNonzero hr, hbody, hother⟩
  · refine .bind (decision_gives _) fun r hr => ?_
    refine .bind (emitEdge_gives (P := P) hW _ _) fun last hlast => ?_
    refine .bind (emitEdges_gives (P := P) hW _ _ _) fun cases hcases => .pure ?_
    rw [stmtsLawful_singleton, Stmt.Lawful]
    exact ⟨hr, hcases, hlast⟩
  · exact .bind (.lift _) fun id _ => emitTransfer_gives hW _ _ _ _ _
  · exact emitTransfer_gives hW _ _ _ _ _
  · exact .ite (fun _ => .crash_bind) fun _ => .bind (.lift _) fun room _ =>
      emitResults_gives hW _ _ _ _
  · exact .pure (lawful_trapStmts _)

theorem slotVars_gives (types : List ValueType) (front : Array String)
    (hfront : ∀ x ∈ front.toList, x ∉ baseNames) :
    Gives (List.mapIdxM.go (fun i t => Emitter.slot bc.toContext i t) types front) fun vars =>
      ∀ x ∈ vars, x ∉ baseNames := by
  induction types generalizing front with
  | nil => exact .pure hfront
  | cons t types ih =>
      rw [List.mapIdxM.go]
      refine .bind (slot_gives _ t) fun name hname => ih (front.push name) ?_
      rw [Array.toList_push]
      exact List.forall_mem_append.mpr ⟨hfront, List.forall_mem_singleton.mpr hname⟩

/-- The function of a block is lawful. -/
theorem blockFunction_lawful {fn : Shader.Function} (h : bc.blockFunction b = .ok fn)
    (hcalls : Callable bc.toContext bc.func P (Body.instrs b.body)) (hW : W stackBuffer)
    (hglobals : W globalsBuffer) : fn.Lawful P W := by
  obtain ⟨⟨code, es⟩, hrun, h⟩ := Program.bind_eq_ok h
  obtain ⟨id, -, h⟩ := Program.bind_eq_ok h
  cases h
  have hgives : Gives (bc.emitBlockBody b) (StmtsLawful P W) := by
    refine .bind (declare_gives spVar_not_mem _) fun _ _ => .bind (.lift _) fun payload _ => ?_
    refine .bind (Q := fun vars => ∀ x ∈ vars, x ∉ baseNames) ?_ fun vars hvars => ?_
    · refine .bind (mapM_gives localVar_gives _) fun locals hlocals => ?_
      refine .bind (slotVars_gives b.entry #[] (by simp)) fun operands hoperands => .pure ?_
      exact List.forall_mem_append.mpr ⟨hlocals, hoperands⟩
    refine .bind (setStack_gives _) fun _ _ => ?_
    refine .bind (emitSeq_gives hcalls hglobals b.body fun _ h => h) fun inner hinner => ?_
    refine .bind (emitTerminator_gives (P := P) hW b) fun last hlast => .pure ?_
    have hpop : StmtsLawful P W (readSp :: popFrame bc.layout payload vars) :=
      ⟨lawful_readSp, lawful_popFrame _ _ hvars⟩
    exact stmtsLawful_append.mpr ⟨stmtsLawful_append.mpr ⟨stmtsLawful_append.mpr ⟨hpop, hinner⟩,
      hlast⟩, stmtsLawful_singleton.mpr (lawful_writeSp hW)⟩
  obtain ⟨hclear, hcode⟩ := hgives _ _ _ hrun (by simp [State.Clear])
  exact ⟨hclear, hcode⟩

end Blocks

/-! ## The rest of the module -/

theorem numericFunctions_lawful : ∀ f ∈ numericFunctions, f.Lawful P W := by
  refine List.forall_mem_cons.mpr ⟨⟨by decide, ?_⟩, List.forall_mem_singleton.mpr ⟨by decide, ?_⟩⟩
  · simp only [i64AddFunction, StmtsLawful, Stmt.Lawful, Expr.Uniform, AllUniform, part, boolToU32,
      Expr.u32, and_true]
    decide
  · simp only [i64SubFunction, StmtsLawful, Stmt.Lawful, Expr.Uniform, AllUniform, part, boolToU32,
      Expr.u32, and_true]
    decide

theorem sp_clear : ∀ v ∈ [(⟨spVar, .u32⟩ : Variable)], v.name ∉ baseNames := by decide

theorem stopIf_lawful {cond : Expr} (h : cond.Uniform) : (stopIf cond).Lawful P W := by
  simp only [stopIf, Stmt.Lawful, StmtsLawful, and_true]
  exact h

theorem callOnly_lawful {name : String} (h : P ⟨name, 0, 0⟩) : (callOnly name).Lawful P W := by
  simp only [callOnly, Stmt.Lawful, AllUniform, List.length_nil]
  exact ⟨h, trivial, by simp⟩

theorem uniform_load {buffer : String} {place : Expr} (h : place.Place buffer) :
    (Expr.load buffer place).Uniform := by
  rw [Expr.Uniform]
  exact h

theorem uniform_binary {op : BinaryOp} {left right : Expr} (hl : left.Uniform)
    (hr : right.Uniform) : (Expr.binary op left right).Uniform := by
  rw [Expr.Uniform]
  exact ⟨hl, hr⟩

/-- The dispatcher calls the functions of the blocks. -/
theorem dispatcher_lawful {blocks : List (BlockId × String)} (h : ∀ b ∈ blocks, P ⟨b.2, 0, 0⟩) :
    (dispatcher blocks).Lawful P W := by
  have hvars : ∀ v ∈ [(⟨spVar, .u32⟩ : Variable), ⟨numberVar, .u32⟩], v.name ∉ baseNames := by
    decide
  refine ⟨hvars, ?_⟩
  have hcases : CasesLawful P W (blocks.map fun b => Case.mk [b.1.val] [callOnly b.2]) := by
    refine casesLawful_iff.mpr fun c hc => ?_
    obtain ⟨b, hb, rfl⟩ := List.mem_map.mp hc
    exact stmtsLawful_singleton.mpr (callOnly_lawful (h b hb))
  have hnumber : (Expr.var numberVar).Uniform := uniform_var (by decide)
  unfold dispatcher
  rw [stmtsLawful_singleton, Stmt.Lawful]
  refine ⟨stopIf_lawful (uniform_isNonzero (uniform_load place_trap)), lawful_readSp,
    stopIf_lawful (uniform_binary (uniform_var spVar_not_mem) (uniform_u32 0)), ⟨by decide, ?_⟩,
    stopIf_lawful (uniform_binary hnumber (uniform_u32 _)), ?_, trivial⟩
  · exact uniform_load (place_offset place_top _)
  · rw [Stmt.Lawful]
    exact ⟨hnumber, hcases, lawful_trapStmts _⟩

theorem exitBlock_lawful (hW : W stackBuffer) (hio : W ioBuffer) (l : Layout) (name : String)
    (results : List ValueType) :
    (exitBlock l name results).Lawful P W := by
  refine ⟨sp_clear, ?_⟩
  unfold exitBlock
  refine stmtsLawful_append.mpr ⟨stmtsLawful_append.mpr ⟨?_, ?_⟩,
    stmtsLawful_singleton.mpr (lawful_writeSp hW)⟩
  · exact ⟨lawful_readSp, lawful_moveSp .sub _, trivial⟩
  · refine stmtsLawful_iff.mpr fun s hs => ?_
    obtain ⟨k, -, rfl⟩ := List.mem_map.mp hs
    rw [Stmt.Lawful]
    exact ⟨hio, place_baseWord (by decide) 0 k, uniform_load (place_dataWord 0 k)⟩

/-- An entry point first finds the regions of the lane; what follows is lawful. -/
structure StartsLawful (P : CallSite → Prop) (W : String → Prop) (f : Shader.Function) : Prop where
  vars : ∀ v ∈ f.params ++ f.locals, v.name ∉ baseNames
  body : ∃ rest, f.body = callOnly setupName :: rest ∧ StmtsLawful P W rest

theorem StartsLawful.lawful {f : Shader.Function} (h : StartsLawful P W f)
    (hsetup : P ⟨setupName, 0, 0⟩) : f.Lawful P W := by
  obtain ⟨rest, hbody, hrest⟩ := h.body
  refine ⟨h.vars, ?_⟩
  rw [hbody]
  exact ⟨callOnly_lawful hsetup, hrest⟩

theorem clearHeader_lawful (hW : W stackBuffer) : StmtsLawful P W
    [.store stackBuffer (.var headerBase) (.u32 0), .store stackBuffer trapPlace (.u32 0)] := by
  simp only [StmtsLawful, Stmt.Lawful, and_true]
  exact ⟨⟨hW, place_header, uniform_u32 0⟩, hW, place_trap, uniform_u32 0⟩

theorem uniform_ioArgs (l : Layout) (params : List ValueType) :
    ∀ x ∈ ioArgs l params, x.2.Uniform := by
  intro x hx
  obtain ⟨⟨t, off⟩, -, rfl⟩ := List.mem_map.mp hx
  exact uniform_loadValue l (place_baseWord (by decide) off) t

theorem length_offsetsFrom (l : Layout) (start : Nat) (ts : List ValueType) :
    (l.offsetsFrom start ts).length = ts.length := by
  induction ts generalizing start with
  | nil => rfl
  | cons t ts ih => rw [Layout.offsetsFrom, List.length_cons, List.length_cons, ih]

theorem length_ioArgs (l : Layout) (params : List ValueType) :
    (ioArgs l params).length = params.length := by
  rw [ioArgs, List.length_map, List.length_zip, length_offsetsFrom, Nat.min_self]

theorem machineEntry_starts (l : Layout) (name : String) (sig : Signature) (first exit : BlockId)
    (stackWords : UInt32) (h : P ⟨dispatcherName, 0, 0⟩) (hW : W stackBuffer) :
    StartsLawful P W (machineEntry l name sig first exit stackWords) := by
  have hframe : ∀ (args : List (ValueType × Expr)) (p : Push), (∀ x ∈ args, x.2.Uniform) →
      StmtsLawful P W p.stmts →
      StmtsLawful P W (args.foldl (fun p x => p.value l x.2 x.1) p).stmts := by
    intro args
    induction args with
    | nil => exact fun p _ hp => hp
    | cons x args ih =>
        intro p hargs hp
        exact ih _ (fun y hy => hargs y (List.mem_cons_of_mem _ hy))
          (Push.lawful_value hW hp l (hargs x (List.mem_cons_self ..)) x.1)
  have hbelow : StmtsLawful P W
      ((Push.reserve {} (l.sizeOf sig.results)).blockId exit).stmts :=
    Push.lawful_blockId hW (show StmtsLawful P W (Push.reserve {} _).stmts from trivial) exit
  have hpush := Push.lawful_finish (Push.lawful_blockId hW
    (hframe (ioArgs l sig.params) _ (uniform_ioArgs l sig.params) hbelow) first) stackWords
  refine ⟨sp_clear, _, rfl, ?_⟩
  refine stmtsLawful_append.mpr ⟨stmtsLawful_append.mpr ⟨stmtsLawful_append.mpr
    ⟨clearHeader_lawful hW, stmtsLawful_singleton.mpr ⟨spVar_not_mem, uniform_u32 0⟩⟩, hpush⟩, ?_⟩
  exact ⟨lawful_writeSp hW, callOnly_lawful h, trivial⟩

theorem resultName_not_mem (i : Nat) : resultName i ∉ baseNames := by
  intro hmem
  have hhead : ∀ name ∈ baseNames, name.toList.head? ≠ some 'r' := by decide
  refine hhead _ hmem ?_
  simp [resultName, String.toList_append]

/-- What the entry point of a direct form does behind its start writes to the io words alone. -/
theorem directEntry_rest (l : Layout) (name callee : String) (sig : Signature)
    (h : P ⟨callee, sig.params.length, sig.results.length⟩) (hio : W ioBuffer) :
    ∃ rest, (directEntry l name callee sig).body = entryStart ++ rest ∧ StmtsLawful P W rest := by
  have hargs : AllUniform ((ioArgs l sig.params).map (·.2)) := by
    refine allUniform_iff.mpr fun e he => ?_
    obtain ⟨x, hx, rfl⟩ := List.mem_map.mp he
    exact uniform_ioArgs l sig.params x hx
  have hlen : ((ioArgs l sig.params).map (·.2)).length = sig.params.length := by
    rw [List.length_map, length_ioArgs]
  refine ⟨_, List.append_assoc .., stmtsLawful_append.mpr ⟨?_, ?_⟩⟩
  · rw [stmtsLawful_singleton, Stmt.Lawful, hlen, List.length_mapIdx]
    refine ⟨h, hargs, fun r hr => ?_⟩
    obtain ⟨i, hi, rfl⟩ := List.mem_mapIdx.mp hr
    exact resultName_not_mem i
  · refine stmtsLawful_iff.mpr fun s hs => ?_
    obtain ⟨stores, hstores, hs⟩ := List.mem_flatten.mp hs
    obtain ⟨i, hi, rfl⟩ := List.mem_mapIdx.mp hstores
    exact stmtsLawful_iff.mp (lawful_storeValue l hio (place_baseWord (by decide) _)
      (uniform_var (resultName_not_mem i)) _) s hs

theorem directEntry_starts (l : Layout) (name callee : String) (sig : Signature)
    (h : P ⟨callee, sig.params.length, sig.results.length⟩) (hW : W stackBuffer)
    (hio : W ioBuffer) : StartsLawful P W (directEntry l name callee sig) := by
  obtain ⟨rest, hbody, hrest⟩ := directEntry_rest l name callee sig h hio
  refine ⟨fun v hv => ?_, _, hbody, stmtsLawful_append.mpr ⟨clearHeader_lawful hW, hrest⟩⟩
  obtain ⟨i, hi, rfl⟩ := List.mem_mapIdx.mp (show v ∈ sig.results.mapIdx _ from hv)
  exact resultName_not_mem i

theorem resumeEntry_starts (h : P ⟨dispatcherName, 0, 0⟩) : StartsLawful P W resumeEntry :=
  ⟨by decide, _, rfl, stmtsLawful_singleton.mpr (callOnly_lawful h)⟩

theorem emptyEntry_lawful : emptyEntry.Lawful P W := ⟨by decide, trivial⟩

end Emit

end WasmShader
