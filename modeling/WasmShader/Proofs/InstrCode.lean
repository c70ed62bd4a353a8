import WasmShader.Proofs.WorkState

/-!
# Code of instructions

The code of a typed instruction does what its evaluation does. Emission succeeds, and the
code it gives, run from a state that holds the operands, locals and globals, ends if and
only if the evaluation ends: by going on with the operands in their variables, by leaving or
restarting the statement of the label that the evaluation branches to, with what the label
carries moved to where it is expected, by returning, or with the same trap.

Operands of the constructs around an instruction stay in their variables while it runs. So
what is stated of code is stated for any operands below its own.
-/

namespace WasmShader

open Execution (Datum Env FitsAll meaning callMeaning)
open Structured (Oracle Store Shared)

/-- The instruction needs neither the machine nor the host in a function, and calls only
functions that are kept. -/
structure Instr.IsDirect (p : Program) (a : Analysis) (kept : Nat → Prop) (fn : Nat) (i : Instr) :
    Prop where
  notIndirect : i.operation ≠ .callIndirect
  notSize : i.operation ≠ .memorySize
  notGrow : i.operation ≠ .memoryGrow
  call : ∀ target, i.operation = .call → i.imm = .call target →
    p.isImport target.toNat = false ∧ a.canCallDirect fn target.toNat = true ∧ kept target.toNat

namespace Emit

variable {σ : Type}

/-! ## Ends that agree -/

/-- The state behind a trap: the globals are written, and nothing else of the lane but the
trap. -/
def TrapsIn (p : Program) (l : Layout) (s : Execution.State) (code : TrapCode)
    (shared : Shared σ) (s' : Execution.State) : Prop :=
  ∃ ws : Array UInt32, ws.toList = p.globalWords l shared.globals
    ∧ s'.lane = ((s.withWords .globals ws).trapped code).lane

theorem TrapsIn.of_beside {p : Program} {l : Layout} {s s₁ s' : Execution.State} {code : TrapCode}
    {shared : Shared σ} (hb : Beside s s₁) (h : TrapsIn p l s₁ code shared s') :
    TrapsIn p l s code shared s' := by
  obtain ⟨ws₁, -, hlane₁⟩ := hb.lane
  obtain ⟨ws, hws, hlane⟩ := h
  refine ⟨ws, hws, ?_⟩
  rw [hlane, Execution.State.trapped, Execution.State.trapped, Execution.State.lane_withWords,
    Execution.State.lane_withWords, hlane₁, Execution.Lane.withWords_withWords]

/-- A trap in a state that holds the globals. -/
theorem trapsIn_trapped {p : Program} {l : Layout} {s : Execution.State} {shared : Shared σ}
    (h : s.lane.globals.toList = p.globalWords l shared.globals) (code : TrapCode) :
    TrapsIn p l s code shared (s.trapped code) :=
  ⟨s.lane.globals, h, rfl⟩

/-- What is behind a branch to a label that carries values. -/
def Label.Reached (p : Program) (l : Layout) (lab : Label) (outer : TypeStack)
    (below carried : List Datum) (flow : Execution.Flow) (st : Store σ)
    (s : Execution.State) : Prop :=
  let moved := Holds p l (outer.take lab.height ++ lab.types) (below.take lab.height ++ carried) st s
  match lab.kind with
  | .func => flow = .ret carried ∧ Holds p l [] [] st s
  | .block => flow = .leave lab.name ∧ moved
  | .loop => flow = .again lab.name ∧ moved

/-- Code and evaluation end in the same way; `below` are the operands around the body. -/
def Ends (p : Program) (l : Layout) (f : Function) (labels : List Label) (outer : TypeStack)
    (below : List Datum) (out : Option TypeStack) (s : Execution.State) :
    Execution.Ending Execution.Flow → Structured.Ending (Store σ) Structured.Flow → Prop
  | (.ok flow, s'), (.ok (.next stack), st) =>
    flow = .next ∧ Beside s s'
      ∧ ∃ types, out = some types ∧ Holds p l (outer ++ types) (below ++ stack) st s'
  | (.ok flow, s'), (.ok (.branch depth stack), st) =>
    Beside s s' ∧ ∃ lab, labels[depth]? = some lab
      ∧ lab.Reached p l outer below (Structured.top lab.types.length stack) flow st s'
  | (.ok flow, s'), (.ok (.ret stack), st) =>
    flow = .ret (Structured.top f.type.results.length stack) ∧ Beside s s' ∧ Holds p l [] [] st s'
  | (.error (.trap c), s'), (.error (.trap c'), st) => c = c' ∧ TrapsIn p l s c st.shared s'
  | _, _ => False

/-- A call of a direct form ends as the answer does. -/
def CallEnds (p : Program) (l : Layout) (s : Execution.State) :
    Execution.Ending (List Datum) → Structured.Ending (Shared σ) (List Datum) → Prop
  | (.ok results, s'), (.ok results', shared) =>
    results = results' ∧ ∃ ws : Array UInt32, ws.size = s.lane.globals.size
      ∧ ws.toList = p.globalWords l shared.globals ∧ s' = s.withWords .globals ws
  | (.error (.trap c), s'), (.error (.trap c'), shared) => c = c' ∧ TrapsIn p l s c shared s'
  | _, _ => False

/-- A shader function is the direct form of a function that an oracle answers for. -/
def IsDirectForm (env : Env) (p : Program) (oracle : Oracle σ) (target : Nat) (sig : Signature)
    (fn : Shader.Function) : Prop :=
  ∀ args (shared : Shared σ) s, FitsAll env.exe.layout sig.params args →
    p.GlobalsFit env.exe.layout shared.globals → Addressed s →
    s.lane.globals.toList = p.globalWords env.exe.layout shared.globals →
    Option.Rel (CallEnds p env.exe.layout s) (callMeaning env fn args s)
      (oracle (.call target) args shared)

/-- What the code of a function relies on: its module has the direct forms that it calls. -/
structure Setting (ctx : Context) (kept : Nat → Prop) (f : Function) (env : Env)
    (oracle : Oracle σ) : Prop where
  layout : ctx.layout = env.exe.layout
  globals : ctx.globals = .ofProgram ctx.program env.exe.layout
  numeric : HasNumeric env
  notCancelled : env.cancelled = false
  formed : ctx.program.Formed
  sound : oracle.Sound ctx.program env.exe.layout
  callee : ∀ target sig, ctx.program.isImport target = false →
    ctx.analysis.canCallDirect f.index target = true → kept target →
    ctx.program.signature? target = some sig →
    ∃ fn, env.exe.module.function? (directName target) = some fn
      ∧ env.exe.blockNamed? (directName target) = none
      ∧ IsDirectForm env ctx.program oracle target sig fn

/-- Code does what an evaluation does, whatever the operands around it. -/
def Simulates (p : Program) (f : Function) (env : Env) (labels : List Label) (outer : TypeStack)
    (types : TypeStack) (out : Option TypeStack) (es : State) (code : List Shader.Stmt)
    (run : List Datum → Structured.Eval σ Structured.Flow) : Prop :=
  ∀ below data st s, Ready es s →
    Holds p env.exe.layout (outer ++ types) (below ++ data) st s →
    FitsAll env.exe.layout types data → st.Fits p env.exe.layout f →
    Option.Rel (Ends p env.exe.layout f labels outer below out s) (meaning env code s)
      (run data st)

/-- The labels around a body: what they carry, and where the operands below that are. -/
structure LabelsFit (labels : List Label) (types : Program.Labels) (height : Nat) (count : Nat) :
    Prop where
  types : labels.map (·.types) = types
  height : ∀ lab ∈ labels, lab.height ≤ height
  name : ∀ lab ∈ labels, lab.kind ≠ .func → ∃ m, m ≤ count ∧ lab.name = labelName m

theorem LabelsFit.getElem? {labels : List Label} {types : Program.Labels} {height count : Nat}
    (h : LabelsFit labels types height count) {depth : Nat} {ts : List ValueType}
    (hts : types[depth]? = some ts) :
    ∃ lab, labels[depth]? = some lab ∧ lab.types = ts ∧ lab.height ≤ height := by
  rw [← h.types, List.getElem?_map] at hts
  obtain ⟨lab, hlab, rfl⟩ := Option.map_eq_some_iff.mp hts
  exact ⟨lab, hlab, rfl, h.height lab (List.mem_of_getElem? hlab)⟩

theorem LabelsFit.mono {labels : List Label} {types : Program.Labels}
    {height count height' count' : Nat} (h : LabelsFit labels types height count)
    (hheight : height ≤ height') (hcount : count ≤ count') :
    LabelsFit labels types height' count' := by
  refine ⟨h.types, fun lab hlab => Nat.le_trans (h.height lab hlab) hheight, fun lab hlab hk => ?_⟩
  obtain ⟨m, hm, hname⟩ := h.name lab hlab hk
  exact ⟨m, Nat.le_trans hm hcount, hname⟩

/-! ## Branches -/

theorem Holds.nil {p : Program} {l : Layout} {types : List ValueType} {data : List Datum}
    {st : Store σ} {s : Execution.State} (h : Holds p l types data st s) : Holds p l [] [] st s :=
  ⟨.nil, h.locals, h.globals⟩

/-- The code of a branch moves what the label carries to the label's height. -/
theorem branch_reached (env : Env) {p : Program} {l : Layout} {lab : Label}
    {outer rest : TypeStack} {below kept carried : List Datum} {st : Store σ}
    {s : Execution.State} (hheight : lab.height ≤ outer.length)
    (hholds : Holds p l (outer ++ (rest ++ lab.types)) (below ++ (kept ++ carried)) st s)
    (hcarried : lab.types.length = carried.length) (hkept : rest.length = kept.length)
    (hpresent : lab.kind ≠ .func → lab.height ≠ (outer ++ rest).length →
      ∀ n ∈ slotNames lab.height lab.types, (s.vars.lookup n).isSome = true) :
    ∃ flow s', meaning env (branchCode lab (outer ++ rest)) s = some (.ok flow, s')
      ∧ Beside s s' ∧ lab.Reached p l outer below carried flow st s' := by
  rw [← List.append_assoc, ← List.append_assoc] at hholds
  obtain ⟨hbelow, habove⟩ := hholds.below hcarried
  have htake : Holds p l (outer.take lab.height) (below.take lab.height) st s := by
    have := (hbelow.below hkept).1.take lab.height
    exact this
  have hlength : (outer.take lab.height).length = lab.height := by
    rw [List.length_take]; omega
  have hle : (outer.take lab.height).length ≤ (outer ++ rest).length := by
    rw [hlength, List.length_append]; omega
  unfold branchCode Label.Reached
  cases hkind : lab.kind with
  | func =>
      refine ⟨_, s, ?_, .refl s, rfl, hholds.nil⟩
      rw [Execution.meaning_singleton]
      exact Execution.stmtMeaning_ret (evalAll_of_forall₂ (habove.eval env.exe.layout))
  | block =>
      obtain ⟨s', hrun, hbeside, hmoved⟩ := htake.move env _ hle habove (by
        rw [hlength]; exact hpresent (by rw [hkind]; nofun))
      rw [hlength] at hrun
      refine ⟨_, s', ?_, hbeside, rfl, hmoved⟩
      rw [Execution.meaning_append_next hrun, Execution.meaning_singleton,
        Execution.stmtMeaning_leave]
  | loop =>
      obtain ⟨s', hrun, hbeside, hmoved⟩ := htake.move env _ hle habove (by
        rw [hlength]; exact hpresent (by rw [hkind]; nofun))
      rw [hlength] at hrun
      refine ⟨_, s', ?_, hbeside, rfl, hmoved⟩
      rw [Execution.meaning_append_next hrun, Execution.meaning_singleton,
        Execution.stmtMeaning_again]

/-! ## Instructions that compute -/

section Instructions

variable {ctx : Context} {kept : Nat → Prop} {f : Function} {env : Env} {oracle : Oracle σ}
  {labels : List Label} {outer : TypeStack} {es : State}

/-- One evaluation that goes on, and code that does. -/
theorem Simulates.of_next {p : Program} {types mid : TypeStack} {code : List Shader.Stmt}
    {run : List Datum → Structured.Eval σ Structured.Flow}
    (h : ∀ below data (st : Store σ) s, Ready es s →
      Holds p env.exe.layout (outer ++ types) (below ++ data) st s →
      FitsAll env.exe.layout types data → st.Fits p env.exe.layout f →
      ∃ stack st' s', run data st = some (.ok (.next stack), st')
        ∧ meaning env code s = some (.ok .next, s') ∧ Beside s s'
        ∧ Holds p env.exe.layout (outer ++ mid) (below ++ stack) st' s') :
    Simulates p f env labels outer types (some mid) es code run := by
  intro below data st s hready hholds hfits hst
  obtain ⟨stack, st', s', hrun, hcode, hbeside, hholds'⟩ := h below data st s hready hholds hfits hst
  rw [hrun, hcode]
  exact .some ⟨rfl, hbeside, mid, rfl, hholds'⟩

/-- Code that assigns the value of an expression to the next place. -/
theorem Holds.assign_push (env : Env) {p : Program} {l : Layout} {types : TypeStack} {data : List Datum}
    {st : Store σ} {s : Execution.State} (h : Holds p l types data st s) {t : ValueType}
    (hname : slotName types.length t ∈ es.names) (hready : Ready es s) {e : Shader.Expr}
    {d : Datum} (he : Execution.eval env.exe.layout s e = .ok d) :
    ∃ s', meaning env [.assign (slotName types.length t) e] s = some (.ok .next, s')
      ∧ Beside s s' ∧ Holds p l (types ++ [t]) (data ++ [d]) st s' := by
  obtain ⟨s', hassign, hbeside, hholds, -⟩ := h.push rfl (hready.present _ hname) d
  refine ⟨s', ?_, hbeside, hholds⟩
  rw [Execution.meaning_singleton, Execution.stmtMeaning_assign he hassign]

theorem eval_valueLiteral (l : Layout) (s : Execution.State) (v : Value) :
    Execution.eval l s (valueLiteral l v) = .ok (.ofValue l v) := by
  rw [valueLiteral, Execution.eval]
  rfl

theorem emitConstant_emits (hlayout : ctx.layout = env.exe.layout) {v : Value}
    (hv : v.type.isKnown = true) {types : TypeStack} (hstack : es.stack = outer ++ types) {p : Program}
    {run : List Datum → Structured.Eval σ Structured.Flow}
    (hrun : ∀ stack (st : Store σ), st.Fits p env.exe.layout f →
      run stack st = some (.ok (.next (stack ++ [.ofValue env.exe.layout v])), st)) :
    Emits ctx f (emitConstant ctx v) es fun code es' =>
      es'.stack = outer ++ (types ++ [v.type])
        ∧ Simulates p f env labels outer types (some (types ++ [v.type])) es' code run := by
  rw [emitConstant, hlayout]
  refine .bind (push_emits hv es) ?_
  rintro _ es₁ - ⟨rfl, hname, hstack₁⟩
  refine .pure ⟨by rw [hstack₁, hstack, List.append_assoc], ?_⟩
  refine .of_next fun below data st s hready hholds hfits hst => ?_
  rw [hstack] at hname ⊢
  obtain ⟨s', hcode, hbeside, hholds'⟩ := hholds.assign_push env hname hready
    (eval_valueLiteral env.exe.layout s v)
  rw [List.append_assoc, List.append_assoc] at hholds'
  exact ⟨_, st, s', hrun data st hst, hcode, hbeside, hholds'⟩

theorem emitNumeric_emits (hset : Setting ctx kept f env oracle) {i : Instr} {op : NumericOp}
    (hop : i.operation = .numeric op) {rest : TypeStack}
    (hstack : es.stack = outer ++ (rest ++ op.signature.params)) :
    Emits ctx f (emitNumeric ctx op) es fun code es' =>
      es'.stack = outer ++ (rest ++ op.signature.results)
        ∧ Simulates ctx.program f env labels outer (rest ++ op.signature.params)
          (some (rest ++ op.signature.results)) es' code
          (Structured.evalInstr ctx.program env.exe.layout oracle i) := by
  have hmem := mem_table_of_operation hop
  obtain ⟨t, ht, hknown⟩ := (shape_of_mem hmem).results
  obtain ⟨u, hu⟩ := (shape_of_mem hmem).first
  rw [← List.append_assoc] at hstack
  rw [emitNumeric]
  refine .bind (pop_emits rfl hstack) ?_
  rintro _ es₁ - ⟨rfl, hstack₁⟩
  rw [ht]
  refine .bind (entry_emits rfl es₁) ?_
  rintro _ _ - ⟨rfl, rfl⟩
  refine .bind (push_emits hknown es₁) ?_
  rintro _ es₂ - ⟨rfl, hname, hstack₂⟩
  refine .bind (entry_emits hu es₂) ?_
  rintro _ _ - ⟨rfl, rfl⟩
  refine .pure ⟨by rw [hstack₂, hstack₁, List.append_assoc], ?_⟩
  intro below data st s hready hholds hfits hst
  obtain ⟨as, bs, rfl, has, hbs⟩ := hfits.of_append
  rw [← List.append_assoc, ← List.append_assoc] at hholds
  obtain ⟨hbelow, habove⟩ := hholds.below hbs.length_eq
  have hargs := habove.eval env.exe.layout
  have heval := @Structured.evalNumeric _ ctx.program env.exe.layout oracle _ _ hop as _
    hbs.length_eq.symm st
  rw [hstack₁] at hname ⊢
  rw [hset.layout]
  have hend := numericResult_end hmem ht hbs
  cases hr : Structured.numericResult env.exe.layout op bs with
  | ok d =>
      rw [hr] at heval
      obtain ⟨s', hassign, hbeside, hholds', -⟩ := hbelow.push rfl (hready.present _ hname) d
      rw [heval, meaning_numeric_ok hset.numeric hmem hbs hargs hr hassign]
      rw [List.append_assoc, List.append_assoc] at hholds'
      exact .some ⟨rfl, hbeside, _, rfl, hholds'⟩
  | error e =>
      rw [hr] at heval hend
      cases e with
      | trap c =>
          rw [heval, meaning_numeric_trap hmem hbs hargs hr]
          exact .some ⟨rfl, trapsIn_trapped hholds.globals c⟩
      | _ => exact hend.elim

/-! ## Globals -/

theorem globalPlace_emits {idx : UInt32} {g : Global}
    (hg : ctx.program.globals[idx.toNat]? = some g) :
    Emits ctx f (globalPlace ctx idx) es fun r es' =>
      (g, ctx.globals.offsets.getD idx.toNat none) = r ∧ es = es' := by
  rw [globalPlace]
  refine .bind (entry_emits hg es) ?_
  rintro _ _ - ⟨rfl, rfl⟩
  exact .pure ⟨rfl, rfl⟩

/-- Where a mutable global is, whatever the globals hold. -/
theorem exists_place (hset : Setting ctx kept f env oracle) {i : Nat} {g : Global}
    (hg : ctx.program.globals[i]? = some g) (hm : g.isMutable = true) :
    ∃ off, ctx.globals.offsets.getD i none = some off
      ∧ ∀ values d, values[i]? = some d → ∃ front back, front.length = off
        ∧ ctx.program.globalWords env.exe.layout values
          = front ++ Datum.stored env.exe.layout g.type d ++ back
        ∧ ∀ d', ctx.program.globalWords env.exe.layout (values.set i d')
          = front ++ Datum.stored env.exe.layout g.type d' ++ back := by
  have hplace := fun values d hd =>
    GlobalLayout.offsetsFrom_of_mutable (l := env.exe.layout) 0 values (d := d) hg hm hd
  have hsome : (ctx.program.globals.map fun g => Datum.ofValue env.exe.layout g.init)[i]?
      = some (.ofValue env.exe.layout g.init) := by
    rw [List.getElem?_map, hg]; rfl
  obtain ⟨front, -, hoff, -⟩ := hplace _ _ hsome
  refine ⟨0 + front.length, ?_, fun values d hd => ?_⟩
  · rw [hset.globals, List.getD_eq_getElem?_getD]
    change ((GlobalLayout.offsetsFrom env.exe.layout 0 ctx.program.globals)[i]?).getD none = _
    rw [hoff]
    rfl
  · obtain ⟨front', back, hoff', hwords, hset'⟩ := hplace values d hd
    rw [hoff'] at hoff
    refine ⟨front', back, ?_, hwords, hset'⟩
    rw [Option.some.injEq, Option.some.injEq] at hoff
    omega

theorem getD_offsets_of_immutable (hset : Setting ctx kept f env oracle) {i : Nat} {g : Global}
    (hg : ctx.program.globals[i]? = some g) (hm : g.isMutable = false) :
    ctx.globals.offsets.getD i none = none := by
  rw [hset.globals, List.getD_eq_getElem?_getD]
  change ((GlobalLayout.offsetsFrom env.exe.layout 0 ctx.program.globals)[i]?).getD none = _
  rw [GlobalLayout.offsetsFrom_of_immutable hg hm]
  rfl

/-- The words of a global can be addressed. -/
theorem Ready.placesAt {s : Execution.State} (h : Ready es s) (l : Layout) {off n : Nat}
    (hn : off + n ≤ s.lane.globals.size) :
    Execution.PlacesAt l s globalsBuffer .globals (baseWord globalBase off) off n :=
  Execution.placesAt_baseWord h.noGlobalBase h.globalBase h.addressable rfl hn

theorem eval_global (hset : Setting ctx kept f env oracle) {i : Nat} {g : Global}
    (hg : ctx.program.globals[i]? = some g) {off : Nat} {values : List Datum} {d : Datum}
    {front back : List UInt32} (hfront : front.length = off)
    (hwords : ctx.program.globalWords env.exe.layout values
      = front ++ Datum.stored env.exe.layout g.type d ++ back)
    (hfit : d.Fits env.exe.layout g.type) {s : Execution.State} (hready : Ready es s)
    (hglobals : s.lane.globals.toList = ctx.program.globalWords env.exe.layout values) :
    Execution.eval env.exe.layout s
      (loadValue env.exe.layout globalsBuffer (baseWord globalBase off) g.type) = .ok d := by
  have hknown := (hset.formed.globalKnown g (List.mem_of_getElem? hg)).1
  have hlist := hglobals.trans hwords
  have hsize : off + env.exe.layout.words g.type ≤ s.lane.globals.size := by
    rw [← Array.length_toList, hlist, List.length_append, List.length_append,
      Datum.length_stored]
    omega
  rw [Execution.eval_loadValue hknown (hready.placesAt env.exe.layout hsize)]
  change Except.ok (Datum.ofWords _ (Execution.wordsFrom s.lane.globals off _)) = _
  rw [Execution.wordsFrom_of_append hlist hfront (Datum.length_stored ..), hfit]

theorem meaning_setGlobal (hset : Setting ctx kept f env oracle) {i : Nat} {g : Global}
    (hg : ctx.program.globals[i]? = some g) {off : Nat} {st : Store σ} {old d : Datum}
    {front back : List UInt32} (hfront : front.length = off)
    (hwords : ctx.program.globalWords env.exe.layout st.shared.globals
      = front ++ Datum.stored env.exe.layout g.type old ++ back)
    (hwords' : ctx.program.globalWords env.exe.layout (st.shared.globals.set i d)
      = front ++ Datum.stored env.exe.layout g.type d ++ back)
    {types : TypeStack} {data : List Datum} {s : Execution.State} (hready : Ready es s)
    (hholds : Holds ctx.program env.exe.layout types data st s) {name : String}
    (hname : s.vars.lookup name = some d) :
    ∃ s', meaning env (storeValue env.exe.layout globalsBuffer (baseWord globalBase off)
        (.var name) g.type) s = some (.ok .next, s') ∧ Beside s s'
      ∧ Holds ctx.program env.exe.layout types data
        { st with shared := { st.shared with globals := st.shared.globals.set i d } } s' := by
  have hknown := (hset.formed.globalKnown g (List.mem_of_getElem? hg)).1
  have hlist := hholds.globals.trans hwords
  have hsize : off + env.exe.layout.words g.type ≤ s.lane.globals.size := by
    rw [← Array.length_toList, hlist, List.length_append, List.length_append,
      Datum.length_stored]
    omega
  have hrun := Execution.meaning_storeValue hknown (hready.placesAt env.exe.layout hsize)
    (v := .var name) (d := d) fun us _ => by
      rw [Execution.eval]
      exact Execution.State.lookup_of_vars hname
  refine ⟨_, hrun, ⟨fun _ _ => rfl, fun _ => rfl, rfl, _, ?_, rfl⟩, hholds.slots, hholds.locals, ?_⟩
  · exact Execution.size_writeAt ..
  · change (LaneStack.writeAt s.lane.globals off _).toList = _
    rw [Execution.toList_writeAt_of_append hlist hfront
      ((Datum.length_stored ..).trans (Datum.length_stored ..).symm)]
    exact hwords'.symm

/-! ## Calls -/

theorem Holds.withShared {p : Program} {l : Layout} {types : TypeStack} {data : List Datum}
    {st : Store σ} {s : Execution.State} (h : Holds p l types data st s) {ws : Array UInt32}
    {shared : Shared σ} (hws : ws.toList = p.globalWords l shared.globals) :
    Holds p l types data { st with shared } (s.withWords .globals ws) :=
  ⟨h.slots, h.locals, hws⟩

theorem beside_withWords {s : Execution.State} {ws : Array UInt32}
    (h : ws.size = s.lane.globals.size) : Beside s (s.withWords .globals ws) :=
  ⟨fun _ _ => rfl, fun _ => rfl, rfl, ws, h, rfl⟩

theorem emitCall_emits (hset : Setting ctx kept f env oracle) {i : Instr} {target : UInt32}
    {sig : Signature} (hop : i.operation = .call) (himm : i.imm = .call target)
    (hsig : ctx.program.signature? target.toNat = some sig)
    (himport : ctx.program.isImport target.toNat = false)
    (hdirect : ctx.analysis.canCallDirect f.index target.toNat = true)
    (hkept : kept target.toNat) {rest : TypeStack}
    (hstack : es.stack = outer ++ (rest ++ sig.params)) :
    Emits ctx f (emitCall ctx f target.toNat) es fun code es' =>
      es'.stack = outer ++ (rest ++ sig.results)
        ∧ Simulates ctx.program f env labels outer (rest ++ sig.params)
          (some (rest ++ sig.results)) es' code
          (Structured.evalInstr ctx.program env.exe.layout oracle i) := by
  obtain ⟨fn, hfn, hnotBlock, hform⟩ := hset.callee _ _ himport hdirect hkept hsig
  have hrequest : Structured.callRequest ctx.program target.toNat = .call target.toNat := by
    rw [Program.isImport, decide_eq_false_iff_not] at himport
    rw [Structured.callRequest, List.getElem?_eq_none (by omega)]
  rw [← List.append_assoc] at hstack
  unfold emitCall
  simp only [hsig, Option.getD_some, himport, hdirect, Bool.not_true, Bool.false_eq_true, if_false]
  refine .bind (pop_emits rfl hstack) ?_
  rintro _ es₁ - ⟨rfl, hstack₁⟩
  refine .bind (pushAll_emits (known_of_signature? hset.formed hsig).results es₁) ?_
  rintro _ es₂ - ⟨rfl, hnames, hstack₂⟩
  refine .pure ⟨by rw [hstack₂, hstack₁, List.append_assoc], ?_⟩
  rw [hstack₁] at hnames ⊢
  intro below data st s hready hholds hfits hst
  obtain ⟨as, bs, rfl, has, hbs⟩ := hfits.of_append
  rw [← List.append_assoc, ← List.append_assoc] at hholds
  obtain ⟨hbelow, habove⟩ := hholds.below hbs.length_eq
  have hbefore : Execution.Exec.outcome (Execution.beforeCall env (directName target.toNat)) s
      = some (.ok (), s) := by
    rw [Execution.beforeCall, hnotBlock]; rfl
  rw [Structured.evalCall hop himm hsig, hrequest,
    Structured.askTop_append _ as bs hbs.length_eq.symm st, Execution.meaning_singleton,
    Execution.stmtMeaning_call hfn hbefore
      (evalAll_of_forall₂ (habove.eval env.exe.layout))]
  have hrel := hform bs st.shared s hbs hst.globals hready.toAddressed hholds.globals
  have hanswer := hset.sound (.call target.toNat) sig bs st.shared
    (hrequest ▸ Structured.requestSignature_callRequest hset.formed hsig) hbs hst.globals
  generalize callMeaning env fn bs s = x at hrel
  generalize oracle (.call target.toNat) bs st.shared = y at hrel hanswer
  cases hrel with
  | none => exact .none
  | some hend =>
    unfold CallEnds at hend
    split at hend
    · next results s₁ results' shared =>
      obtain ⟨rfl, ws, hsize, hws, rfl⟩ := hend
      have hresults := (hanswer _ _ rfl).1
      have hbeside := beside_withWords hsize
      obtain ⟨s₂, hassign, hbeside₂, hholds₂⟩ := (hbelow.withShared hws).pushAll
        (fun n hn => (hready.beside hbeside).present n (hnames n hn)) hresults.length_eq
      have hlen : results.length = (slotNames (outer ++ rest).length sig.results).length := by
        rw [length_slotNames, hresults.length_eq]
      change Option.Rel _ (if results.length = _ then _ else _) _
      rw [if_pos hlen, hassign]
      rw [List.append_assoc, List.append_assoc] at hholds₂
      exact .some ⟨rfl, hbeside.trans hbeside₂, _, rfl, hholds₂⟩
    · obtain ⟨rfl, htraps⟩ := hend
      exact .some ⟨rfl, htraps⟩
    · exact hend.elim

/-! ## All instructions -/

theorem eval_isNonzero {l : Layout} {s : Execution.State} {name : String} {c : Datum}
    (hname : s.vars.lookup name = some c) (hc : c.Fits l .i32) :
    ∃ b, Execution.eval l s (Shader.Expr.isNonzero (.var name)) = .ok b ∧ b.truth = c.truth := by
  have htype : c.type = .u32 := hc.type_eq
  refine ⟨.ofBool (c.x != 0), ?_, ?_⟩
  · rw [Shader.Expr.isNonzero, Execution.eval, Execution.eval,
      Execution.State.lookup_of_vars hname]
    change Execution.binary .ne c (.ofU32 0) = _
    rw [Execution.binary, htype]
    rfl
  · rw [truth_ofBool, Datum.truth]
    by_cases h : c.x = 0 <;> simp [h]

/-- Code for an evaluation, with the stack behind it if control gets there. -/
def CodeFor (p : Program) (f : Function) (env : Env) (labels : List Label) (outer : TypeStack)
    (types : TypeStack) (out : Option TypeStack)
    (run : List Datum → Structured.Eval σ Structured.Flow) (code : List Shader.Stmt)
    (es : State) : Prop :=
  (∀ mid, out = some mid → es.stack = outer ++ mid)
    ∧ Simulates p f env labels outer types out es code run

theorem CodeFor.of_stack {p : Program} {types mid : TypeStack} {code : List Shader.Stmt}
    {run : List Datum → Structured.Eval σ Structured.Flow} (hstack : es.stack = outer ++ mid)
    (h : Simulates p f env labels outer types (some mid) es code run) :
    CodeFor p f env labels outer types (some mid) run code es :=
  ⟨fun _ heq => by cases heq; exact hstack, h⟩

/-- A branch that is taken reaches its label. -/
theorem branch_ends (env : Env) {p : Program} {l : Layout} {ltypes : Program.Labels} {n : Nat}
    (hlabels : LabelsFit labels ltypes outer.length n) {depth : UInt32} {lab : Label}
    (hlab : labels[depth.toNat]? = some lab) {rest : TypeStack} {out : Option TypeStack}
    {below kept carried : List Datum} {st : Store σ} {s : Execution.State} (hready : Ready es s)
    (hholds : Holds p l (outer ++ (rest ++ lab.types)) (below ++ (kept ++ carried)) st s)
    (hcarried : lab.types.length = carried.length) (hkept : rest.length = kept.length)
    (hdeclared : lab.IsDeclared (outer ++ rest) es) :
    Option.Rel (Ends p l f labels outer below out s)
      (meaning env (branchCode lab (outer ++ rest)) s)
      (some (.ok (.branch depth.toNat (kept ++ carried)), st)) := by
  obtain ⟨flow, s', hrun, hbeside, hreached⟩ := branch_reached env
    (hlabels.height lab (List.mem_of_getElem? hlab)) hholds hcarried hkept
    (fun hkind hne n hn => hready.present n (hdeclared hkind hne n hn))
  rw [hrun]
  refine .some ⟨hbeside, lab, hlab, ?_⟩
  rw [Structured.top_append kept carried hcarried.symm]
  exact hreached

/-- Code that assigns the top operand to a local. -/
theorem meaning_setLocal (env : Env) {p : Program} {i : Nat} {t : ValueType}
    (ht : f.locals[i]? = some t) (hname : localName i ∈ es.names) {types : TypeStack}
    {data : List Datum} {d : Datum} {st : Store σ} {s : Execution.State} (hready : Ready es s)
    (hst : st.Fits p env.exe.layout f)
    (hholds : Holds p env.exe.layout (types ++ [t]) (data ++ [d]) st s) :
    ∃ s', meaning env [.assign (localName i) (.var (slotName types.length t))] s
        = some (.ok .next, s') ∧ Beside s s'
      ∧ Holds p env.exe.layout (types ++ [t]) (data ++ [d])
        { st with locals := st.locals.set i d } s' := by
  have hi : i < st.locals.length := by
    rw [← hst.locals.length_eq]
    exact (List.getElem?_eq_some_iff.mp ht).1
  obtain ⟨s', hassign, hbeside, hholds'⟩ :=
    hholds.setLocal (hready.present _ hname) hi d
  obtain ⟨-, habove⟩ := hholds.below rfl
  cases habove with
  | cons hd _ =>
      refine ⟨s', ?_, hbeside, hholds'⟩
      have hvalue : Execution.eval env.exe.layout s (.var (slotName types.length t)) = .ok d :=
        Execution.State.lookup_of_vars hd
      rw [Execution.meaning_singleton, Execution.stmtMeaning_assign hvalue hassign]

theorem emitSelect_emits {i : Instr} (hop : i.operation = .select) {t : ValueType}
    {rest : TypeStack} (hstack : es.stack = outer ++ (rest ++ [t, t, .i32])) :
    Emits ctx f (emitInstr ctx f labels i) es
      (CodeFor ctx.program f env labels outer (rest ++ [t, t, .i32]) (some (rest ++ [t]))
        (Structured.evalInstr ctx.program env.exe.layout oracle i)) := by
  have hlength : es.stack.length = (outer ++ rest).length + 3 := by
    rw [hstack, ← List.append_assoc, List.length_append]; rfl
  have hentry : es.stack[es.stack.length - 3]? = some t := by
    rw [hlength, hstack, ← List.append_assoc, Nat.add_sub_cancel,
      List.getElem?_append_right (Nat.le_refl _), Nat.sub_self]
    rfl
  unfold emitInstr
  simp only [hop]
  refine .bind_get (.of_known fun _ hknown => ?_)
  have ht := hknown t (List.mem_of_getElem? hentry)
  rw [if_neg (by omega)]
  refine .bind (entry_emits hentry es) ?_
  rintro _ _ - ⟨rfl, rfl⟩
  rw [← List.append_assoc] at hstack
  refine .bind (pop_emits (n := 3) rfl hstack) ?_
  rintro _ es₁ - ⟨rfl, hstack₁⟩
  refine .bind (push_emits ht es₁) ?_
  rintro _ es₂ - ⟨rfl, hname, hstack₂⟩
  rw [hstack₁] at hname hstack₂ ⊢
  refine .pure (.of_stack (by rw [hstack₂, List.append_assoc])
    (.of_next fun below data st s hready hholds hfits hst => ?_))
  obtain ⟨as, bs, rfl, has, hbs⟩ := hfits.of_append
  match bs, hbs with
  | [a, b, c], .cons ha (.cons hb (.cons hc .nil)) =>
      rw [← List.append_assoc, ← List.append_assoc] at hholds
      obtain ⟨hbelow, habove⟩ := hholds.below rfl
      match habove with
      | .cons hva (.cons hvb (.cons hvc .nil)) =>
          obtain ⟨v, hv, htruth⟩ := eval_isNonzero hvc hc
          have heval : Execution.eval env.exe.layout s (.select
              (Shader.Expr.isNonzero (.var (slotName ((outer ++ rest).length + 1 + 1) .i32)))
              (.var (slotName (outer ++ rest).length t))
              (.var (slotName ((outer ++ rest).length + 1) t)))
              = .ok (if c.truth then a else b) := by
            rw [Execution.eval, hv]
            change (if v.truth then Execution.State.lookup s _
              else Execution.State.lookup s _) = _
            rw [htruth, Execution.State.lookup_of_vars hva, Execution.State.lookup_of_vars hvb]
            split <;> rfl
          obtain ⟨s', hrun, hbeside, hholds'⟩ := hbelow.assign_push env hname hready heval
          rw [List.append_assoc, List.append_assoc] at hholds'
          exact ⟨_, st, s', Structured.evalSelect hop as a b c st, hrun, hbeside, hholds'⟩

theorem emitLocalGet_emits {i : Instr} {idx : UInt32} (hop : i.operation = .localGet)
    (himm : i.imm = .localVar idx) {t : ValueType} (ht : f.locals[idx.toNat]? = some t)
    {types : TypeStack} (hstack : es.stack = outer ++ types) :
    Emits ctx f (emitInstr ctx f labels i) es
      (CodeFor ctx.program f env labels outer types (some (types ++ [t]))
        (Structured.evalInstr ctx.program env.exe.layout oracle i)) := by
  unfold emitInstr
  simp only [hop, himm]
  refine .of_known fun hlocals _ => .bind (entry_emits ht es) ?_
  rintro _ _ - ⟨rfl, rfl⟩
  refine .bind (push_emits (hlocals t (List.mem_of_getElem? ht)) es) ?_
  rintro _ es₁ - ⟨rfl, hname, hstack₁⟩
  refine .bind (localVar_emits ht es₁) ?_
  rintro _ es₂ hgrows ⟨rfl, hlocal, hstack₂⟩
  rw [hstack] at hname hstack₁ ⊢
  refine .pure (.of_stack (by rw [hstack₂, hstack₁, List.append_assoc])
    (.of_next fun below data st s hready hholds hfits hst => ?_))
  obtain ⟨d, hd⟩ := Option.isSome_iff_exists.mp (hready.present _ hlocal)
  have hvalue : Execution.eval env.exe.layout s (.var (localName idx.toNat)) = .ok d :=
    Execution.State.lookup_of_vars hd
  obtain ⟨s', hrun, hbeside, hholds'⟩ :=
    hholds.assign_push env (hgrows.names hname) hready hvalue
  rw [List.append_assoc, List.append_assoc] at hholds'
  exact ⟨_, st, s', Structured.evalLocalGet hop himm data (hholds.locals _ d hd), hrun,
    hbeside, hholds'⟩

theorem emitLocalSet_emits {i : Instr} {idx : UInt32} (hop : i.operation = .localSet)
    (himm : i.imm = .localVar idx) {t : ValueType} (ht : f.locals[idx.toNat]? = some t)
    {rest : TypeStack} (hstack : es.stack = outer ++ (rest ++ [t])) :
    Emits ctx f (emitInstr ctx f labels i) es
      (CodeFor ctx.program f env labels outer (rest ++ [t]) (some rest)
        (Structured.evalInstr ctx.program env.exe.layout oracle i)) := by
  unfold emitInstr
  simp only [hop, himm]
  rw [← List.append_assoc] at hstack
  refine .bind (pop1_emits hstack) ?_
  rintro _ es₁ - ⟨rfl, hstack₁⟩
  refine .bind (localVar_emits ht es₁) ?_
  rintro _ es₂ - ⟨rfl, hlocal, hstack₂⟩
  refine .pure (.of_stack (hstack₂.trans hstack₁)
    (.of_next fun below data st s hready hholds hfits hst => ?_))
  obtain ⟨as, bs, rfl, has, hbs⟩ := hfits.of_append
  obtain ⟨d, rfl, -⟩ := hbs.of_single
  rw [← List.append_assoc, ← List.append_assoc] at hholds
  obtain ⟨s', hrun, hbeside, hholds'⟩ := meaning_setLocal env ht hlocal hready hst hholds
  exact ⟨as, _, s', Structured.evalLocalSet hop himm as d st, hrun, hbeside,
    (hholds'.below rfl).1⟩

theorem emitLocalTee_emits {i : Instr} {idx : UInt32} (hop : i.operation = .localTee)
    (himm : i.imm = .localVar idx) {t : ValueType} (ht : f.locals[idx.toNat]? = some t)
    {rest : TypeStack} (hstack : es.stack = outer ++ (rest ++ [t])) :
    Emits ctx f (emitInstr ctx f labels i) es
      (CodeFor ctx.program f env labels outer (rest ++ [t]) (some (rest ++ [t]))
        (Structured.evalInstr ctx.program env.exe.layout oracle i)) := by
  have hlast : es.stack.getLast? = some t := by
    rw [hstack, ← List.append_assoc, List.getLast?_append]; rfl
  have hlength : es.stack.length - 1 = (outer ++ rest).length := by
    rw [hstack, ← List.append_assoc, List.length_append]; rfl
  unfold emitInstr
  simp only [hop, himm]
  refine .bind_get (.of_known fun _ hknown => ?_)
  simp only [hlast]
  refine .bind (localVar_emits ht es) ?_
  rintro _ es₁ - ⟨rfl, hlocal, hstack₁⟩
  refine .bind (slot_emits (hknown t (List.mem_of_getLast? hlast)) (es.stack.length - 1) es₁) ?_
  rintro _ es₂ hgrows ⟨rfl, -, hstack₂⟩
  refine .pure (.of_stack (hstack₂.trans (hstack₁.trans hstack))
    (.of_next fun below data st s hready hholds hfits hst => ?_))
  obtain ⟨as, bs, rfl, has, hbs⟩ := hfits.of_append
  obtain ⟨d, rfl, -⟩ := hbs.of_single
  rw [← List.append_assoc, ← List.append_assoc] at hholds
  obtain ⟨s', hrun, hbeside, hholds'⟩ :=
    meaning_setLocal env ht (hgrows.names hlocal) hready hst hholds
  rw [List.append_assoc, List.append_assoc] at hholds'
  rw [hlength]
  exact ⟨_, _, s', Structured.evalLocalTee hop himm as d st, hrun, hbeside, hholds'⟩

theorem emitGlobalGet_emits (hset : Setting ctx kept f env oracle) {i : Instr} {idx : UInt32}
    (hop : i.operation = .globalGet) (himm : i.imm = .globalVar idx) {g : Global}
    (hg : ctx.program.globals[idx.toNat]? = some g) {types : TypeStack}
    (hstack : es.stack = outer ++ types) :
    Emits ctx f (emitInstr ctx f labels i) es
      (CodeFor ctx.program f env labels outer types (some (types ++ [g.type]))
        (Structured.evalInstr ctx.program env.exe.layout oracle i)) := by
  unfold emitInstr
  simp only [hop, himm]
  obtain ⟨hknown, htype⟩ := hset.formed.globalKnown g (List.mem_of_getElem? hg)
  refine .bind (globalPlace_emits hg) ?_
  rintro _ _ - ⟨rfl, rfl⟩
  cases hm : g.isMutable with
  | false =>
      rw [← htype] at hknown ⊢
      rw [getD_offsets_of_immutable hset hg hm]
      refine (emitConstant_emits hset.layout hknown hstack fun stack st hst => ?_).mono
        fun _ _ _ h => .of_stack h.1 h.2
      obtain ⟨d, hd, -, hinit⟩ := Structured.getElem?_global hst.globals hg
      rw [Structured.evalGlobalGet hop himm stack hd, hinit hm]
  | true =>
      obtain ⟨off, hoff, hwords⟩ := exists_place hset hg hm
      rw [hoff]
      refine .bind (push_emits hknown es) ?_
      rintro _ es₁ - ⟨rfl, hname, hstack₁⟩
      rw [hstack] at hname hstack₁ ⊢
      refine .pure (.of_stack (by rw [hstack₁, List.append_assoc])
        (.of_next fun below data st s hready hholds hfits hst => ?_))
      obtain ⟨d, hd, hfit, -⟩ := Structured.getElem?_global hst.globals hg
      obtain ⟨front, back, hfront, hvalue, -⟩ := hwords _ d hd
      rw [hset.layout]
      obtain ⟨s', hrun, hbeside, hholds'⟩ := hholds.assign_push env hname hready
        (eval_global hset hg hfront hvalue hfit hready hholds.globals)
      rw [List.append_assoc, List.append_assoc] at hholds'
      exact ⟨_, st, s', Structured.evalGlobalGet hop himm data hd, hrun, hbeside, hholds'⟩

theorem emitGlobalSet_emits (hset : Setting ctx kept f env oracle) {i : Instr} {idx : UInt32}
    (hop : i.operation = .globalSet) (himm : i.imm = .globalVar idx) {g : Global}
    (hg : ctx.program.globals[idx.toNat]? = some g) (hm : g.isMutable = true) {rest : TypeStack}
    (hstack : es.stack = outer ++ (rest ++ [g.type])) :
    Emits ctx f (emitInstr ctx f labels i) es
      (CodeFor ctx.program f env labels outer (rest ++ [g.type]) (some rest)
        (Structured.evalInstr ctx.program env.exe.layout oracle i)) := by
  obtain ⟨off, hoff, hwords⟩ := exists_place hset hg hm
  unfold emitInstr
  simp only [hop, himm]
  refine .bind (globalPlace_emits hg) ?_
  rintro _ _ - ⟨rfl, rfl⟩
  rw [hoff]
  rw [← List.append_assoc] at hstack
  refine .bind (pop1_emits hstack) ?_
  rintro _ es₁ - ⟨rfl, hstack₁⟩
  refine .bind (carrierOf_emits (hset.formed.globalKnown g (List.mem_of_getElem? hg)).1 es₁) ?_
  rintro _ _ - ⟨rfl, rfl⟩
  refine .pure (.of_stack hstack₁ (.of_next fun below data st s hready hholds hfits hst => ?_))
  obtain ⟨as, bs, rfl, has, hbs⟩ := hfits.of_append
  obtain ⟨d, rfl, hfit⟩ := hbs.of_single
  rw [← List.append_assoc, ← List.append_assoc] at hholds
  obtain ⟨hbelow, habove⟩ := hholds.below rfl
  obtain ⟨old, hold, -⟩ := Structured.getElem?_global hst.globals hg
  obtain ⟨front, back, hfront, hvalue, hvalue'⟩ := hwords _ old hold
  cases habove with
  | cons hd _ =>
      rw [hset.layout]
      obtain ⟨s', hrun, hbeside, hholds'⟩ :=
        meaning_setGlobal hset hg hfront hvalue (hvalue' d) hready hbelow hd
      exact ⟨as, _, s', Structured.evalGlobalSet hop himm as d st, hrun, hbeside, hholds'⟩

theorem emitBrIf_emits {i : Instr} {depth : UInt32} (hop : i.operation = .brIf)
    (himm : i.imm = .branch depth) {ltypes : Program.Labels}
    (hlabels : LabelsFit labels ltypes outer.length es.labels) {types : List ValueType}
    (hlabel : ltypes[depth.toNat]? = some types) {rest : TypeStack}
    (hstack : es.stack = outer ++ (rest ++ types ++ [.i32])) :
    Emits ctx f (emitInstr ctx f labels i) es
      (CodeFor ctx.program f env labels outer (rest ++ types ++ [.i32]) (some (rest ++ types))
        (Structured.evalInstr ctx.program env.exe.layout oracle i)) := by
  obtain ⟨lab, hlab, rfl, -⟩ := hlabels.getElem? hlabel
  unfold emitInstr
  simp only [hop, himm]
  rw [← List.append_assoc] at hstack
  refine .bind (pop1_emits hstack) ?_
  rintro _ es₁ - ⟨rfl, hstack₁⟩
  have hstack' : es₁.stack = outer ++ rest ++ lab.types := by rw [hstack₁, List.append_assoc]
  refine .bind (emitBranch_emits hlab hstack') ?_
  rintro _ es₂ - ⟨rfl, hdeclared, hstack₂⟩
  refine .pure (.of_stack (hstack₂.trans hstack₁) fun below data st s hready hholds hfits hst => ?_)
  obtain ⟨as, bs, rfl, has, hbs⟩ := hfits.of_append
  obtain ⟨c, rfl, hc⟩ := hbs.of_single
  rw [← List.append_assoc outer, ← List.append_assoc below] at hholds
  obtain ⟨hbelow, habove⟩ := hholds.below rfl
  cases habove with
  | cons hd _ =>
      obtain ⟨v, hv, htruth⟩ := eval_isNonzero hd hc
      rw [Structured.evalBrIf hop himm as c st, Execution.meaning_singleton,
        Execution.stmtMeaning_ifElse hv, htruth]
      cases hc : c.truth with
      | true =>
          obtain ⟨kept, carried, rfl, hkept, hcarried⟩ := has.of_append
          exact branch_ends env hlabels hlab hready hbelow hcarried.length_eq hkept.length_eq
            hdeclared
      | false =>
          rw [if_neg Bool.false_ne_true, if_neg Bool.false_ne_true, Execution.meaning_nil]
          exact .some ⟨rfl, .refl s, _, rfl, hbelow⟩

theorem emitBrTable_emits {i : Instr} {depths : List UInt32} {fallback : UInt32}
    (hop : i.operation = .brTable) (himm : i.imm = .branchTable depths fallback)
    {ltypes : Program.Labels} (hlabels : LabelsFit labels ltypes outer.length es.labels)
    {types : List ValueType} (hfallback : ltypes[fallback.toNat]? = some types)
    (hdepths : ∀ depth ∈ depths, ltypes[depth.toNat]? = some types) {rest : TypeStack}
    (hstack : es.stack = outer ++ (rest ++ types ++ [.i32])) :
    Emits ctx f (emitInstr ctx f labels i) es
      (CodeFor ctx.program f env labels outer (rest ++ types ++ [.i32]) none
        (Structured.evalInstr ctx.program env.exe.layout oracle i)) := by
  obtain ⟨last, hlast, hlastTypes, -⟩ := hlabels.getElem? hfallback
  have hfind : ∀ depth ∈ depths, ∃ lab, labels[depth.toNat]? = some lab ∧ lab.types = types := by
    intro depth hdepth
    obtain ⟨lab, hlab, htypes, -⟩ := hlabels.getElem? (hdepths depth hdepth)
    exact ⟨lab, hlab, htypes⟩
  unfold emitInstr
  simp only [hop, himm]
  rw [← List.append_assoc] at hstack
  refine .bind (pop1_emits hstack) ?_
  rintro _ es₁ - ⟨rfl, hstack₁⟩
  rw [← List.append_assoc] at hstack₁
  refine .bind (emitBranch_emits hlast (hlastTypes ▸ hstack₁)) ?_
  rintro _ es₂ - ⟨rfl, hdeclared, hstack₂⟩
  refine .bind (emitCases_emits hfind 0 (hstack₂.trans hstack₁)) ?_
  rintro _ es₃ hgrows ⟨rfl, hdeclared', hstack₃⟩
  refine .pure ⟨nofun, fun below data st s hready hholds hfits hst => ?_⟩
  obtain ⟨as, bs, rfl, has, hbs⟩ := hfits.of_append
  obtain ⟨c, rfl, hc⟩ := hbs.of_single
  obtain ⟨kept, carried, rfl, hkept, hcarried⟩ := has.of_append
  rw [← List.append_assoc outer, ← List.append_assoc below] at hholds
  obtain ⟨hbelow, habove⟩ := hholds.below rfl
  cases habove with
  | cons hd _ =>
      have hselector : Execution.eval env.exe.layout s
          (.var (slotName (outer ++ (rest ++ types)).length .i32)) = .ok c :=
        Execution.State.lookup_of_vars hd
      rw [Structured.evalBrTable hop himm _ c st, Execution.meaning_singleton,
        Execution.stmtMeaning_switch hselector, tableCases,
        find_numberedCases (Nat.zero_le _), Nat.sub_zero, List.getElem?_map,
        List.getD_eq_getElem?_getD]
      cases hdepth : depths[c.x.toNat]? with
      | none =>
          exact branch_ends env hlabels hlast hready (hlastTypes ▸ hbelow)
            (hlastTypes ▸ hcarried.length_eq) hkept.length_eq (hdeclared.mono hgrows)
      | some depth =>
          have hmem := List.mem_of_getElem? hdepth
          obtain ⟨lab, hlab, rfl⟩ := hfind depth hmem
          change Option.Rel _ (meaning env (branchTo labels _ depth) s) _
          rw [branchTo, hlab]
          exact branch_ends env hlabels hlab hready hbelow hcarried.length_eq hkept.length_eq
            (hdeclared' depth hmem lab hlab)

theorem emitRet_emits {i : Instr} (hop : i.operation = .ret) {rest : TypeStack}
    (hstack : es.stack = outer ++ (rest ++ f.type.results)) :
    Emits ctx f (emitInstr ctx f labels i) es
      (CodeFor ctx.program f env labels outer (rest ++ f.type.results) none
        (Structured.evalInstr ctx.program env.exe.layout oracle i)) := by
  unfold emitInstr
  simp only [hop]
  rw [← List.append_assoc] at hstack
  refine .bind (top_emits rfl hstack) ?_
  rintro _ es₁ - ⟨rfl, -⟩
  refine .pure ⟨nofun, fun below data st s hready hholds hfits hst => ?_⟩
  obtain ⟨as, bs, rfl, has, hbs⟩ := hfits.of_append
  rw [← List.append_assoc, ← List.append_assoc] at hholds
  obtain ⟨-, habove⟩ := hholds.below hbs.length_eq
  rw [Structured.evalRet hop, Execution.meaning_singleton,
    Execution.stmtMeaning_ret (evalAll_of_forall₂ (habove.eval env.exe.layout))]
  refine .some ⟨?_, .refl s, hholds.nil⟩
  rw [Structured.top_append as bs hbs.length_eq.symm]

/-- The code of a typed instruction. -/
theorem emitInstr_emits (hset : Setting ctx kept f env oracle) {i : Instr}
    (hdirect : i.IsDirect ctx.program ctx.analysis kept f.index) {ltypes : Program.Labels}
    (hlabels : LabelsFit labels ltypes outer.length es.labels) {types : TypeStack}
    {out : Option TypeStack} (h : Program.TypedInstr ctx.program f ltypes i types out)
    (hstack : es.stack = outer ++ types) :
    Emits ctx f (emitInstr ctx f labels i) es
      (CodeFor ctx.program f env labels outer types out
        (Structured.evalInstr ctx.program env.exe.layout oracle i)) := by
  cases h with
  | numeric hop =>
      unfold emitInstr
      simp only [hop]
      exact (emitNumeric_emits hset hop hstack).mono fun _ _ _ hcode =>
        .of_stack hcode.1 hcode.2
  | nop hop =>
      unfold emitInstr
      simp only [hop]
      refine .pure (.of_stack hstack (.of_next fun below data st s hready hholds hfits hst => ?_))
      exact ⟨data, st, s, Structured.evalNop hop data st, Execution.meaning_nil, .refl s, hholds⟩
  | unreachable hop =>
      unfold emitInstr
      simp only [hop]
      refine .pure ⟨nofun, fun below data st s hready hholds hfits hst => ?_⟩
      rw [Structured.evalUnreachable hop, trapStmts, Execution.meaning_singleton,
        Execution.stmtMeaning_trap]
      exact .some ⟨rfl, trapsIn_trapped hholds.globals _⟩
  | @constant v _ hv =>
      have hrun : ∀ stack (st : Store σ), st.Fits ctx.program env.exe.layout f → _ :=
        fun stack st _ =>
          @Structured.evalConstant σ ctx.program env.exe.layout oracle _ _ hv stack st
      have hcode : Emits ctx f (emitConstant ctx v) es (CodeFor ctx.program f env labels outer
          types (some (types ++ [v.type]))
          (Structured.evalInstr ctx.program env.exe.layout oracle i)) :=
        (emitConstant_emits hset.layout hv.known hstack hrun).mono fun _ _ _ h => .of_stack h.1 h.2
      unfold emitInstr
      cases hv with
      | i32 hop himm => simp only [hop, himm]; exact hcode
      | i64 hop himm => simp only [hop, himm]; exact hcode
      | f32 hop himm => simp only [hop, himm]; exact hcode
      | f64 hop himm => simp only [hop, himm]; exact hcode
      | v128 hop himm => simp only [hop, himm]; exact hcode
  | @drop t rest hop =>
      unfold emitInstr
      simp only [hop]
      rw [← List.append_assoc] at hstack
      refine .bind (pop1_emits hstack) ?_
      rintro _ es₁ - ⟨rfl, hstack₁⟩
      refine .pure (.of_stack hstack₁ (.of_next fun below data st s hready hholds hfits hst => ?_))
      obtain ⟨as, bs, rfl, has, hbs⟩ := hfits.of_append
      obtain ⟨d, rfl, -⟩ := hbs.of_single
      rw [← List.append_assoc, ← List.append_assoc] at hholds
      exact ⟨as, st, s, Structured.evalDrop hop as d st, Execution.meaning_nil, .refl s,
        (hholds.below rfl).1⟩
  | select hop => exact emitSelect_emits hop hstack
  | localGet hop himm ht => exact emitLocalGet_emits hop himm ht hstack
  | localSet hop himm ht => exact emitLocalSet_emits hop himm ht hstack
  | localTee hop himm ht => exact emitLocalTee_emits hop himm ht hstack
  | globalGet hop himm hg => exact emitGlobalGet_emits hset hop himm hg hstack
  | globalSet hop himm hg hm => exact emitGlobalSet_emits hset hop himm hg hm hstack
  | @call target sig rest hop himm hsig =>
      obtain ⟨himport, hcan, hkept⟩ := hdirect.call target hop himm
      unfold emitInstr
      simp only [hop, himm]
      exact (emitCall_emits hset hop himm hsig himport hcan hkept hstack).mono fun _ _ _ hcode =>
        .of_stack hcode.1 hcode.2
  | callIndirect hop => exact absurd hop hdirect.notIndirect
  | memorySize hop => exact absurd hop hdirect.notSize
  | memoryGrow hop => exact absurd hop hdirect.notGrow
  | @br depth types rest hop himm hlabel =>
      obtain ⟨lab, hlab, rfl, -⟩ := hlabels.getElem? hlabel
      unfold emitInstr
      simp only [hop, himm]
      rw [← List.append_assoc] at hstack
      refine (emitBranch_emits hlab hstack).mono ?_
      rintro _ es₁ - ⟨rfl, hdeclared, -⟩
      refine ⟨nofun, fun below data st s hready hholds hfits hst => ?_⟩
      obtain ⟨kept, carried, rfl, hkept, hcarried⟩ := hfits.of_append
      rw [Structured.evalBr hop himm]
      exact branch_ends env hlabels hlab hready hholds hcarried.length_eq hkept.length_eq hdeclared
  | brIf hop himm hlabel => exact emitBrIf_emits hop himm hlabels hlabel hstack
  | brTable hop himm hfallback hdepths =>
      exact emitBrTable_emits hop himm hlabels hfallback hdepths hstack
  | ret hop => exact emitRet_emits hop hstack

end Instructions

end Emit

end WasmShader
