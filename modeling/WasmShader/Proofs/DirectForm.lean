import WasmShader.Proofs.BodyCode
import WasmShader.Proofs.DirectSafety
import WasmShader.Proofs.Reference

/-!
# Direct forms

The direct form of a direct-safe function does what the evaluation of the function does:
called with the arguments, it ends if and only if the evaluation ends, with the same results
and the same globals, or with the same trap. Its callees are direct forms themselves, of
functions that come before it in the order, so this is shown of all direct-safe functions
one after the other.
-/

namespace WasmShader

open Execution (Datum Env FitsAll meaning callMeaning)
open Structured (Oracle Store Shared World)

/-! ## The variables that a function starts with -/

namespace Execution

theorem mem_of_lookup {vars : Vars} {name : String} {d : Datum}
    (h : vars.lookup name = some d) : (name, d) ∈ vars := by
  obtain ⟨front, back, rfl, -⟩ := List.lookup_eq_some_iff.mp h
  exact List.mem_append_right _ (List.mem_cons_self ..)

/-- A variable is a parameter with its argument, or a local that is zero. -/
theorem of_lookup_frame {f : Shader.Function} {args : List Datum} {name : String} {d : Datum}
    (h : (Exec.frame f args).lookup name = some d) :
    (∃ i : Nat, (f.params.map (·.name))[i]? = some name ∧ args[i]? = some d)
      ∨ ∃ v ∈ f.locals, v.name = name ∧ d = .zero v.type := by
  have hmem := List.mem_reverse.mp (mem_of_lookup h)
  rcases List.mem_append.mp hmem with hparam | hlocal
  · obtain ⟨i, hi⟩ := List.mem_iff_getElem?.mp hparam
    rw [List.getElem?_zip_eq_some] at hi
    exact .inl ⟨i, hi⟩
  · obtain ⟨v, hv, heq⟩ := List.mem_map.mp hlocal
    cases heq
    exact .inr ⟨v, hv, rfl, rfl⟩

theorem lookup_frame_param {f : Shader.Function} {args : List Datum} {i : Nat} {name : String}
    {d : Datum} (hname : (f.params.map (·.name))[i]? = some name) (hd : args[i]? = some d) :
    ((Exec.frame f args).lookup name).isSome = true := by
  refine List.lookup_isSome_iff.mpr ⟨(name, d), ?_, beq_self_eq_true _⟩
  refine List.mem_reverse.mpr (List.mem_append_left _ (List.mem_iff_getElem?.mpr ⟨i, ?_⟩))
  rw [List.getElem?_zip_eq_some]
  exact ⟨hname, hd⟩

theorem lookup_frame_local {f : Shader.Function} (args : List Datum) {v : Shader.Variable}
    (hv : v ∈ f.locals) : ((Exec.frame f args).lookup v.name).isSome = true := by
  refine List.lookup_isSome_iff.mpr ⟨(v.name, .zero v.type), ?_, beq_self_eq_true _⟩
  exact List.mem_reverse.mpr (List.mem_append_right _ (List.mem_map.mpr ⟨v, hv, rfl⟩))

end Execution

namespace Emit

variable {σ : Type} {ctx : Context} {kept : Nat → Prop} {f : Function} {env : Env}
  {oracle : Oracle σ}

/-! ## Parameters -/

/-- Copies a parameter to the local that it is. -/
def copyParam (i : Nat) : Shader.Stmt := .assign (localName i) (.var (paramName i))

/-- The code that copies parameters to locals. -/
def paramCode (n : Nat) : List Shader.Stmt := (List.range n).map copyParam

theorem paramCode_succ (n : Nat) : paramCode (n + 1) = paramCode n ++ [copyParam n] := by
  rw [paramCode, List.range_succ, List.map_append]
  rfl

theorem emitParams_emits (hlocals : ∃ declared, f.locals = f.type.params ++ declared)
    (es : State) :
    Emits ctx f (emitParams ctx f) es fun code es' =>
      code = paramCode f.type.params.length
        ∧ (∀ i, i < f.type.params.length → localName i ∈ es'.names) ∧ es'.stack = es.stack := by
  have hstep : ∀ (is : List Nat) (es : State), (∀ i ∈ is, i < f.type.params.length) →
      Emits ctx f (is.mapM fun i => do
        return Shader.Stmt.assign (← Emitter.localVar ctx f i) (.var (paramName i))) es
        fun code es' => code = is.map copyParam
          ∧ (∀ i ∈ is, localName i ∈ es'.names) ∧ es'.stack = es.stack := by
    intro is
    induction is with
    | nil => exact fun es _ => .pure ⟨rfl, nofun, rfl⟩
    | cons i is ih =>
        intro es his
        obtain ⟨declared, hdeclared⟩ := hlocals
        have hi : ∃ t, f.locals[i]? = some t := by
          refine ⟨_, List.getElem?_eq_getElem (l := f.locals) ?_⟩
          rw [hdeclared, List.length_append]
          have := his i (List.mem_cons_self ..)
          omega
        obtain ⟨t, ht⟩ := hi
        rw [List.mapM_cons]
        refine .bind (Q := fun st es' => st = copyParam i
          ∧ localName i ∈ es'.names ∧ es'.stack = es.stack) ?_ ?_
        · refine .bind (localVar_emits ht es) ?_
          rintro _ es₁ - ⟨rfl, hname, hstack⟩
          exact .pure ⟨rfl, hname, hstack⟩
        · rintro _ es₁ - ⟨rfl, hname, hstack₁⟩
          refine .bind (ih es₁ fun j hj => his j (List.mem_cons_of_mem _ hj)) ?_
          rintro _ es₂ hgrows ⟨rfl, hnames, hstack₂⟩
          refine .pure ⟨rfl, fun j hj => ?_, hstack₂.trans hstack₁⟩
          rcases List.mem_cons.mp hj with rfl | hj
          · exact hgrows.names hname
          · exact hnames j hj
  exact (hstep _ es fun i hi => List.mem_range.mp hi).mono fun code es' _ h =>
    ⟨h.1, fun i hi => h.2.1 i (List.mem_range.mpr hi), h.2.2⟩

/-- Copying the parameters puts the arguments in front of the other locals. -/
theorem meaning_params (env : Env) {p : Program} {l : Layout} {args zeros : List Datum} {shared : Shared σ}
    {s : Execution.State} (hlen : args.length ≤ zeros.length)
    (hargs : ∀ i d, args[i]? = some d → s.vars.lookup (paramName i) = some d)
    (hnames : ∀ i, i < args.length → (s.vars.lookup (localName i)).isSome = true)
    (h : Holds p l [] [] ⟨zeros, shared⟩ s) {n : Nat} (hn : n ≤ args.length) :
    ∃ s', meaning env (paramCode n) s = some (.ok .next, s') ∧ Beside s s'
      ∧ Holds p l [] [] ⟨args.take n ++ zeros.drop n, shared⟩ s' := by
  induction n with
  | zero => exact ⟨s, Execution.meaning_nil, .refl s, h⟩
  | succ n ih =>
      obtain ⟨s₁, hrun₁, hbeside₁, hholds₁⟩ := ih (by omega)
      have hd : args[n]? = some args[n] := List.getElem?_eq_getElem (by omega)
      have hparam : Execution.eval env.exe.layout s₁ (.var (paramName n)) = .ok args[n] := by
        refine Execution.State.lookup_of_vars ?_
        rw [hbeside₁.vars _ (not_isWork_paramName n)]
        exact hargs n _ hd
      have hlocal : (s₁.vars.lookup (localName n)).isSome = true := by
        rw [hbeside₁.present]
        exact hnames n (by omega)
      have hlength : n < (args.take n ++ zeros.drop n).length := by
        rw [List.length_append, List.length_take, List.length_drop]; omega
      obtain ⟨s₂, hassign, hbeside₂, hholds₂⟩ := hholds₁.setLocal hlocal hlength args[n]
      refine ⟨s₂, ?_, hbeside₁.trans hbeside₂, ?_⟩
      · rw [paramCode_succ, Execution.meaning_append_next hrun₁, Execution.meaning_singleton,
          copyParam, Execution.stmtMeaning_assign hparam hassign]
      · have hset : (args.take n ++ zeros.drop n).set n args[n]
            = args.take (n + 1) ++ zeros.drop (n + 1) := by
          have htake : (args.take n).length = n := by rw [List.length_take]; omega
          rw [List.set_append_right n args[n] (by omega), htake, Nat.sub_self,
            List.drop_eq_getElem_cons (by omega), List.set_cons_zero, List.take_add_one, hd,
            List.append_assoc]
          rfl
        rw [← hset]
        exact hholds₂

/-! ## The whole function -/

/-- The state that a direct form starts in. -/
def directStart (s : Execution.State) (fn : Shader.Function) (args : List Datum) :
    Execution.State :=
  { s with vars := Execution.Exec.frame fn args }

section Start

variable {fn : Shader.Function} {args : List Datum} {s : Execution.State}

theorem lookup_paramName
    (hparams : ∀ i, i < fn.params.length → (fn.params.map (·.name))[i]? = some (paramName i))
    (hlocals : ∀ v ∈ fn.locals, IsWork v.name) (hlen : args.length = fn.params.length) {i : Nat}
    {d : Datum} (hd : args[i]? = some d) :
    (directStart s fn args).vars.lookup (paramName i) = some d := by
  have hbound {j : Nat} {e : Datum} (he : args[j]? = some e) : j < fn.params.length := by
    rw [← hlen]; exact (List.getElem?_eq_some_iff.mp he).1
  obtain ⟨e, he⟩ := Option.isSome_iff_exists.mp
    (Execution.lookup_frame_param (hparams i (hbound hd)) hd)
  rcases Execution.of_lookup_frame he with ⟨j, hj, hej⟩ | ⟨v, hv, hvname, -⟩
  · rw [hparams j (hbound hej), Option.some.injEq] at hj
    obtain rfl := paramName_inj hj
    rw [hd] at hej
    cases hej
    exact he
  · exact absurd (hvname ▸ hlocals v hv) (not_isWork_paramName i)

/-- A variable of the code that is not a parameter is a local of the function. -/
theorem lookup_start
    (hparams : ∀ i, i < fn.params.length → (fn.params.map (·.name))[i]? = some (paramName i))
    {name : String} (hname : ∀ i, name ≠ paramName i) {d : Datum}
    (h : (directStart s fn args).vars.lookup name = some d) :
    ∃ v ∈ fn.locals, v.name = name ∧ d = .zero v.type := by
  rcases Execution.of_lookup_frame h with ⟨i, hi, -⟩ | hlocal
  · have hlt : i < fn.params.length := by
      have := (List.getElem?_eq_some_iff.mp hi).1
      rwa [List.length_map] at this
    rw [hparams i hlt, Option.some.injEq] at hi
    exact absurd hi.symm (hname i)
  · exact hlocal

end Start

/-- The results of a direct form, by the way its code ends. -/
theorem callEnds_of_ends {p : Program} {l : Layout} {fn : Shader.Function} {args : List Datum}
    {s s' : Execution.State} {results : List Datum} {st : Store σ}
    (hb : Beside (directStart s fn args) s')
    (hglobals : s'.lane.globals.toList = p.globalWords l st.shared.globals) :
    CallEnds p l s (.ok results, { s' with vars := s.vars }) (.ok results, st.shared) := by
  obtain ⟨ws, hsize, hlane⟩ := hb.lane
  refine ⟨rfl, ws, hsize, ?_, ?_⟩
  · rw [← hglobals, hlane]; rfl
  · have hprivates : s'.privates = s.privates := hb.privates
    change { s' with vars := s.vars } = { s with lane := s.lane.withWords .globals ws }
    rw [hlane, hprivates]
    rfl

theorem globalBase_ne_paramName (i : Nat) : globalBase ≠ paramName i := by
  intro h
  have hlist := congrArg String.toList h
  rw [toList_paramName] at hlist
  have hhead := congrArg List.head? hlist
  cases hhead

theorem localName_ne_paramName (i j : Nat) : localName i ≠ paramName j :=
  fun h => not_isWork_paramName j (h ▸ isWork_localName i)

/-- The parts of the code of a direct form. -/
structure DirectCode (ctx : Context) (f : Function) (env : Env) (oracle : Oracle σ) (body : Body)
    (code : List Shader.Stmt) (es : State) : Prop where
  inner : ∃ inner, code = paramCode f.type.params.length ++ inner
      ++ [.ret ((slotNames 0 f.type.results).map .var)]
    ∧ Simulates ctx.program f env [{ kind := .func, types := f.type.results }] [] []
      (some f.type.results) es inner
      (Structured.evalSeq ctx.program env.exe.layout oracle body)
  params : ∀ i, i < f.type.params.length → localName i ∈ es.names
  declared : ∀ v ∈ es.declared, WorkVar ctx f v

theorem emitDirectBody_spec (hset : Setting ctx kept f env oracle)
    (hknown : f.type.Known ∧ AllKnown f.locals)
    (hlocals : ∃ declared, f.locals = f.type.params ++ declared) {body : Body}
    (htyped : Program.TypedSeq ctx.program f [f.type.results] body [] f.type.results)
    (hdirect : ∀ i ∈ Body.instrs body, i.IsDirect ctx.program ctx.analysis kept f.index) :
    ∃ code es, emitDirectBody ctx f body {} = .ok (code, es)
      ∧ DirectCode ctx f env oracle body code es := by
  have hlabels (count : Nat) : LabelsFit [{ kind := .func, types := f.type.results }]
      [f.type.results] 0 count := by
    refine ⟨rfl, fun lab hlab => ?_, fun lab hlab hkind => ?_⟩
    · exact Nat.le_of_eq (by rw [List.mem_singleton.mp hlab])
    · rw [List.mem_singleton.mp hlab] at hkind
      exact absurd rfl hkind
  have hemits : Emits ctx f (emitDirectBody ctx f body) {} fun code es =>
      ∃ inner, code = paramCode f.type.params.length ++ inner
          ++ [.ret ((slotNames 0 f.type.results).map .var)]
        ∧ Simulates ctx.program f env [{ kind := .func, types := f.type.results }] [] []
          (some f.type.results) es inner
          (Structured.evalSeq ctx.program env.exe.layout oracle body)
        ∧ ∀ i, i < f.type.params.length → localName i ∈ es.names := by
    rw [emitDirectBody]
    refine .bind (emitParams_emits hlocals {}) ?_
    rintro _ es₁ - ⟨rfl, hparams, hstack₁⟩
    have hempty : es₁.stack = [] ++ [] := hstack₁
    refine .bind (emitSeq_emits hset body hdirect (hlabels es₁.labels) htyped hempty) ?_
    intro inner es₂ hgrows₂ hinner
    refine .bind (slots_emits 0 hknown.1.results es₂) ?_
    rintro _ es₃ hgrows₃ ⟨rfl, -⟩
    refine .pure ⟨inner, rfl, fun below data st s hready hholds hfits hst => ?_, fun i hi => ?_⟩
    · exact hinner below data st s (hready.of_grows hgrows₃) hholds hfits hst
    · exact hgrows₃.names (hgrows₂.names (hparams i hi))
  have hnone : AllKnown ({} : State).stack := List.forall_mem_nil _
  obtain ⟨code, es, hrun, hgrows, -, inner, hcode, hsim, hparams⟩ := hemits hknown.2 hnone
  refine ⟨code, es, hrun, ⟨inner, hcode, hsim⟩, hparams, fun v hv => ?_⟩
  obtain ⟨new, hnew, hwork⟩ := hgrows.declared
  exact hwork v (by rw [hnew] at hv; exact hv)

section Run

variable {body : Body} {fn : Shader.Function} {es : State} {args : List Datum}
  {shared : Shared σ} {s : Execution.State}

/-- A direct form starts with its variables declared and zero. -/
theorem directStart_ready (hcode : DirectCode ctx f env oracle body fn.body es)
    (hfn : fn.locals = es.declared)
    (hparams : ∀ i, i < fn.params.length → (fn.params.map (·.name))[i]? = some (paramName i))
    (hs : Addressed s) : Ready es (directStart s fn args) := by
  refine ⟨⟨hs.globalBase, hs.addressable⟩, fun n hn => ?_, ?_⟩
  · obtain ⟨v, hv, rfl⟩ := List.mem_map.mp hn
    exact Execution.lookup_frame_local args (hfn ▸ hv)
  · rw [← Option.not_isSome_iff_eq_none]
    intro hsome
    obtain ⟨d, hd⟩ := Option.isSome_iff_exists.mp hsome
    obtain ⟨v, hv, hname, -⟩ := lookup_start hparams globalBase_ne_paramName hd
    exact not_isWork_globalBase (hname ▸ (hcode.declared v (hfn ▸ hv)).isWork)

theorem directStart_holds (hlayout : ctx.layout = env.exe.layout)
    (hcode : DirectCode ctx f env oracle body fn.body es) (hfn : fn.locals = es.declared)
    (hparams : ∀ i, i < fn.params.length → (fn.params.map (·.name))[i]? = some (paramName i))
    (hglobals : s.lane.globals.toList = ctx.program.globalWords env.exe.layout shared.globals) :
    Holds ctx.program env.exe.layout [] []
      ⟨f.locals.map fun t => Datum.zero (Shader.Ty.carrier env.exe.layout t), shared⟩
      (directStart s fn args) := by
  refine ⟨.nil, fun i d hd => ?_, hglobals⟩
  obtain ⟨v, hv, hname, rfl⟩ := lookup_start hparams (localName_ne_paramName i) hd
  cases hcode.declared v (hfn ▸ hv) with
  | slot k t => exact absurd hname.symm (localName_ne_slotName i k t)
  | localVar ht =>
      obtain rfl := localName_inj hname
      rw [List.getElem?_map, ht, hlayout]
      rfl

/-- The arguments are in front of the zeros of the other locals. -/
theorem initialLocals_eq (l : Layout) (hlen : args.length = f.type.params.length) :
    Structured.initialLocals l f args = args.take args.length
      ++ (f.locals.map fun t => Datum.zero (Shader.Ty.carrier l t)).drop args.length := by
  rw [Structured.initialLocals, List.take_length, ← List.map_drop, hlen]

/-- Behind the body of a direct form: the results are returned. -/
theorem directBody_rel {results : List ValueType} (hresults : f.type.results = results)
    {s₁ : Execution.State} (hb₁ : Beside (directStart s fn args) s₁)
    {a : Execution.Ending Execution.Flow} {b : Structured.Ending (Store σ) Structured.Flow}
    (h : Ends ctx.program env.exe.layout f [{ kind := .func, types := results }] [] []
      (some results) s₁ a b) :
    Option.Rel (CallEnds ctx.program env.exe.layout s)
      (((Execution.andThen (Execution.onNext
          (meaning env [.ret ((slotNames 0 results).map .var)])) a)).bind
        (Execution.andThen fun flow s' =>
          Execution.Exec.outcome (Execution.Exec.resultsOf fn flow) { s' with vars := s.vars }))
      (some (b.1.map fun flow => Structured.top results.length flow.stack, b.2.shared)) := by
  match a, b, h with
  | (.ok flow, s'), (.ok (.next stack), st), ⟨hflow, hb, types, htypes, hholds⟩ =>
      cases htypes
      subst hflow
      change Option.Rel _ ((meaning env [.ret ((slotNames 0 results).map .var)] s').bind _) _
      have hslots : Stand s' (slotNames 0 results) stack := hholds.slots
      rw [Execution.meaning_singleton,
        Execution.stmtMeaning_ret (evalAll_of_forall₂ (hslots.eval env.exe.layout))]
      have hlen : stack.length = results.length := hholds.length_eq.symm
      have htop : Structured.top results.length stack = stack := by
        rw [Structured.top, hlen, Nat.sub_self, List.drop_zero]
      change Option.Rel _ _ (some (Except.ok (Structured.top results.length stack), st.shared))
      rw [htop]
      exact .some (callEnds_of_ends (hb₁.trans hb) hholds.globals)
  | (.ok flow, s'), (.ok (.branch 0 stack), st), ⟨hb, lab, hlab, hreached⟩ =>
      cases hlab
      obtain ⟨rfl, hholds⟩ := hreached
      exact .some (callEnds_of_ends (hb₁.trans hb) hholds.globals)
  | (.ok flow, s'), (.ok (.branch (depth + 1) stack), st), ⟨hb, lab, hlab, hreached⟩ =>
      cases hlab
  | (.ok flow, s'), (.ok (.ret stack), st), ⟨hflow, hb, hholds⟩ =>
      subst hflow
      rw [hresults]
      exact .some (callEnds_of_ends (hb₁.trans hb) hholds.globals)
  | (.error (.trap c), s'), (.error (.trap c'), st), ⟨hc, htraps⟩ =>
      have htraps' := htraps.of_beside hb₁
      exact .some ⟨hc, htraps'⟩

end Run

/-- The code of a typed body makes a function that gives the results of its evaluation. -/
theorem directFunction_spec (hset : Setting ctx kept f env oracle)
    (hknown : f.type.Known ∧ AllKnown f.locals)
    (hlocals : ∃ declared, f.locals = f.type.params ++ declared) {body : Body}
    (hbody : f.body = .ok body)
    (htyped : Program.TypedSeq ctx.program f [f.type.results] body [] f.type.results)
    (hdirect : ∀ i ∈ Body.instrs body, i.IsDirect ctx.program ctx.analysis kept f.index) :
    ∃ fn, directFunction ctx f = .ok fn ∧ fn.name = directName f.index
      ∧ ∀ args (shared : Shared σ) s, FitsAll env.exe.layout f.type.params args →
        ctx.program.GlobalsFit env.exe.layout shared.globals → Addressed s →
        s.lane.globals.toList = ctx.program.globalWords env.exe.layout shared.globals →
        Option.Rel (CallEnds ctx.program env.exe.layout s) (callMeaning env fn args s)
          (Structured.evalFunction ctx.program env.exe.layout oracle f args shared) := by
  obtain ⟨code, es, hrun, hcode⟩ := emitDirectBody_spec hset hknown hlocals htyped hdirect
  let fn := directFormOf ctx f code es
  have hparams : ∀ i, i < fn.params.length →
      (fn.params.map (·.name))[i]? = some (paramName i) := by
    intro i hi
    have hlength : fn.params.length = f.type.params.length := List.length_mapIdx
    have hlt : i < f.type.params.length := hlength ▸ hi
    rw [List.getElem?_map]
    change ((f.type.params.mapIdx _)[i]?.map _) = _
    rw [List.getElem?_mapIdx, List.getElem?_eq_getElem hlt]
    rfl
  refine ⟨fn, ?_, rfl, fun args shared s hargs hshared hs hglobals => ?_⟩
  · exact directFunction_of_body hknown.1 hbody hrun
  · have hlen : args.length = fn.params.length := by
      rw [← hargs.length_eq]; exact (List.length_mapIdx ..).symm
    have hready : Ready es (directStart s fn args) := directStart_ready hcode rfl hparams hs
    have hholds : Holds ctx.program env.exe.layout [] [] _ (directStart s fn args) :=
      directStart_holds hset.layout hcode rfl hparams hglobals
    obtain ⟨inner, hbodyCode, hsim⟩ := hcode.inner
    obtain ⟨declared, hdeclared⟩ := hlocals
    obtain ⟨s₁, hrun₁, hbeside₁, hholds₁⟩ := meaning_params env
      (by rw [List.length_map, hdeclared, List.length_append, hargs.length_eq]; omega)
      (fun i d hd => lookup_paramName hparams (fun v hv => (hcode.declared v hv).isWork) hlen hd)
      (fun i hi => hready.present _ (hcode.params i (by rw [hargs.length_eq]; exact hi)))
      hholds (Nat.le_refl _)
    rw [← initialLocals_eq env.exe.layout hargs.length_eq.symm] at hholds₁
    have hst : Store.Fits ctx.program env.exe.layout f
        ⟨Structured.initialLocals env.exe.layout f args, shared⟩ :=
      ⟨Structured.initialLocals_fits ⟨declared, hdeclared⟩ hargs, hshared⟩
    have hrel := hsim [] [] _ s₁ (hready.beside hbeside₁) hholds₁ .nil hst
    have hmeaning : meaning env fn.body (directStart s fn args)
        = (meaning env inner s₁).bind (Execution.andThen (Execution.onNext
          (meaning env [.ret ((slotNames 0 f.type.results).map .var)]))) := by
      change meaning env code _ = _
      rw [hbodyCode, List.append_assoc, hargs.length_eq, Execution.meaning_append_next hrun₁,
        Execution.meaning_append]
    rw [Execution.callMeaning_eq hlen, Structured.evalFunction, hbody]
    dsimp only
    change Option.Rel _ ((meaning env fn.body (directStart s fn args)).bind _) _
    rw [hmeaning, Option.bind_assoc, Option.map_eq_bind]
    exact hrel.bind fun a b hab => directBody_rel rfl hbeside₁ hab

/-! ## Direct-safe functions -/

/-- The body of a direct-safe function needs neither the machine nor the host. -/
theorem isDirect_of_directSafe {p : Program} {g : CallGraph} (hp : p.Formed)
    (hg : CallGraph.build p = .ok g) {f : Function} (hf : f ∈ p.funcs) {body : Body}
    (hbody : f.body = .ok body) (hsafe : g.analyze.directSafe f.index = true)
    (hkept : ∀ target ∈ f.calls, p.isImport target = false → kept target) :
    ∀ i ∈ Body.instrs body, i.IsDirect p g.analyze kept f.index := by
  have hops := CallGraph.hostOps_of_directSafe hg hf hsafe
  rw [Program.hostOps, Bool.or_eq_false_iff, Bool.or_eq_false_iff] at hops
  obtain ⟨⟨hindirect, hmemory⟩, himports⟩ := hops
  rw [decide_eq_false_iff_not, hp.indirectCalls f hf body hbody, List.countP_pos_iff] at hindirect
  rw [decide_eq_false_iff_not, hp.memoryOps f hf body hbody, List.countP_pos_iff] at hmemory
  intro i hi
  refine ⟨fun hop => hindirect ⟨i, hi, ?_⟩, fun hop => hmemory ⟨i, hi, ?_⟩,
    fun hop => hmemory ⟨i, hi, ?_⟩, fun target hop himm => ?_⟩
  · exact decide_eq_true hop
  · rw [hop]; rfl
  · rw [hop]; rfl
  · have hcalls : target.toNat ∈ f.calls := by
      rw [hp.calls f hf body hbody]
      refine List.mem_filterMap.mpr ⟨i, hi, ?_⟩
      rw [Instr.callTarget?, hop, himm]
      rfl
    have himport : p.isImport target.toNat = false := by
      rw [← Bool.not_eq_true]
      exact List.any_eq_false.mp himports _ hcalls
    exact ⟨himport, CallGraph.canCallDirect_of_mem_callees (CallGraph.sound_of_build hp hg)
      hsafe (CallGraph.mem_callees hp hg hf hcalls himport), hkept _ hcalls himport⟩

/-- A module that has the direct forms of the direct-safe functions that are kept. -/
structure HasDirectForms (ctx : Context) (kept : Nat → Prop) (env : Env) : Prop where
  layout : ctx.layout = env.exe.layout
  numeric : HasNumeric env
  notCancelled : env.cancelled = false
  forms : ∀ f ∈ ctx.program.funcs, kept f.index → ctx.analysis.directSafe f.index = true →
    ∀ fn, directFunction ctx f = .ok fn →
    env.exe.module.function? fn.name = some fn ∧ env.exe.blockNamed? fn.name = none

/-- A context in which the functions that are kept are checked and call no others. -/
structure Checked (ctx : Context) (kept : Nat → Prop) : Prop where
  formed : ctx.program.Formed
  checks : ∀ f ∈ ctx.program.funcs, kept f.index → ctx.program.check f = .ok ()
  calls : ∀ f ∈ ctx.program.funcs, kept f.index → ∀ target ∈ f.calls,
    ctx.program.isImport target = false → kept target
  analysis : ∃ g, CallGraph.build ctx.program = .ok g ∧ ctx.analysis = g.analyze
  globals : ctx.globals = .ofProgram ctx.program ctx.layout

/-- An oracle whose answers to calls are what the bodies of the callees come to. -/
structure Answers (p : Program) (l : Layout) (kept : Nat → Prop) (oracle : Oracle σ) : Prop where
  sound : oracle.Sound p l
  call : ∀ f ∈ p.funcs, kept f.index → ∀ args shared, oracle (.call f.index) args shared
    = Structured.evalFunction p l oracle f args shared

theorem func?_of_mem {p : Program} (hp : p.Formed) (hf : f ∈ p.funcs) :
    p.func? f.index = some f := by
  obtain ⟨k, hk⟩ := List.mem_iff_getElem?.mp hf
  have hindex := hp.funcIndex k f hk
  have hnot : p.isImport f.index = false := by
    rw [Program.isImport, decide_eq_false_iff_not, hindex]; omega
  rw [Program.func?, hnot, if_neg Bool.false_ne_true, hindex, Nat.add_sub_cancel_left, hk]

theorem mem_of_func? {p : Program} {fn : Nat} (h : p.func? fn = some f) : f ∈ p.funcs := by
  unfold Program.func? at h
  split at h
  · cases h
  · exact List.mem_of_getElem? h

theorem index_of_func? {p : Program} (hp : p.Formed) {fn : Nat} (h : p.func? fn = some f) :
    f.index = fn := by
  unfold Program.func? at h
  split at h
  · cases h
  · next himport =>
    rw [Program.isImport, decide_eq_true_eq] at himport
    have := hp.funcIndex _ f h
    omega

theorem answers_reply {w : World σ} {p : Program} {l : Layout} (hp : p.Formed)
    (hprogram : w.program = p) (hlayout : w.layout = l) (hw : w.Sound)
    (hcheck : ∀ f ∈ p.funcs, p.check f = .ok ()) : Answers p l kept w.reply := by
  subst hprogram hlayout
  exact ⟨World.reply_sound hp hw hcheck, fun f hf _ args shared =>
    w.reply_call (func?_of_mem hp hf) args shared⟩

/-- A direct-safe function has a direct form, which does what the function does. Callees
come before it, so theirs may be assumed. -/
theorem exists_directForm (hctx : Checked ctx kept) (henv : HasDirectForms ctx kept env)
    (horacle : Answers ctx.program env.exe.layout kept oracle) (hf : f ∈ ctx.program.funcs)
    (hkept : kept f.index) (hsafe : ctx.analysis.directSafe f.index = true) :
    ∃ fn, directFunction ctx f = .ok fn ∧ fn.name = directName f.index
      ∧ IsDirectForm env ctx.program oracle f.index f.type fn := by
  induction hn : (ctx.analysis.rank f.index + 1).toNat using Nat.strongRecOn generalizing f with
  | ind n ih =>
  obtain ⟨g, hg, hanalysis⟩ := hctx.analysis
  obtain ⟨body, hbody, htyped⟩ := Program.typedSeq_of_check_function
    (hctx.formed.body f hf) (hctx.checks f hf hkept)
  have hdirect : ∀ i ∈ Body.instrs body, i.IsDirect ctx.program ctx.analysis kept f.index := by
    rw [hanalysis] at hsafe ⊢
    exact isDirect_of_directSafe hctx.formed hg hf hbody hsafe (hctx.calls f hf hkept)
  have hset : Setting ctx kept f env oracle := by
    refine ⟨henv.layout, by rw [hctx.globals, henv.layout], henv.numeric, henv.notCancelled,
      hctx.formed, horacle.sound, fun target sig himport hcan htarget hsig => ?_⟩
    rw [Analysis.canCallDirect, Bool.and_eq_true, decide_eq_true_eq] at hcan
    rw [Program.signature?, himport, if_neg Bool.false_ne_true] at hsig
    obtain ⟨callee, hcallee, rfl⟩ := Option.map_eq_some_iff.mp hsig
    have hmem := mem_of_func? hcallee
    have hindex := index_of_func? hctx.formed hcallee
    rw [← hindex] at hcan htarget ⊢
    have hge := CallGraph.neg_one_le_rank ctx.analysis callee.index
    obtain ⟨fn, hfn, hname, hform⟩ := ih _ (by omega) hmem htarget hcan.1 rfl
    obtain ⟨hfunction, hnotBlock⟩ := henv.forms callee hmem htarget hcan.1 fn hfn
    rw [hname] at hfunction hnotBlock
    exact ⟨fn, hfunction, hnotBlock, hform⟩
  obtain ⟨fn, hfn, hname, hspec⟩ := directFunction_spec hset (hctx.formed.funcKnown f hf)
    (hctx.formed.funcLocals f hf) hbody htyped hdirect
  refine ⟨fn, hfn, hname, fun args shared s hargs hshared hs hglobals => ?_⟩
  rw [horacle.call f hf hkept]
  exact hspec args shared s hargs hshared hs hglobals

/-! ## Meaning is preserved -/

/-- The context of the functions of a program. -/
def contextOf (p : Program) (g : CallGraph) (l : Layout) (stackWords : UInt32) : Context :=
  ⟨p, g.analyze, l, .ofProgram p l, stackWords⟩

/-- The globals of a lane as the evaluation sees them. -/
def sharedOf (p : Program) (l : Layout) (host : σ) (s : Execution.State) : Shared σ :=
  ⟨p.readGlobals l s.lane.globals.toList, host⟩

theorem sharedOf_spec {p : Program} (hp : p.Formed) {l : Layout} (host : σ) {s : Execution.State}
    (hsize : s.lane.globals.size = (GlobalLayout.ofProgram p l).words) :
    p.GlobalsFit l (sharedOf p l host s).globals
      ∧ s.lane.globals.toList = p.globalWords l (sharedOf p l host s).globals := by
  have hspec := readGlobals_spec s.lane.globals.toList
    (fun g hg => (hp.globalKnown g hg).2) hsize
  exact ⟨hspec.1, hspec.2.symm⟩

/-- Direct lowering preserves meaning: called with any arguments and any contents of the
globals, the direct form of a direct-safe function ends if and only if the evaluation of the
function does, with the same results or the same trap, and leaves the same globals. A trap is
one of the program's own, never one that stands for an operation that cannot run here. -/
theorem direct_form_evaluates {m : Binary.Module} {p : Program}
    (hread : Program.ofModule m = .ok p) (hcheck : ∀ f ∈ p.funcs, p.check f = .ok ())
    {g : CallGraph} (hgraph : CallGraph.build p = .ok g) (l : Layout) (stackWords : UInt32)
    {env : Env} (henv : HasDirectForms (contextOf p g l stackWords) (fun _ => True) env)
    {w : World σ}
    (hprogram : w.program = p) (hlayout : w.layout = l) (hw : w.Sound) {f : Function}
    (hf : f ∈ p.funcs) (hsafe : g.analyze.directSafe f.index = true) {args : List Datum}
    (hargs : FitsAll l f.type.params args) (host : σ) {s : Execution.State} (hs : Addressed s)
    (hsize : s.lane.globals.size = (GlobalLayout.ofProgram p l).words) :
    ∃ fn, directFunction (contextOf p g l stackWords) f = .ok fn
      ∧ Option.Rel (CallEnds p l s) (callMeaning env fn args s)
        (w.reply (.call f.index) args (sharedOf p l host s))
      ∧ ∀ c s', callMeaning env fn args s = some (.error (.trap c), s') → c.isPlain = true := by
  have hformed := Program.formed_of_ofModule hread
  have hctx : Checked (contextOf p g l stackWords) fun _ => True :=
    ⟨hformed, fun f hf _ => hcheck f hf, fun _ _ _ _ _ _ => trivial, ⟨g, hgraph, rfl⟩, rfl⟩
  have hl : l = env.exe.layout := henv.layout
  have horacle : Answers p l (fun _ => True) w.reply :=
    answers_reply hformed hprogram hlayout hw hcheck
  obtain ⟨fn, hfn, -, hform⟩ := exists_directForm hctx henv (hl ▸ horacle) hf trivial hsafe
  obtain ⟨hfits, hwords⟩ := sharedOf_spec hformed host hsize
  have hrel := hform args (sharedOf p l host s) s (hl ▸ hargs) (hl ▸ hfits) hs (hl ▸ hwords)
  rw [← hl] at hrel
  refine ⟨fn, hfn, hrel, fun c s' hc => ?_⟩
  have hsig : Structured.requestSignature? p (.call f.index) = some f.type := by
    rw [Structured.requestSignature?, func?_of_mem hformed hf]
    rfl
  have hanswer := horacle.sound _ _ _ _ hsig hargs hfits
  generalize w.reply (.call f.index) args (sharedOf p l host s) = y at hrel hanswer
  rw [hc] at hrel
  cases hrel with
  | @some _ end' hend =>
      obtain ⟨r, shared⟩ := end'
      cases r with
      | ok results => exact hend.elim
      | error e =>
          cases e with
          | trap c' =>
              obtain ⟨rfl, -⟩ := hend
              exact (hanswer _ _ rfl).1
          | _ => exact hend.elim

/-! A module with one function, which adds one to its argument. -/

def successor : Binary.Module where
  types := [⟨[0x7f], [0x7f]⟩]
  funcs := [0]
  code := [⟨[], [0x20, 0, 0x41, 1, 0x6a, 0x0b]⟩]

def successorProgram : Program := (Program.ofModule successor).toOption.getD default

def successorGraph : CallGraph := (CallGraph.build successorProgram).toOption.getD default

def successorFunction : Function := successorProgram.funcs.headD default

abbrev successorContext : Context := contextOf successorProgram successorGraph ⟨false⟩ 16

def successorForm : Shader.Function :=
  (directFunction successorContext successorFunction).toOption.getD default

def successorEnv : Env where
  exe :=
    { module := { functions := numericFunctions ++ [successorForm] }
      layout := ⟨false⟩
      hosts := { layout := ⟨false⟩ }
      entries := []
      blocks := []
      stackWords := 16
      ioWords := 0
      globalWords := 0
      globalInit := [] }

def successorState : Execution.State where
  lane := Execution.Lane.new successorEnv.exe 0
  privates := [(globalBase, .ofU32 0)]

theorem funcs_successor : successorProgram.funcs = [successorFunction] := by
  have hlen : successorProgram.funcs.length = 1 := by decide +kernel
  obtain ⟨f, hf⟩ := List.length_eq_one_iff.mp hlen
  rw [successorFunction, hf]
  rfl

theorem hasDirectForms_successor :
    HasDirectForms successorContext (fun _ => True) successorEnv := by
  refine ⟨rfl, ⟨fun f hf => ?_, fun _ _ => rfl⟩, rfl, fun f hf _ _ fn hfn => ⟨?_, rfl⟩⟩
  · have hname : successorForm.name = "f0_direct" := by decide +kernel
    simp only [numericFunctions, List.mem_cons, List.not_mem_nil, or_false] at hf
    rcases hf with rfl | rfl
    · simp [Shader.Module.function?, successorEnv, numericFunctions, hname, i64AddFunction,
        i64SubFunction, i64Add, i64Sub]
    · simp [Shader.Module.function?, successorEnv, numericFunctions, hname, i64AddFunction,
        i64SubFunction, i64Add, i64Sub]
  · have hmem : f ∈ successorProgram.funcs := hf
    rw [funcs_successor, List.mem_singleton] at hmem
    rw [hmem] at hfn
    have hok : directFunction successorContext successorFunction = .ok successorForm :=
      eq_ok_getD (by decide +kernel) default
    rw [hok] at hfn
    have heq := Except.ok.inj hfn
    subst heq
    simp [Shader.Module.function?, successorEnv]

/-- The theorem at a module whose function is direct-safe. -/
theorem direct_form_evaluates_successor :
    successorGraph.analyze.directSafe successorFunction.index = true
      ∧ ∃ fn, directFunction successorContext successorFunction = .ok fn
        ∧ Option.Rel (CallEnds successorProgram ⟨false⟩ successorState)
          (callMeaning successorEnv fn [.ofU32 41] successorState)
          ((World.alone successorProgram ⟨false⟩).reply (.call successorFunction.index) [.ofU32 41]
            (sharedOf successorProgram ⟨false⟩ () successorState))
        ∧ ∀ c s', callMeaning successorEnv fn [.ofU32 41] successorState
            = some (.error (.trap c), s') → c.isPlain = true := by
  have hsafe : successorGraph.analyze.directSafe successorFunction.index = true := by
    decide +kernel
  refine ⟨hsafe, direct_form_evaluates (m := successor) (p := successorProgram)
    (g := successorGraph) (w := World.alone successorProgram ⟨false⟩)
    (eq_ok_getD (by decide +kernel) default) ?_ (eq_ok_getD (by decide +kernel) default) ⟨false⟩ 16
    hasDirectForms_successor (World.alone_program _ _) (World.alone_layout _ _)
    (World.alone_sound _ _) ?_ hsafe ?_ () ?_ ?_⟩
  · intro f hf
    rw [funcs_successor, List.mem_singleton] at hf
    rw [hf]
    exact eq_ok_unit (by decide +kernel)
  · rw [funcs_successor]
    exact List.mem_singleton.mpr rfl
  · have htype : successorFunction.type.params = [.i32] := by decide +kernel
    rw [htype]
    exact .cons rfl .nil
  · exact ⟨rfl, by decide +kernel, by decide +kernel⟩
  · decide +kernel

end Emit

end WasmShader
