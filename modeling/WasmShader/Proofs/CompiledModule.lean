import WasmShader.Proofs.EmittedCalls

/-!
# Compiled modules

What a compiled module is made of: the call graph, the plan and the functions that were emitted
for it. Every step after the checks succeeds for want of capacities and exports alone, and the
module that comes out is legal. So `compile` itself never finds anything wrong with what it
emitted, and in a compiled module calls go to direct forms of lower rank, from the blocks and
from the direct forms themselves, so that nothing there comes back to the dispatcher.
-/

namespace WasmShader.Compile

open Emit

variable {config : Config} {p : Program} {g : CallGraph} {plan : Plan} {hosts : HostTable}

/-! ## From the plan to the module -/

/-- What is returned for a plan and its module. -/
def assemble (c : Config) (g : CallGraph) (skipped : List (Nat × Failure)) (plan : Plan)
    (hosts : HostTable) (m : Shader.Module) : Compiled :=
  { module := m, hosts, layout := c.layout
    entries := plan.entries
    blocks := plan.blocks
    stackWords := c.stackWords
    ioWords := plan.lane.io
    globalWords := plan.lane.globals
    globalInit := plan.context.globals.init
    config := c, program := g.program, analysis := g.analyze
    machines := plan.ids
    skipped }

/-- The last step: a compiled module is returned if it is valid. -/
def validated (out : Compiled) : Except Abort Compiled :=
  (out.module.validate.mapError fun e => .failed (.wrap .emit .malformed e "emitted module")) >>=
    fun _ => .ok out

/-- How a compiled module came about. -/
structure Origin (config : Config) (p : Program) (out : Compiled) (g : CallGraph) (plan : Plan)
    (direct : List Shader.Function) (machines : List (List Shader.Function))
    (entries : List Shader.Function) : Prop where
  graph : CallGraph.build p = .ok g
  keeps : Keeps p g (out.skipped.map (·.1))
  planning : Compile.plan config.withDefaults p g.analyze (out.skipped.map (·.1))
    = .ok (plan, out.hosts)
  planned : PlanSound config.withDefaults p g (out.skipped.map (·.1)) plan out.hosts
  parts : Parts plan out.module direct machines entries
  eq : out = assemble config.withDefaults g out.skipped plan out.hosts out.module

/-- The call graph has a call of a function that there is not. -/
def Dangling (p : Program) (e : Failure) : Prop :=
  ∃ f ∈ p.funcs, ∃ target ∈ f.calls, p.numFuncs ≤ target
    ∧ e = .danglingCall f.name target p.numFuncs

theorem build_cases (p : Program) : (∃ g, CallGraph.build p = .ok g)
    ∨ ∃ e, CallGraph.build p = .error e ∧ Dangling p e := by
  have hmapM (fs : List Function) : (∃ edges, fs.mapM (CallGraph.calleesOf p) = .ok edges)
      ∨ ∃ e, fs.mapM (CallGraph.calleesOf p) = .error e ∧ ∃ f ∈ fs, ∃ target ∈ f.calls,
        p.numFuncs ≤ target ∧ e = .danglingCall f.name target p.numFuncs := by
    induction fs with
    | nil => exact .inl ⟨[], rfl⟩
    | cons f fs ih =>
        rw [List.mapM_cons, CallGraph.calleesOf]
        cases hfind : f.calls.find? fun target => decide (p.numFuncs ≤ target) with
        | some target =>
            refine .inr ⟨_, rfl, f, List.mem_cons_self, target, List.mem_of_find?_eq_some hfind,
              ?_, rfl⟩
            have hle := List.find?_some hfind
            exact of_decide_eq_true hle
        | none =>
            rcases ih with ⟨edges, hedges⟩ | ⟨e, he, f', hf', hdangling⟩
            · exact .inl ⟨_, by rw [hedges]; rfl⟩
            · exact .inr ⟨e, by rw [he]; rfl, f', List.mem_cons_of_mem _ hf', hdangling⟩
  rcases hmapM p.funcs with ⟨edges, hedges⟩ | ⟨e, he, hdangling⟩
  · exact .inl ⟨_, by rw [CallGraph.build, hedges]; rfl⟩
  · exact .inr ⟨e, by rw [CallGraph.build, he]; rfl, hdangling⟩

/-- The steps of a compilation that succeed in front of the last. -/
theorem compile_eq_validated (hp : p.Formed) {unsupported : List (Nat × Failure)}
    (hu : unsupportedFunctions config.withDefaults p = .ok unsupported)
    (hg : CallGraph.build p = .ok g)
    (hpl : Compile.plan config.withDefaults p g.analyze
      ((skippedFunctions g unsupported).map (·.1)) = .ok (plan, hosts)) {m : Shader.Module}
    (hm : plan.module = .ok m) : compile config p = validated
      (assemble config.withDefaults g (skippedFunctions g unsupported) plan hosts m) := by
  rw [compile, bind_eq_of_ok hu, hg]
  change (g.analysis >>= _) = _
  rw [bind_eq_of_ok (CallGraph.analysis_eq_ok (CallGraph.sound_of_build hp hg))]
  change (Compile.plan config.withDefaults p g.analyze _ >>= _) = _
  rw [bind_eq_of_ok hpl]
  change (plan.module >>= _) = _
  rw [bind_eq_of_ok hm, assemble, CallGraph.program_of_build hg]
  unfold validated
  dsimp only
  cases m.validate with
  | ok u => rfl
  | error e => rfl

/-- A module that cannot be planned is not compiled. -/
theorem compile_eq_error (hp : p.Formed) {unsupported : List (Nat × Failure)}
    (hu : unsupportedFunctions config.withDefaults p = .ok unsupported)
    (hg : CallGraph.build p = .ok g) {e : Abort}
    (he : Compile.plan config.withDefaults p g.analyze
      ((skippedFunctions g unsupported).map (·.1)) = .error e) : compile config p = .error e := by
  rw [compile, bind_eq_of_ok hu, hg]
  change (g.analysis >>= _) = _
  rw [bind_eq_of_ok (CallGraph.analysis_eq_ok (CallGraph.sound_of_build hp hg))]
  change (Compile.plan config.withDefaults p g.analyze _ >>= _) = _
  rw [he]
  rfl

/-- Once a module is planned, it is emitted; what is left is to validate it. -/
theorem compile_of_plan (hp : p.Formed) {unsupported : List (Nat × Failure)}
    (hu : unsupportedFunctions config.withDefaults p = .ok unsupported)
    (hg : CallGraph.build p = .ok g)
    (hpl : Compile.plan config.withDefaults p g.analyze
      ((skippedFunctions g unsupported).map (·.1)) = .ok (plan, hosts)) :
    ∃ out direct machines entries, Origin config p out g plan direct machines entries
      ∧ out.skipped = skippedFunctions g unsupported ∧ compile config p = validated out := by
  have hkeeps := keeps_of_unsupported (CallGraph.sound_of_build hp hg) hu
  have hplanned : PlanSound config.withDefaults p g
      ((skippedFunctions g unsupported).map (·.1)) plan hosts := by
    rcases plan_total hp hg hkeeps config.withDefaults with ⟨pl, hosts', heq, h⟩ | ⟨e, heq, -⟩
    · rw [hpl] at heq
      cases heq
      exact h
    · rw [hpl] at heq
      cases heq
  obtain ⟨m, hm⟩ := hplanned.module_total hp hg hkeeps
  obtain ⟨direct, machines, entries, hparts⟩ := parts_of_module hm
  exact ⟨assemble config.withDefaults g (skippedFunctions g unsupported) plan hosts m,
    direct, machines, entries, ⟨hg, hkeeps, hpl, hplanned, hparts, rfl⟩, rfl,
    compile_eq_validated hp hu hg hpl hm⟩

/-- Once the functions are checked, a module is emitted unless a call, a capacity or an export
stands against it. -/
theorem compile_cases (hp : p.Formed) {unsupported : List (Nat × Failure)}
    (hu : unsupportedFunctions config.withDefaults p = .ok unsupported) :
    (∃ out g plan direct machines entries, Origin config p out g plan direct machines entries
      ∧ out.skipped = skippedFunctions g unsupported ∧ compile config p = validated out)
    ∨ ∃ e, compile config p = .error (.failed e)
      ∧ (e.isCapacity = true ∨ Dangling p e ∨ ∃ g, CallGraph.build p = .ok g
        ∧ Missing config p ((skippedFunctions g unsupported).map (·.1)) e) := by
  rcases build_cases p with ⟨g, hg⟩ | ⟨e, he, hdangling⟩
  · have hkeeps := keeps_of_unsupported (CallGraph.sound_of_build hp hg) hu
    rcases plan_total hp hg hkeeps config.withDefaults with ⟨plan, hosts, hpl, -⟩ | ⟨e, he, hwhy⟩
    · exact .inl ((compile_of_plan hp hu hg hpl).imp fun out h => ⟨g, plan, h⟩)
    · exact .inr ⟨e, compile_eq_error hp hu hg he, hwhy.imp_right fun hmissing => .inr ⟨g, hg, hmissing⟩⟩
  · refine .inr ⟨e, ?_, .inr (.inl hdangling)⟩
    rw [compile, bind_eq_of_ok hu, he]
    rfl

/-- A program that is compiled went through all steps. -/
theorem compile_eq_ok (hp : p.Formed) {out : Compiled} (h : compile config p = .ok out) :
    ∃ unsupported g plan direct machines entries,
      unsupportedFunctions config.withDefaults p = .ok unsupported
      ∧ Origin config p out g plan direct machines entries
      ∧ out.skipped = skippedFunctions g unsupported ∧ out.module.validate = .ok () := by
  obtain ⟨unsupported, hu, h'⟩ := Program.bind_eq_ok h
  obtain ⟨g, hlift, h'⟩ := Program.bind_eq_ok h'
  obtain ⟨a, ha, h'⟩ := Program.bind_eq_ok h'
  obtain ⟨⟨plan, hosts⟩, hplan, -⟩ := Program.bind_eq_ok h'
  have hg := Program.liftFailure_eq_ok hlift
  rw [CallGraph.analysis_eq_ok (CallGraph.sound_of_build hp hg)] at ha
  cases ha
  obtain ⟨out', direct, machines, entries, horigin, hskipped, hrun⟩ :=
    compile_of_plan hp hu hg hplan
  rw [h] at hrun
  obtain ⟨_, hvalid, hout⟩ := Program.bind_eq_ok hrun.symm
  cases hout
  refine ⟨unsupported, g, plan, direct, machines, entries, hu, horigin, hskipped, ?_⟩
  cases hv : out.module.validate with
  | ok u => rfl
  | error e =>
      rw [hv] at hvalid
      cases hvalid

/-! ## Legal modules -/

/-- Lists whose entries agree under functions have equal images. -/
theorem map_eq_of_forall₂ {α β γ : Type} {f : α → γ} {k : β → γ} {R : α → β → Prop} {xs : List α}
    {ys : List β} (h : List.Forall₂ R xs ys) (heq : ∀ x y, R x y → f x = k y) :
    xs.map f = ys.map k := by
  induction h with
  | nil => rfl
  | cons hxy _ ih => rw [List.map_cons, List.map_cons, heq _ _ hxy, ih]

section Module

variable {out : Compiled} {direct : List Shader.Function} {machines : List (List Shader.Function)}
  {entries : List Shader.Function}

theorem Origin.names_direct (h : Origin config p out g plan direct machines entries)
    (hp : p.Formed) : direct.map (·.name)
      = (g.analyze.order.filter fun fn => !(out.skipped.map (·.1)).contains fn).map directName := by
  refine (map_eq_of_forall₂ (h.parts.directs h.planned hp h.graph) ?_).symm
  rintro fn sf ⟨f, -, rfl, -, hsf⟩
  exact (name_of_directFunction hsf).1.symm

theorem Origin.names_entries (h : Origin config p out g plan direct machines entries) :
    entries.map (·.name) = plan.entries.map (·.shader) := by
  refine (map_eq_of_forall₂ (R := fun e sf => IsEntry p (out.skipped.map (·.1)) e.shader sf) ?_
    fun e sf he => he.name.symm).symm
  refine List.forall₂_iff_zip.mpr ⟨h.parts.isEntry.length_eq, fun {e sf} hmem => ?_⟩
  exact h.planned.isEntry (List.of_mem_zip hmem).1
    ((List.forall₂_iff_zip.mp h.parts.isEntry).2 hmem)

/-- The names of a module by kinds. -/
theorem Origin.names_eq (h : Origin config p out g plan direct machines entries) (hp : p.Formed) :
    out.module.functions.map (·.name) = [numericFunctions.map (·.name),
      (g.analyze.order.filter fun fn => !(out.skipped.map (·.1)).contains fn).map directName,
      plan.blocks.map (·.name), [setupName], [dispatcherName], plan.entries.map (·.shader),
      plan.otherEntries.map (·.name)].flatten := by
  have hmachines := congrArg List.flatten
    (h.parts.names_machines h.planned (CallGraph.sound_of_build hp h.graph))
  rw [← List.map_flatten, ← List.map_flatten] at hmachines
  have hexits : (plan.exits.map fun b => exitBlock plan.context.layout b.name b.payload).map (·.name)
      = plan.exits.map (·.name) := by
    rw [List.map_map]
    rfl
  rw [h.parts.functions]
  simp only [List.map_append, h.names_direct hp, h.names_entries, hmachines, hexits, Plan.blocks,
    List.map_cons, List.flatten_cons, List.flatten_nil, List.append_assoc,
    List.append_nil, List.cons_append, List.nil_append]
  rfl

theorem Origin.nodup_names (h : Origin config p out g plan direct machines entries)
    (hp : p.Formed) (hnames : NamesDiffer config p) :
    (out.module.functions.map (·.name)).Nodup := by
  have hsingle {name : String} : [name].Nodup ∧ ∀ n ∈ [name], stem n = stem name :=
    ⟨List.nodup_singleton _, fun n hn => by rw [List.mem_singleton.mp hn]⟩
  have hother : ∃ s, (s = ['r'] ∨ s = ['d']) ∧ (plan.otherEntries.map (·.name)).Nodup
      ∧ ∀ n ∈ plan.otherEntries.map (·.name), stem n = s := by
    unfold Plan.otherEntries
    split
    · exact ⟨['r'], .inl rfl, hsingle⟩
    · split
      · exact ⟨['d'], .inr rfl, hsingle⟩
      · exact ⟨['d'], .inr rfl, .nil, fun n hn => by cases hn⟩
  obtain ⟨s, hs, hother⟩ := hother
  rw [h.names_eq hp]
  refine @nodup_of_stems _ [['i'], ['f'], ['b', 'l'], ['s'], ['b', 'r'], ['e'], s]
    (.cons ?_ (.cons ?_ (.cons ?_ (.cons hsingle (.cons hsingle (.cons ?_ (.cons hother .nil))))))) ?_
  · exact ⟨by decide, by decide⟩
  · refine ⟨(((CallGraph.nodup_order (CallGraph.sound_of_build hp h.graph)).filter _).map
      fun _ _ => directName_inj), fun n hn => ?_⟩
    obtain ⟨fn, -, rfl⟩ := List.mem_map.mp hn
    exact stem_directName fn
  · refine ⟨h.planned.nodup_blocks.2, fun n hn => ?_⟩
    obtain ⟨b, hb, rfl⟩ := List.mem_map.mp hn
    rw [h.planned.name_of_mem_blocks hb]
    exact stem_blockName b.id
  · refine ⟨h.planned.nodup_shaders hnames, fun n hn => ?_⟩
    obtain ⟨e, he, rfl⟩ := List.mem_map.mp hn
    obtain ⟨x, -, f, -, -, -, symbol, -, rfl⟩ := h.planned.of_mem_entries he
    exact stem_entryName symbol
  · rcases hs with rfl | rfl <;> decide

theorem Origin.legal (h : Origin config p out g plan direct machines entries) (hp : p.Formed)
    (hnames : NamesDiffer config p) : out.module.Legal where
  names := h.nodup_names hp hnames
  calls := h.parts.callsEarlier h.planned hp h.graph h.keeps
  entryPoints e he := by
    rw [h.parts.entryPoints] at he
    obtain ⟨sf, hsf, rfl⟩ := List.mem_map.mp he
    obtain ⟨hparams, hresults, -⟩ := h.parts.mem_entries h.planned hsf
    refine ⟨sf, ?_, rfl, hparams, hresults⟩
    rw [h.parts.functions]
    exact List.mem_append_right _ hsf

/-! ## Calls of compiled code -/

/-- A call of a helper for numeric instructions or of a direct form of lower rank. -/
def CallsBelow (out : Compiled) (fn : Nat) (c : Shader.CallSite) : Prop :=
  c.func = i64Add ∨ c.func = i64Sub ∨ ∃ f ∈ out.program.funcs, c.func = directName f.index
    ∧ out.analysis.rank f.index < out.analysis.rank fn

theorem Origin.callsBelow (h : Origin config p out g plan direct machines entries) {fn : Nat}
    {s : Shader.CallSite} (hs : DirectCall p g (out.skipped.map (·.1)) fn s) :
    CallsBelow out fn s := by
  have hprogram : out.program = p := by
    rw [h.eq]
    exact CallGraph.program_of_build h.graph
  have hanalysis : out.analysis = g.analyze := by rw [h.eq]; rfl
  cases hs with
  | add => exact .inl rfl
  | sub => exact .inr (.inl rfl)
  | @direct f hf _ hcan =>
      refine .inr (.inr ⟨f, hprogram.symm ▸ hf, rfl, ?_⟩)
      rw [hanalysis]
      rw [Analysis.canCallDirect, Bool.and_eq_true, decide_eq_true_eq] at hcan
      exact hcan.2

theorem CallsBelow.ne_dispatcher {fn : Nat} {s : Shader.CallSite} (h : CallsBelow out fn s) :
    s.func ≠ dispatcherName := by
  rcases h with h | h | ⟨f, -, h, -⟩
  · rw [h]
    decide
  · rw [h]
    decide
  · intro heq
    have hstem := stem_directName f.index
    rw [← h, heq] at hstem
    exact absurd hstem (by decide)

/-- Direct forms and blocks call helpers and direct forms of lower rank only: neither a form of
their own rank nor the dispatcher. -/
structure Layered (out : Compiled) : Prop where
  direct : ∀ f ∈ out.program.funcs, f.index ∉ out.skipped.map (·.1) →
    ∃ sf ∈ out.module.functions, sf.name = directName f.index
      ∧ ∀ s ∈ sf.calls, CallsBelow out f.index s ∧ s.func ≠ dispatcherName
  blocks : ∀ b ∈ out.blocks, ∃ sf ∈ out.module.functions, sf.name = b.name
    ∧ ∀ s ∈ sf.calls, CallsBelow out b.func s ∧ s.func ≠ dispatcherName

theorem Origin.layered (h : Origin config p out g plan direct machines entries)
    (hp : p.Formed) : Layered out := by
  have hprogram : out.program = p := by
    rw [h.eq]
    exact CallGraph.program_of_build h.graph
  have hblocks : out.blocks = plan.blocks := by rw [h.eq]; rfl
  refine ⟨fun f hf hkept => ?_, fun b hb => ?_⟩
  · rw [hprogram] at hf
    obtain ⟨sf, hmem, f', hf', hindex, -, hsf⟩ := exists_of_forall₂_left
      (h.parts.directs h.planned hp h.graph) ((mem_kept_order hp h.graph).mpr ⟨f, hf, rfl, hkept⟩)
    refine ⟨sf, ?_, hindex ▸ (name_of_directFunction hsf).1, fun s hs => ?_⟩
    · rw [h.parts.functions]
      simp [hmem]
    · have hcall := h.callsBelow ((h.planned.direct_lawful hp h.graph h.keeps hf'
        (hindex ▸ hkept) hsf).body.calls s hs)
      exact ⟨hindex ▸ hcall, hcall.ne_dispatcher⟩
  · rw [hblocks] at hb
    rcases List.mem_append.mp hb with hb | hb
    · obtain ⟨sf, hmem, hname, fr, hfr, block, hblock, heq, hsf⟩ :=
        h.parts.of_mem_machines h.planned (CallGraph.sound_of_build hp h.graph) hb
      refine ⟨sf, ?_, hname, fun s hs => ?_⟩
      · rw [h.parts.functions]
        simp only [List.mem_append, hmem, or_true, true_or]
      · have hcall := h.callsBelow
          ((h.planned.block_lawful hp h.graph hfr hblock hsf).body.calls s hs)
        refine ⟨?_, hcall.ne_dispatcher⟩
        rw [heq]
        exact hcall
    · refine ⟨exitBlock plan.context.layout b.name b.payload, ?_, rfl, fun s hs => ?_⟩
      · rw [h.parts.functions]
        simp only [List.mem_append, List.mem_map]
        exact .inl (.inl (.inr ⟨b, hb, rfl⟩))
      · exact ((exitBlock_lawful (P := fun _ => False) (W := fun _ => True) trivial trivial _ _ _).body.calls s hs).elim

/-! ## The result of a compilation -/

/-- A function that can be compiled or left out. -/
def Accepted (config : Config) (p : Program) (f : Function) : Prop :=
  p.check f = .ok () ∨ config.skipUnsupported = true
    ∧ ∃ e, p.check f = .error (.failed e) ∧ e.isUnsupported = true

theorem unsupported_of_accepted (h : ∀ f ∈ p.funcs, Accepted config p f) :
    ∃ unsupported, unsupportedFunctions config.withDefaults p = .ok unsupported := by
  obtain ⟨looked, hlooked, -⟩ : ∃ looked, p.funcs.mapM (checkFunction config.withDefaults p)
      = .ok looked ∧ List.Forall₂ (fun _ _ => True) p.funcs looked := by
    refine mapM_eq_ok fun f hf => ?_
    unfold checkFunction
    rcases h f hf with hok | ⟨hskip, e, he, hunsupported⟩
    · exact ⟨none, by rw [hok], trivial⟩
    · refine ⟨some (f.index, e), ?_, trivial⟩
      rw [he]
      dsimp only
      rw [hunsupported]
      exact if_pos hskip
  exact ⟨_, bind_eq_of_ok hlooked⟩

/-- What is on the list of unsupported functions does not pass the check. -/
theorem check_of_unsupported {unsupported : List (Nat × Failure)}
    (h : unsupportedFunctions config p = .ok unsupported) {fn : Nat}
    (hfn : fn ∈ unsupported.map (·.1)) : ∃ f ∈ p.funcs, f.index = fn ∧ p.check f ≠ .ok () := by
  obtain ⟨looked, hlooked, h⟩ := Program.bind_eq_ok h
  cases h
  obtain ⟨x, hx, rfl⟩ := List.mem_map.mp hfn
  obtain ⟨r, hr, rfl⟩ := List.mem_filterMap.mp hx
  obtain ⟨f, hf, hcheck⟩ := exists_of_forall₂_left (forall₂_of_mapM hlooked).flip hr
  refine ⟨f, hf, ?_, fun hok => ?_⟩
  · unfold checkFunction at hcheck
    split at hcheck
    · cases hcheck
    · split at hcheck
      · cases hcheck
        rfl
      · cases hcheck
    · cases hcheck
  · rw [checkFunction, hok] at hcheck
    cases hcheck

/-- An export asked for that is of no function, or of functions only that reach one that does not
pass the check. -/
def NoSuchExport (config : Config) (p : Program) (e : Failure) : Prop :=
  ∃ name ∈ config.exports, e = .notFound .emit "export" (Text.quote name)
    ∧ ∃ g, CallGraph.build p = .ok g ∧ ∀ f ∈ p.funcs, Symbol.ofText name ∈ f.exports →
      ∃ f' ∈ p.funcs, g.Calls f.index f'.index ∧ p.check f' ≠ .ok ()

theorem noSuchExport_of_missing (hp : p.Formed) (hg : CallGraph.build p = .ok g)
    {unsupported : List (Nat × Failure)}
    (hu : unsupportedFunctions config.withDefaults p = .ok unsupported) {e : Failure}
    (h : Missing config p ((skippedFunctions g unsupported).map (·.1)) e) :
    NoSuchExport config p e := by
  obtain ⟨name, hname, rfl, hskipped⟩ := h
  refine ⟨name, hname, rfl, g, hg, fun f hf hexports => ?_⟩
  have hmem := hskipped f hf hexports
  rw [skipped_eq] at hmem
  obtain ⟨fn, hfn, hcalls⟩ :=
    (CallGraph.mem_transitiveCallers (CallGraph.sound_of_build hp hg)).mp hmem
  obtain ⟨f', hf', rfl, hcheck⟩ := check_of_unsupported hu hfn
  exact ⟨f', hf', hcalls, hcheck⟩

theorem Origin.validated_eq (h : Origin config p out g plan direct machines entries)
    (hp : p.Formed) (hnames : NamesDiffer config p) : validated out = .ok out := by
  rw [validated, (h.legal hp hnames).validate]
  rfl

/-- A program that has a plan is compiled, if the entry points get different names. -/
theorem compile_isOk (hp : p.Formed) (hnames : NamesDiffer config p)
    {unsupported : List (Nat × Failure)}
    (hu : unsupportedFunctions config.withDefaults p = .ok unsupported)
    (hg : CallGraph.build p = .ok g)
    (hplan : (Compile.plan config.withDefaults p g.analyze
      ((skippedFunctions g unsupported).map (·.1))).isOk = true) :
    ∃ out, compile config p = .ok out ∧ out.skipped = skippedFunctions g unsupported := by
  cases hrun : Compile.plan config.withDefaults p g.analyze
      ((skippedFunctions g unsupported).map (·.1)) with
  | error e =>
      rw [hrun] at hplan
      cases hplan
  | ok r =>
      obtain ⟨out, direct, machines, entries, horigin, hskipped, hcompile⟩ :=
        compile_of_plan hp hu hg hrun
      exact ⟨out, hcompile.trans (horigin.validated_eq hp hnames), hskipped⟩

/-- A program whose functions are all checked or left out, with different names for the entry
points, is compiled to a legal module without cycles of calls, unless a capacity is too small, a
function has a call of a function that there is not, or an export asked for is missing. -/
theorem compile_yields_legal_module {m : Binary.Module} (hread : Program.ofModule m = .ok p)
    (haccepted : ∀ f ∈ p.funcs, Accepted config p f) (hnames : NamesDiffer config p) :
    (∃ out, compile config p = .ok out ∧ out.module.validate = .ok () ∧ out.module.Legal
      ∧ (∀ name, ¬Relation.TransGen out.module.Calls name name) ∧ Layered out)
    ∨ ∃ e, compile config p = .error (.failed e)
      ∧ (e.isCapacity = true ∨ Dangling p e ∨ NoSuchExport config p e) := by
  have hp := Program.formed_of_ofModule hread
  obtain ⟨unsupported, hu⟩ := unsupported_of_accepted haccepted
  rcases compile_cases hp hu with
    ⟨out, g, plan, direct, machines, entries, horigin, -, hrun⟩ | ⟨e, he, hwhy⟩
  · have hlegal := horigin.legal hp hnames
    exact .inl ⟨out, hrun.trans (horigin.validated_eq hp hnames), hlegal.validate, hlegal,
      hlegal.acyclic, horigin.layered hp⟩
  · refine .inr ⟨e, he, hwhy.imp_right (Or.imp_right ?_)⟩
    rintro ⟨g, hg, hmissing⟩
    exact noSuchExport_of_missing hp hg hu hmissing

/-! A function that calls itself with one less until it is given zero, under the name `f`. -/

def countdown : Binary.Module where
  types := [⟨[0x7f], [0x7f]⟩]
  funcs := [0]
  exports := [⟨[0x66], Binary.Export.funcKind, 0⟩]
  code := [⟨[], [0x20, 0, 0x04, 0x7f, 0x20, 0, 0x41, 1, 0x6b, 0x10, 0, 0x05, 0x41, 0, 0x0b, 0x0b]⟩]

def countdownProgram : Program := (Program.ofModule countdown).toOption.getD default

def countdownGraph : CallGraph := (CallGraph.build countdownProgram).toOption.getD default

theorem funcs_countdown : countdownProgram.funcs = [countdownProgram.funcs.headD default] := by
  have hlen : countdownProgram.funcs.length = 1 := by decide +kernel
  obtain ⟨f, hf⟩ := List.length_eq_one_iff.mp hlen
  rw [hf]
  rfl

theorem exists_of_isOk {ε α : Type} {x : Except ε α} (h : x.isOk = true) : ∃ a, x = .ok a := by
  cases x with
  | ok a => exact ⟨a, rfl⟩
  | error e => cases h

theorem namesDiffer_of_exports (hall : ∀ s ∈ p.funcs.flatMap (·.exports),
    ∀ s' ∈ p.funcs.flatMap (·.exports), entryName s = entryName s' → s = s') :
    NamesDiffer config p := by
  intro f hf f' hf' s hs s' hs' _ _ hsame
  exact hall s (List.mem_flatMap.mpr ⟨f, hf, hs⟩) s' (List.mem_flatMap.mpr ⟨f', hf', hs'⟩) hsame

theorem namesDiffer_countdown : NamesDiffer {} countdownProgram :=
  namesDiffer_of_exports (by decide +kernel)

/-- The theorem at a program with recursion. -/
theorem compile_yields_legal_module_countdown :
    (∀ f ∈ countdownProgram.funcs, Accepted {} countdownProgram f)
      ∧ NamesDiffer {} countdownProgram
      ∧ ∃ out, compile {} countdownProgram = .ok out ∧ out.module.validate = .ok ()
        ∧ out.module.Legal ∧ (∀ name, ¬Relation.TransGen out.module.Calls name name)
        ∧ Layered out := by
  have hread : Program.ofModule countdown = .ok countdownProgram :=
    eq_ok_getD (by decide +kernel) default
  have haccepted : ∀ f ∈ countdownProgram.funcs, Accepted {} countdownProgram f := by
    intro f hf
    rw [funcs_countdown, List.mem_singleton] at hf
    rw [hf]
    exact .inl (eq_ok_unit (by decide +kernel))
  refine ⟨haccepted, namesDiffer_countdown, ?_⟩
  rcases compile_yields_legal_module hread haccepted namesDiffer_countdown with hok | ⟨e, he, -⟩
  · exact hok
  · have hp := Program.formed_of_ofModule hread
    have hg : CallGraph.build countdownProgram = .ok countdownGraph :=
      eq_ok_getD (by decide +kernel) default
    have hu : unsupportedFunctions (Config.withDefaults {}) countdownProgram
        = .ok ((unsupportedFunctions (Config.withDefaults {}) countdownProgram).toOption.getD []) :=
      eq_ok_getD (by decide +kernel) []
    obtain ⟨r, hplan⟩ := exists_of_isOk (x := Compile.plan (Config.withDefaults {}) countdownProgram
      countdownGraph.analyze ((skippedFunctions countdownGraph ((unsupportedFunctions
        (Config.withDefaults {}) countdownProgram).toOption.getD [])).map (·.1)))
      (by decide +kernel)
    obtain ⟨out, direct, machines, entries, horigin, -, hrun⟩ :=
      compile_of_plan hp hu hg hplan
    rw [hrun, horigin.validated_eq hp namesDiffer_countdown] at he
    cases he

end Module

end WasmShader.Compile
