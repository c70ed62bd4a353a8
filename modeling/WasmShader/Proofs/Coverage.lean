import WasmShader.Proofs.BlockNumbers
import WasmShader.Proofs.VariantDecisions

/-!
# What is compiled

A function is left out of a compiled module if calls lead from it to a function with something
unsupported, and only then. Everything else is there: a direct form of every function that is
kept, in the order of the analysis, a machine for each of them that recursion leads to or that
reaches recursion or the host, and an entry point for each of its exports that is wanted. What is
there refers to nothing that is left out.
-/

namespace WasmShader

open Emit

namespace Compile

/-! ## Functions left out -/

/-- The function uses something that is not supported. -/
def Unsupported (p : Program) (f : Function) : Prop :=
  ∃ e, p.check f = .error (.failed e) ∧ e.isUnsupported = true

variable {c : Config} {p : Program} {unsupported : List (Nat × Failure)}

theorem checkFunction_eq_ok {f : Function} {r : Option (Nat × Failure)}
    (h : checkFunction c p f = .ok r) :
    r = none ∧ p.check f = .ok () ∨ c.skipUnsupported = true ∧ ∃ e, r = some (f.index, e)
      ∧ p.check f = .error (.failed e) ∧ e.isUnsupported = true := by
  unfold checkFunction at h
  split at h
  · next hcheck =>
    cases h
    exact .inl ⟨rfl, hcheck⟩
  · next e hcheck =>
    split at h
    · next hboth =>
      cases h
      obtain ⟨hunsupported, hskip⟩ := Bool.and_eq_true_iff.mp hboth
      exact .inr ⟨hskip, e, rfl, hcheck, hunsupported⟩
    · cases h
  · cases h

/-- The list has the functions that use something unsupported. -/
theorem mem_unsupported_iff (h : unsupportedFunctions c p = .ok unsupported) {fn : Nat} :
    fn ∈ unsupported.map (·.1) ↔ ∃ f ∈ p.funcs, f.index = fn ∧ Unsupported p f := by
  constructor
  · intro hfn
    obtain ⟨looked, hlooked, h⟩ := Program.bind_eq_ok h
    cases h
    obtain ⟨⟨_, e⟩, hmem, rfl⟩ := List.mem_map.mp hfn
    obtain ⟨r, hr, heq⟩ := List.mem_filterMap.mp hmem
    obtain ⟨f, hf, hcheck⟩ := exists_of_forall₂_left (forall₂_of_mapM hlooked).flip hr
    rcases checkFunction_eq_ok hcheck with ⟨rfl, -⟩ | ⟨-, e', rfl, hfailed, hunsupported⟩
    · cases heq
    · cases heq
      exact ⟨f, hf, rfl, e, hfailed, hunsupported⟩
  · rintro ⟨f, hf, rfl, e, hfailed, -⟩
    refine (check_or_unsupported h hf).resolve_left fun hok => ?_
    rw [hfailed] at hok
    cases hok

theorem unsupported_eq_nil (h : unsupportedFunctions c p = .ok unsupported)
    (hskip : c.skipUnsupported = false) : unsupported = [] := by
  obtain ⟨looked, hlooked, h⟩ := Program.bind_eq_ok h
  cases h
  refine List.filterMap_eq_nil_iff.mpr fun r hr => ?_
  obtain ⟨f, hf, hcheck⟩ := exists_of_forall₂_left (forall₂_of_mapM hlooked).flip hr
  rcases checkFunction_eq_ok hcheck with ⟨rfl, -⟩ | ⟨hon, -⟩
  · rfl
  · rw [hskip] at hon
    cases hon

theorem skipped_eq_nil {g : CallGraph} : skippedFunctions g [] = [] := by
  rw [skippedFunctions, CallGraph.transitiveCallers, List.map_nil, List.length_nil, Nat.zero_add]
  have hnone : CallGraph.closure g.callers g.size [] [] = [] := by
    cases g.size <;> rfl
  rw [hnone, List.mergeSort_nil, List.map_nil]

/-! ## Entry points -/

theorem mem_symbols_sortEntries {es : List Entry} {symbol : Symbol} :
    symbol ∈ (sortEntries es).map (·.symbol) ↔ symbol ∈ es.map (·.symbol) := by
  have hfold : symbol ∈ (es.foldr (fun e later =>
      if later.any (·.symbol == e.symbol) then later else e :: later) []).map (·.symbol)
      ↔ symbol ∈ es.map (·.symbol) := by
    induction es with
    | nil => exact Iff.rfl
    | cons e es ih =>
        rw [List.foldr_cons, List.map_cons, List.mem_cons, ← ih]
        split
        · next hany =>
          obtain ⟨e', he', hsame⟩ := List.any_eq_true.mp hany
          refine ⟨.inr, fun h => h.elim (fun heq => ?_) id⟩
          exact List.mem_map.mpr ⟨e', he', (beq_iff_eq.mp hsame).trans heq.symm⟩
        · rw [List.map_cons, List.mem_cons]
  rw [← hfold, sortEntries, List.mem_map, List.mem_map]
  simp only [List.mem_mergeSort]

/-- The entry points are for the exports of functions that are kept. -/
theorem PlanSound.mem_symbols {g : CallGraph} {skipped : List Nat} {plan : Plan}
    {hosts : HostTable} (h : PlanSound c p g skipped plan hosts) {symbol : Symbol} :
    symbol ∈ plan.entries.map (·.symbol)
      ↔ ∃ f ∈ p.funcs, f.index ∉ skipped ∧ symbol ∈ f.exports ∧ c.wants symbol = true := by
  rw [h.entries, mem_symbols_sortEntries]
  constructor
  · intro hmem
    obtain ⟨e, he, rfl⟩ := List.mem_map.mp hmem
    obtain ⟨x, hx, he⟩ := List.mem_flatMap.mp he
    obtain ⟨symbol, hsymbol, rfl⟩ := List.mem_map.mp he
    obtain ⟨f, hf, hexported⟩ := exists_of_forall₂_left h.exported.flip hx
    obtain ⟨hf, hkept⟩ := List.mem_filter.mp hf
    rw [hexported.symbols] at hsymbol
    obtain ⟨hexport, hwants⟩ := List.mem_filter.mp hsymbol
    exact ⟨f, hf, by simpa using hkept, hexport, hwants⟩
  · rintro ⟨f, hf, hkept, hexport, hwants⟩
    have hmem : f ∈ p.funcs.filter fun f => !skipped.contains f.index :=
      List.mem_filter.mpr ⟨hf, by simpa using hkept⟩
    obtain ⟨x, hx, hexported⟩ := exists_of_forall₂_left h.exported hmem
    have hsymbol : symbol ∈ x.symbols := by
      rw [hexported.symbols]
      exact List.mem_filter.mpr ⟨hexport, hwants⟩
    let e : Entry := ⟨symbol, entryName symbol, x.func.type, x.func.index, x.exit.map (·.id)⟩
    refine List.mem_map.mpr ⟨e, List.mem_flatMap.mpr ⟨x, hx, ?_⟩, rfl⟩
    exact List.mem_map.mpr ⟨symbol, hsymbol, rfl⟩

/-! ## References -/

section Module

variable {config : Config} {g : CallGraph} {plan : Plan} {out : Compiled}
  {direct : List Shader.Function} {machines : List (List Shader.Function)}
  {entries : List Shader.Function}

theorem stem_ne {name : String} (h : stem name ≠ ['f']) (fn : Nat) : name ≠ directName fn :=
  fun heq => h (heq ▸ stem_directName fn)

/-- The blocks of a compiled module belong to functions that are kept. -/
theorem Origin.block_kept (h : Origin config p out g plan direct machines entries)
    {b : BlockInfo} (hb : b ∈ out.blocks) : b.func ∉ out.skipped.map (·.1) := by
  rw [h.blocks_eq] at hb
  rcases List.mem_append.mp hb with hb | hb
  · obtain ⟨infos, hinfos, hb⟩ := List.mem_flatten.mp hb
    obtain ⟨fr, hfr, hmachine⟩ := exists_of_forall₂_left h.planned.machines.flip hinfos
    obtain ⟨block, -, hinfo⟩ := exists_of_forall₂_left hmachine.flip hb
    rw [hinfo]
    exact (h.planned.built fr hfr).kept
  · obtain ⟨x, hx, hexit⟩ := List.mem_filterMap.mp hb
    obtain ⟨f, hf, hexported⟩ := exists_of_forall₂_left h.planned.exported.flip hx
    rw [hexported.info b hexit]
    have hkept := (List.mem_filter.mp hf).2
    rw [Bool.not_eq_true', ← Bool.not_eq_true, List.contains_iff_mem] at hkept
    exact hkept

/-- What a call of a compiled module can be of: something that is there in every module, the
direct form of a function that is kept, or a block. -/
def CallsKept (p : Program) (out : Compiled) (s : Shader.CallSite) : Prop :=
  s.func ∈ [i64Add, i64Sub, setupName, dispatcherName]
    ∨ (∃ f ∈ p.funcs, f.index ∉ out.skipped.map (·.1) ∧ s.func = directName f.index)
    ∨ ∃ b ∈ out.blocks, s.func = b.name

theorem callsKept_of_directCall {fn : Nat} {s : Shader.CallSite}
    (h : DirectCall p g (out.skipped.map (·.1)) fn s) : CallsKept p out s := by
  cases h with
  | add => exact .inl (by decide)
  | sub => exact .inl (by decide)
  | direct hf hkept _ => exact .inr (.inl ⟨_, hf, hkept, rfl⟩)

theorem Origin.callsKept (h : Origin config p out g plan direct machines entries)
    (hp : p.Formed) {sf : Shader.Function} (hsf : sf ∈ out.module.functions)
    {s : Shader.CallSite} (hs : s ∈ sf.calls) : CallsKept p out s := by
  rw [h.parts.functions] at hsf
  simp only [List.mem_append, List.mem_cons, List.not_mem_nil, or_false, List.mem_map] at hsf
  rcases hsf with ((((hsf | hsf) | hsf) | ⟨b, -, rfl⟩) | rfl | rfl) | hsf
  · rw [calls_numericFunctions sf hsf] at hs
    cases hs
  · obtain ⟨fn, -, f, hf, rfl, hkept, hfunction⟩ :=
      exists_of_forall₂_left (h.parts.directs h.planned hp h.graph).flip hsf
    have hlawful := h.planned.direct_lawful hp h.graph h.keeps hf hkept hfunction
    exact callsKept_of_directCall (hlawful.body.calls s hs)
  · obtain ⟨-, -, fr, hfr, b, hb, hfunction⟩ := mem_machines_serves h.parts hsf
    have hlawful := h.planned.block_lawful hp h.graph hfr hb hfunction
    exact callsKept_of_directCall (hlawful.body.calls s hs)
  · exact ((exitBlock_lawful (P := fun _ => False) (W := fun _ => True) trivial trivial _ _
      _).body.calls s hs).elim
  · rw [calls_setupFunction] at hs
    cases hs
  · refine .inr (.inr ?_)
    refine (dispatcher_lawful (P := fun s => ∃ b ∈ out.blocks, s.func = b.name)
      (W := fun _ => True) fun x hx => ?_).body.calls s hs
    obtain ⟨b, hb, rfl⟩ := List.mem_map.mp hx
    exact ⟨b, h.blocks_eq ▸ hb, rfl⟩
  · have hcall := (h.parts.mem_entries h.planned (List.mem_append.mpr hsf)).2.2.body.calls s hs
    cases hcall with
    | setup => exact .inl (by decide)
    | dispatcher => exact .inl (by decide)
    | direct hf hkept => exact .inr (.inl ⟨_, hf, hkept, rfl⟩)

theorem Origin.ne_skipped (h : Origin config p out g plan direct machines entries)
    {s : Shader.CallSite} (hs : CallsKept p out s) {fn : Nat}
    (hfn : fn ∈ out.skipped.map (·.1)) : s.func ≠ directName fn := by
  rcases hs with hfixed | ⟨f, -, hkept, hname⟩ | ⟨b, hb, hname⟩
  · refine stem_ne ?_ fn
    have hstems : ∀ name ∈ [i64Add, i64Sub, setupName, dispatcherName], stem name ≠ ['f'] := by
      decide
    exact hstems _ hfixed
  · rw [hname]
    exact fun heq => hkept (directName_inj heq ▸ hfn)
  · rw [hname, h.planned.name_of_mem_blocks (h.blocks_eq ▸ hb)]
    exact stem_ne (by rw [stem_blockName]; decide) fn

/-- The numbers that are written to the stack are those of host functions and of blocks. -/
theorem Origin.number_kept (h : Origin config p out g plan direct machines entries)
    (hp : p.Formed) {sf : Shader.Function} (hsf : sf ∈ out.module.functions) {n : UInt32}
    (hn : n ∈ sf.numbers) : (BlockId.mk n).isHost = true
      ∨ ∃ b ∈ out.blocks, b.id = ⟨n⟩ ∧ b.func ∉ out.skipped.map (·.1) := by
  have hsound := CallGraph.sound_of_build hp h.graph
  have hget {fn k : Nat} (hk : out.numbers.get? fn k = some ⟨n⟩) :
      ∃ b ∈ out.blocks, b.id = ⟨n⟩ ∧ b.func ∉ out.skipped.map (·.1) := by
    rw [h.numbers_eq] at hk
    obtain ⟨b, hb, hid, -⟩ := (h.planned.get?_eq_some hsound).mp hk
    rw [← h.blocks_eq] at hb
    exact ⟨b, hb, hid, h.block_kept hb⟩
  rcases h.numbers_cases hsf with hnone | ⟨fr, hfr, b, hb, hfunction⟩ | ⟨e, -, -, hentry⟩
  · rw [hnone] at hn
    cases hn
  · have hnumbers : AreNumbers sf.numbers (out.numbers.targets fr.machine.func.index b.term) :=
      blockFunction_numbers hfunction
    have hmem : some ⟨n⟩ ∈ out.numbers.targets fr.machine.func.index b.term := by
      rw [← hnumbers]
      exact List.mem_map.mpr ⟨n, hn, rfl⟩
    rcases List.mem_append.mp hmem with hmem | hmem
    · obtain ⟨k, -, hk⟩ := List.mem_map.mp hmem
      exact .inr (hget hk)
    · cases hterm : b.term with
      | call callee args results next =>
          rw [hterm] at hmem
          exact .inr (hget (List.mem_singleton.mp hmem).symm)
      | host hf args results next =>
          rw [hterm] at hmem
          have hid := Option.some.inj (List.mem_singleton.mp hmem)
          obtain ⟨hasked, -⟩ := ((h.planned.built fr hfr).sound.leads b hb).host hf args results
            next hterm
          obtain ⟨k, hk⟩ := List.mem_iff_getElem?.mp hasked
          rw [hid, h.planned.table.1.numbered k hf hk]
          exact .inl (isHost_host _)
      | _ =>
          rw [hterm] at hmem
          cases hmem
  · generalize sf.numbers = numbers at hentry hn
    cases hentry with
    | direct => cases hn
    | machine hexit _ _ hfirst =>
        rcases List.mem_cons.mp hn with rfl | hn
        · exact .inr ⟨_, hexit, rfl, h.block_kept hexit⟩
        · obtain rfl := List.mem_singleton.mp hn
          exact .inr (hget hfirst)

/-! ## The result -/

/-- A function that has a direct form. -/
def IsDirectForm (p : Program) (out : Compiled) (fn : Nat) (sf : Shader.Function) : Prop :=
  sf.name = directName fn ∧ ∃ f ∈ p.funcs, f.index = fn
    ∧ directFunction ⟨p, out.analysis, out.layout, .ofProgram p out.layout, out.stackWords⟩ f
      = .ok sf

/-- What is compiled of a program, and what is left out. -/
structure Covers (config : Config) (p : Program) (g : CallGraph) (out : Compiled) : Prop where
  analysis : out.analysis = g.analyze
  skipped : ∀ fn, fn ∈ out.skipped.map (·.1)
    ↔ ∃ f ∈ p.funcs, Unsupported p f ∧ g.Calls fn f.index
  skipsNothing : config.skipUnsupported = false → out.skipped = []
  /-- Every function that is kept has a direct form, and no other function has one. -/
  direct : ∃ pre forms post, out.module.functions = pre ++ forms ++ post
    ∧ List.Forall₂ (IsDirectForm p out)
      (out.analysis.order.filter fun fn => !(out.skipped.map (·.1)).contains fn) forms
    ∧ ∀ sf ∈ pre ++ post, ∀ fn, sf.name ≠ directName fn
  order : out.analysis.order.Nodup
    ∧ ∀ fn, fn ∈ out.analysis.order ↔ ∃ f ∈ p.funcs, f.index = fn
  machines : out.machines.map (·.1)
    = out.analysis.machineSet.filter fun fn => !(out.skipped.map (·.1)).contains fn
  symbols : (out.entries.map (·.symbol)).Nodup ∧ ∀ symbol, symbol ∈ out.entries.map (·.symbol)
    ↔ ∃ f ∈ p.funcs, f.index ∉ out.skipped.map (·.1) ∧ symbol ∈ f.exports
      ∧ config.wants symbol = true
  entries : ∀ e ∈ out.entries, ∃ f ∈ p.funcs, f.index = e.func
    ∧ f.index ∉ out.skipped.map (·.1) ∧ e.symbol ∈ f.exports ∧ e.sig = f.type
    ∧ (e.isMachine = true ↔ CallGraph.MeetsMachine p g f.index)
  groups : ∀ fn, g.InGroup fn ↔ g.Recursive fn
  calls : ∀ sf ∈ out.module.functions, ∀ s ∈ sf.calls, CallsKept p out s
    ∧ ∀ fn ∈ out.skipped.map (·.1), s.func ≠ directName fn
  blocks : ∀ b ∈ out.blocks, b.func ∉ out.skipped.map (·.1)
  numbers : ∀ sf ∈ out.module.functions, ∀ n ∈ sf.numbers, (BlockId.mk n).isHost = true
    ∨ ∃ b ∈ out.blocks, b.id = ⟨n⟩ ∧ b.func ∉ out.skipped.map (·.1)

/-- The direct forms stand together, and nothing else has a name as they have. -/
theorem Origin.direct_split (h : Origin config p out g plan direct machines entries) :
    ∃ post, out.module.functions = numericFunctions ++ direct ++ post
      ∧ ∀ sf ∈ numericFunctions ++ post, ∀ fn, sf.name ≠ directName fn := by
  have hfunctions := h.parts.functions
  simp only [List.append_assoc] at hfunctions
  rw [← List.append_assoc numericFunctions] at hfunctions
  refine ⟨_, hfunctions, fun sf hsf => stem_ne ?_⟩
  have hblock {b : BlockInfo} (hb : b ∈ plan.blocks) : stem b.name ≠ ['f'] := by
    rw [h.planned.name_of_mem_blocks hb, stem_blockName]
    decide
  simp only [List.mem_append, List.mem_cons, List.not_mem_nil, or_false, List.mem_map] at hsf
  rcases hsf with hsf | hsf | ⟨b, hb, rfl⟩ | (rfl | rfl) | hsf | hsf
  · have hstems : ∀ sf ∈ numericFunctions, stem sf.name ≠ ['f'] := by decide
    exact hstems sf hsf
  · obtain ⟨-, -, fr, -, b, -, hfunction⟩ := mem_machines_serves h.parts hsf
    obtain ⟨id, -, hname, -⟩ := name_of_blockFunction hfunction
    rw [hname, stem_blockName]
    decide
  · exact hblock (List.mem_append_right _ hb)
  · exact (by decide : stem setupName ≠ ['f'])
  · exact (by decide : stem dispatcherName ≠ ['f'])
  · obtain ⟨e, he, hfunction⟩ := exists_of_forall₂_left h.parts.isEntry.flip hsf
    obtain ⟨x, -, f, -, -, -, symbol, -, rfl⟩ := h.planned.of_mem_entries he
    rw [(h.planned.isEntry he hfunction).name, stem_entryName]
    decide
  · rcases mem_otherEntries hsf with rfl | rfl
    · exact (by decide : stem resumeName ≠ ['f'])
    · exact (by decide : stem emptyEntryName ≠ ['f'])

theorem Origin.direct_forms (h : Origin config p out g plan direct machines entries)
    (hp : p.Formed) : List.Forall₂ (IsDirectForm p out)
      (out.analysis.order.filter fun fn => !(out.skipped.map (·.1)).contains fn) direct := by
  have hcontext : plan.context
      = ⟨p, out.analysis, out.layout, .ofProgram p out.layout, out.stackWords⟩ := by
    have hstack : out.stackWords = config.withDefaults.stackWords := congrArg (·.stackWords) h.eq
    rw [h.planned.context, h.analysis_eq, h.layout_eq, hstack]
  rw [h.analysis_eq]
  refine (h.parts.directs h.planned hp h.graph).imp fun fn sf hsf => ?_
  obtain ⟨f, hf, rfl, -, hfunction⟩ := hsf
  exact ⟨(name_of_directFunction hfunction).1, f, hf, rfl, hcontext ▸ hfunction⟩

theorem Origin.covers (h : Origin config p out g plan direct machines entries) (hp : p.Formed)
    (hu : unsupportedFunctions config.withDefaults p = .ok unsupported)
    (hskipped : out.skipped = skippedFunctions g unsupported) : Covers config p g out := by
  have hsound := CallGraph.sound_of_build hp h.graph
  refine ⟨h.analysis_eq, ?_, ?_, ?_, ?_, ?_, ?_, ?_, ?_, ?_, ?_, ?_⟩
  · intro fn
    rw [hskipped, skipped_eq, CallGraph.mem_transitiveCallers hsound]
    constructor
    · rintro ⟨b, hb, hcalls⟩
      obtain ⟨f, hf, rfl, hunsupported⟩ := (mem_unsupported_iff hu).mp hb
      exact ⟨f, hf, hunsupported, hcalls⟩
    · rintro ⟨f, hf, hunsupported, hcalls⟩
      exact ⟨f.index, (mem_unsupported_iff hu).mpr ⟨f, hf, rfl, hunsupported⟩, hcalls⟩
  · intro hoff
    rw [hskipped, unsupported_eq_nil hu hoff, skipped_eq_nil]
  · obtain ⟨post, hfunctions, hnames⟩ := h.direct_split
    exact ⟨numericFunctions, direct, post, hfunctions, h.direct_forms hp, hnames⟩
  · rw [h.analysis_eq]
    refine ⟨CallGraph.nodup_order hsound, fun fn => ?_⟩
    rw [CallGraph.mem_order hsound, CallGraph.nodes, CallGraph.program_of_build h.graph]
    exact List.mem_map
  · have hnumbers : out.machines = plan.ids := h.numbers_eq
    have hfst := List.map_fst_zip (Nat.le_of_eq h.planned.machines.length_eq)
    rw [hnumbers, h.analysis_eq, ← h.planned.frames, ← hfst, Plan.ids, List.map_map, List.map_map]
    rfl
  · rw [h.entries_eq]
    refine ⟨?_, fun symbol => h.planned.mem_symbols⟩
    rw [h.planned.entries]
    exact nodup_symbols_sortEntries _
  · intro e he
    rw [h.entries_eq] at he
    obtain ⟨x, -, f, hf, hkept, hexported, symbol, hsymbol, rfl⟩ := h.planned.of_mem_entries he
    rw [hexported.symbols] at hsymbol
    obtain ⟨hexport, hwants⟩ := List.mem_filter.mp hsymbol
    refine ⟨f, hf, rfl, hkept, hexport, rfl, ?_⟩
    have hany : f.exports.any config.withDefaults.wants = true :=
      List.any_eq_true.mpr ⟨symbol, hexport, hwants⟩
    have hmachine : Entry.isMachine ⟨symbol, entryName symbol, f.type, f.index, x.exit.map (·.id)⟩
        = g.analyze.needsMachine f.index := by
      rw [Entry.isMachine, Option.isSome_map, hexported.exit, hasExit, hany, Bool.true_and]
    rw [hmachine]
    exact CallGraph.needsMachine_iff hp.funcIndex h.graph
  · exact fun fn => CallGraph.inGroup_iff_recursive hsound
  · intro sf hsf s hs
    have hcalls := h.callsKept hp hsf hs
    exact ⟨hcalls, fun fn hfn => h.ne_skipped hcalls hfn⟩
  · exact fun b hb => h.block_kept hb
  · exact fun sf hsf n hn => h.number_kept hp hsf hn

/-- A compiled module has the functions that calls do not lead to something unsupported from,
with their direct forms, machines and entry points, and refers to no other. -/
theorem compile_covers {m : Binary.Module} (hread : Program.ofModule m = .ok p)
    (h : compile config p = .ok out) :
    ∃ g, CallGraph.build p = .ok g ∧ Covers config p g out := by
  have hp := Program.formed_of_ofModule hread
  obtain ⟨unsupported, g, plan, direct, machines, entries, hu, horigin, hskipped, -⟩ :=
    compile_eq_ok hp h
  exact ⟨g, horigin.graph, horigin.covers hp hu hskipped⟩

/-- The theorem at a program with recursion, a question to the host and something that is left
out. -/
theorem compile_covers_mixture : Program.ofModule mixture = .ok mixtureProgram
    ∧ ∃ out, compile lenient mixtureProgram = .ok out ∧ out.skipped.map (·.1) = [1]
      ∧ ∃ g, CallGraph.build mixtureProgram = .ok g ∧ Covers lenient mixtureProgram g out := by
  obtain ⟨out, hout, hskipped⟩ := compile_mixture
  refine ⟨read_mixture, out, hout, ?_, compile_covers read_mixture hout⟩
  rw [hskipped]
  decide +kernel

end Module

end Compile

end WasmShader
