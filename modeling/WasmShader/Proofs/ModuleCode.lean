import WasmShader.Proofs.ModulePlan

/-!
# The code of a planned module

Once a module is planned, its code is emitted without fail. A block leads only to blocks of
its own machine and to first blocks of functions that are kept and need the machine, and all of
these have numbers; every function that is kept has a direct form; and an entry point leads to
a machine or to a direct form.
-/

namespace WasmShader.Compile

open Emit

variable {c : Config} {p : Program} {g : CallGraph} {skipped : List Nat} {plan : Plan}
  {hosts : HostTable}

/-! ## Numbers of blocks -/

theorem lookup_of_nodup {α : Type} {xs : List (Nat × α)} (hnodup : (xs.map (·.1)).Nodup) {k : Nat}
    {v : α} (h : (k, v) ∈ xs) : xs.lookup k = some v := by
  induction xs with
  | nil => cases h
  | cons x xs ih =>
      obtain ⟨key, value⟩ := x
      rw [List.map_cons, List.nodup_cons] at hnodup
      rw [List.lookup_cons]
      rcases List.mem_cons.mp h with heq | hmem
      · cases heq
        rw [beq_self_eq_true]
      · have hne : (k == key) = false := by
          rw [beq_eq_false_iff_ne]
          rintro rfl
          exact hnodup.1 (List.mem_map.mpr ⟨_, hmem, rfl⟩)
        rw [hne]
        exact ih hnodup.2 hmem

theorem mem_machineSet_filter {fn : Nat} :
    (fn ∈ g.analyze.machineSet.filter fun fn => !skipped.contains fn)
      ↔ fn ∈ g.analyze.order ∧ g.analyze.needsMachine fn = true ∧ fn ∉ skipped := by
  rw [List.mem_filter, Analysis.machineSet, List.mem_filter, and_assoc, Bool.not_eq_true',
    ← Bool.not_eq_true, List.contains_iff_mem]

/-- The machine of a function and the numbers of its blocks. -/
structure HasNumbers (plan : Plan) (fr : Frames) (infos : List BlockInfo) : Prop where
  isMachine : IsMachine fr infos
  lookup : plan.ids.lookup fr.machine.func.index = some (infos.map (·.id))

theorem PlanSound.hasNumbers (h : PlanSound c p g skipped plan hosts) (hg : g.Sound) {k : Nat}
    {fr : Frames} (hfr : plan.frames[k]? = some fr) :
    ∃ infos, plan.machines[k]? = some infos ∧ HasNumbers plan fr infos := by
  obtain ⟨infos, hinfos, hmachine⟩ := getElem?_of_forall₂ h.machines hfr
  refine ⟨infos, hinfos, hmachine, lookup_of_nodup ?_ ?_⟩
  · have hkeys : plan.ids.map (·.1) = plan.frames.map (·.machine.func.index) := by
      have hfst := List.map_fst_zip (Nat.le_of_eq h.machines.length_eq)
      calc plan.ids.map (·.1)
          = ((plan.frames.zip plan.machines).map Prod.fst).map (·.machine.func.index) := by
            rw [Plan.ids, List.map_map, List.map_map]
            rfl
        _ = plan.frames.map (·.machine.func.index) := by rw [hfst]
    rw [hkeys, h.frames]
    exact ((CallGraph.nodup_order hg).filter _).filter _
  · refine List.mem_map.mpr ⟨(fr, infos), ?_, rfl⟩
    exact List.mem_of_getElem? (List.getElem?_zip_eq_some.mpr ⟨hfr, hinfos⟩)

theorem HasNumbers.get {fr : Frames} {infos : List BlockInfo} (h : HasNumbers plan fr infos)
    {k : Nat} {i : BlockInfo} (hi : infos[k]? = some i) :
    plan.ids.get fr.machine.func.index k = .ok i.id := by
  rw [BlockNumbers.get, h.lookup, Option.getD_some, entry, List.getElem?_map, hi]
  rfl

theorem HasNumbers.get_isOk {fr : Frames} {infos : List BlockInfo} (h : HasNumbers plan fr infos)
    {k : Nat} {types : List ValueType} (hk : fr.machine.entryTypes? k = some types) :
    (plan.ids.get fr.machine.func.index k).isOk = true := by
  obtain ⟨b, hb, -⟩ := Option.map_eq_some_iff.mp hk
  obtain ⟨i, hi, -⟩ := getElem?_of_forall₂ h.isMachine hb
  rw [h.get hi]
  rfl

/-- A function that is kept and needs the machine starts with a block that has a number. -/
theorem PlanSound.first_isOk (h : PlanSound c p g skipped plan hosts) (hg : g.Sound) {fn : Nat}
    (hfn : fn ∈ g.nodes) (hmachine : g.analyze.needsMachine fn = true) (hkept : fn ∉ skipped) :
    (plan.ids.get fn 0).isOk = true := by
  have hmem : fn ∈ plan.frames.map (·.machine.func.index) := by
    rw [h.frames]
    exact mem_machineSet_filter.mpr ⟨(CallGraph.mem_order hg).mpr hfn, hmachine, hkept⟩
  obtain ⟨fr, hfr, rfl⟩ := List.mem_map.mp hmem
  obtain ⟨k, hk⟩ := List.mem_iff_getElem?.mp hfr
  obtain ⟨infos, -, hnumbers⟩ := h.hasNumbers hg hk
  exact hnumbers.get_isOk (h.built fr hfr).sound.first

/-- The context in which the blocks of a machine are emitted. -/
def Plan.blockContext (plan : Plan) (fr : Frames) : BlockContext :=
  { plan.context with frames := fr, ids := plan.ids }

theorem PlanSound.program_eq (h : PlanSound c p g skipped plan hosts) :
    plan.context.program = p := by rw [h.context]

theorem PlanSound.analysis_eq (h : PlanSound c p g skipped plan hosts) :
    plan.context.analysis = g.analyze := by rw [h.context]

theorem PlanSound.formed (h : PlanSound c p g skipped plan hosts) (hp : p.Formed) :
    plan.context.Formed := by
  rw [h.context]
  exact ⟨hp, rfl⟩

/-- What a block of a machine leads to has numbers. -/
theorem PlanSound.numbered (h : PlanSound c p g skipped plan hosts) (hg : g.Sound) {k : Nat}
    {fr : Frames} (hfr : plan.frames[k]? = some fr) {b : Block} (hb : b ∈ fr.machine.blocks) :
    Numbered (plan.blockContext fr) b.term := by
  obtain ⟨infos, -, hnumbers⟩ := h.hasNumbers hg hfr
  have hbuilt := h.built fr (List.mem_of_getElem? hfr)
  refine ⟨fun i types hi => hnumbers.get_isOk hi, fun fn args results next hterm => ?_⟩
  obtain ⟨⟨hcallee, hkept⟩, hcan⟩ := (hbuilt.sound.leads b hb).call fn args results next hterm
  exact h.first_isOk hg (hg.callees _ hcallee)
    (CallGraph.needsMachine_of_not_canCallDirect hg hcallee hcan) hkept

/-! ## The parts of the module -/

/-- The functions of a module: those for numeric instructions, direct forms, blocks of
machines, exit blocks, `setup` and the dispatcher, and entry points. -/
structure Parts (plan : Plan) (m : Shader.Module) (direct : List Shader.Function)
    (machines : List (List Shader.Function)) (entries : List Shader.Function) : Prop where
  buffers : m.buffers = Emit.buffers
  privates : m.privates = Emit.privates
  functions : m.functions = numericFunctions ++ direct ++ machines.flatten
    ++ (plan.exits.map fun b => exitBlock plan.context.layout b.name b.payload)
    ++ [setupFunction plan.lane, dispatcher (plan.blocks.map fun b => (b.id, b.name))]
    ++ (entries ++ plan.otherEntries)
  entryPoints : m.entryPoints = (entries ++ plan.otherEntries).map fun f =>
    ⟨f.name, f.name, plan.config.workgroup⟩
  isDirect : List.Forall₂ (fun fn sf => ∃ f, plan.context.program.func? fn = some f
    ∧ directFunction plan.context f = .ok sf)
    (plan.context.analysis.order.filter fun fn => !plan.skipped.contains fn) direct
  isMachine : List.Forall₂ (fun fr sfs => List.Forall₂
    (fun b sf => (plan.blockContext fr).blockFunction b = .ok sf) fr.machine.blocks sfs)
    plan.frames machines
  isEntry : List.Forall₂ (fun e sf => plan.entryFunction e = .ok sf) plan.entries entries

theorem exitFunction_eq_ok {b : BlockInfo} (h : AllKnown b.payload) :
    plan.exitFunction b = .ok (exitBlock plan.context.layout b.name b.payload) :=
  bind_eq_of_ok (Layout.requireKnown_eq_ok h)

theorem eq_of_mapM_exitFunction {bs : List BlockInfo} {sfs : List Shader.Function}
    (h : bs.mapM plan.exitFunction = .ok sfs) :
    sfs = bs.map fun b => exitBlock plan.context.layout b.name b.payload := by
  replace h := forall₂_of_mapM h
  induction h with
  | nil => rfl
  | cons hb _ ih =>
      obtain ⟨_, -, hb⟩ := Program.bind_eq_ok hb
      cases hb
      rw [List.map_cons, ih]

/-- A module that is emitted has its parts. -/
theorem parts_of_module {m : Shader.Module} (h : plan.module = .ok m) :
    ∃ direct machines entries, Parts plan m direct machines entries := by
  obtain ⟨direct, hdirect, h⟩ := Program.bind_eq_ok h
  obtain ⟨machines, hmachines, h⟩ := Program.bind_eq_ok h
  obtain ⟨exits, hexits, h⟩ := Program.bind_eq_ok h
  obtain ⟨entries, hentries, h⟩ := Program.bind_eq_ok h
  cases h
  rw [eq_of_mapM_exitFunction hexits]
  refine ⟨direct, machines, entries, rfl, rfl, rfl, rfl, ?_, ?_, forall₂_of_mapM hentries⟩
  · refine (forall₂_of_mapM hdirect).imp fun fn sf hsf => ?_
    obtain ⟨f, hf, hsf⟩ := Program.bind_eq_ok hsf
    refine ⟨f, ?_, hsf⟩
    unfold funcAt at hf
    split at hf
    · next f' hf' => cases hf; exact hf'
    · cases hf
  · exact (forall₂_of_mapM hmachines).imp fun fr sfs hsfs => forall₂_of_mapM hsfs

/-- A function that is kept has a direct form. -/
theorem PlanSound.direct_total (h : PlanSound c p g skipped plan hosts) (hp : p.Formed)
    (hkeeps : Keeps p g skipped) {f : Function} (hf : f ∈ p.funcs) (hkept : f.index ∉ skipped) :
    ∃ sf, directFunction plan.context f = .ok sf := by
  obtain ⟨body, hbody, htyped⟩ := Program.typedSeq_of_check_function
    (hp.body f hf) (hkeeps.checks f hf hkept)
  rw [← h.program_eq] at htyped
  exact directFunction_total (h.formed hp) (hp.funcKnown f hf) hbody (hp.funcLocals f hf) htyped

/-- Where an entry point comes from. -/
theorem PlanSound.of_mem_entries (h : PlanSound c p g skipped plan hosts) {e : Entry}
    (he : e ∈ plan.entries) : ∃ x ∈ plan.exported, ∃ f ∈ p.funcs, f.index ∉ skipped
      ∧ IsExported c g.analyze f x ∧ ∃ symbol ∈ x.symbols,
        e = ⟨symbol, entryName symbol, f.type, f.index, x.exit.map (·.id)⟩ := by
  have hsub (es : List Entry) : ∀ e ∈ es.foldr (fun e later =>
      if later.any (·.symbol == e.symbol) then later else e :: later) [], e ∈ es := by
    induction es with
    | nil => exact fun e he => he
    | cons x es ih =>
        intro e he
        rw [List.foldr_cons] at he
        split at he
        · exact List.mem_cons_of_mem _ (ih e he)
        · rcases List.mem_cons.mp he with rfl | he
          · exact List.mem_cons_self
          · exact List.mem_cons_of_mem _ (ih e he)
  rw [h.entries, sortEntries, List.mem_mergeSort] at he
  obtain ⟨x, hx, he⟩ := List.mem_flatMap.mp (hsub _ e he)
  obtain ⟨k, hk⟩ := List.mem_iff_getElem?.mp hx
  obtain ⟨f, hf, hexported⟩ := getElem?_of_forall₂ h.exported.flip hk
  obtain ⟨hf, hkept⟩ := List.mem_filter.mp (List.mem_of_getElem? hf)
  obtain ⟨symbol, hsymbol, rfl⟩ := List.mem_map.mp he
  refine ⟨x, hx, f, hf, by simpa using hkept, hexported, symbol, hsymbol, ?_⟩
  rw [hexported.func]

theorem mem_nodes_of_mem (hg : CallGraph.build p = .ok g) {f : Function} (hf : f ∈ p.funcs) :
    f.index ∈ g.nodes := by
  rw [CallGraph.nodes, CallGraph.program_of_build hg]
  exact List.mem_map.mpr ⟨f, hf, rfl⟩

/-- The exit blocks are for the results of functions of the program. -/
theorem PlanSound.exit_known (h : PlanSound c p g skipped plan hosts) (hp : p.Formed)
    {b : BlockInfo} (hb : b ∈ plan.exits) : AllKnown b.payload := by
  obtain ⟨x, hx, hexit⟩ := List.mem_filterMap.mp hb
  obtain ⟨k, hk⟩ := List.mem_iff_getElem?.mp hx
  obtain ⟨f, hf, hexported⟩ := getElem?_of_forall₂ h.exported.flip hk
  have hmem := (List.mem_filter.mp (List.mem_of_getElem? hf)).1
  rw [hexported.info b hexit]
  exact (hp.funcKnown f hmem).1.results

/-- The code of a planned module is emitted. -/
theorem PlanSound.module_total (h : PlanSound c p g skipped plan hosts) (hp : p.Formed)
    (hg : CallGraph.build p = .ok g) (hkeeps : Keeps p g skipped) :
    ∃ m, plan.module = .ok m := by
  have hsound := CallGraph.sound_of_build hp hg
  obtain ⟨direct, hdirect, -⟩ : ∃ direct, plan.directFunctions = .ok direct
      ∧ List.Forall₂ (fun _ _ => True)
        (plan.context.analysis.order.filter fun fn => !plan.skipped.contains fn) direct := by
    refine mapM_eq_ok fun fn hfn => ?_
    obtain ⟨horder, hkept⟩ := List.mem_filter.mp hfn
    rw [h.leftOut] at hkept
    rw [h.analysis_eq] at horder
    have hnode := (CallGraph.mem_order hsound).mp horder
    rw [CallGraph.nodes, CallGraph.program_of_build hg] at hnode
    obtain ⟨f, hf, rfl⟩ := List.mem_map.mp hnode
    obtain ⟨sf, hsf⟩ := h.direct_total hp hkeeps hf (by simpa using hkept)
    refine ⟨sf, ?_, trivial⟩
    rw [funcAt, h.program_eq, func?_of_mem hp hf]
    exact hsf
  obtain ⟨machines, hmachines, -⟩ : ∃ machines, plan.frames.mapM plan.machineFunctions = .ok machines
      ∧ List.Forall₂ (fun _ _ => True) plan.frames machines := by
    refine mapM_eq_ok fun fr hfr => ?_
    obtain ⟨k, hk⟩ := List.mem_iff_getElem?.mp hfr
    have hbuilt := h.built fr hfr
    obtain ⟨sfs, hsfs, -⟩ : ∃ sfs, plan.machineFunctions fr = .ok sfs
        ∧ List.Forall₂ (fun _ _ => True) fr.machine.blocks sfs := by
      refine mapM_eq_ok fun b hb => ?_
      obtain ⟨i, hi⟩ := List.mem_iff_getElem?.mp hb
      have htyped := hbuilt.sound.typed b hb
      rw [← h.program_eq, ← h.analysis_eq] at htyped
      have hformed : (plan.blockContext fr).toContext.Formed := h.formed hp
      obtain ⟨sf, hsf⟩ := blockFunction_total hformed hbuilt.fit.formed hi htyped
        (h.numbered hsound hk hb) (hp.funcKnown _ hbuilt.func).2
      exact ⟨sf, hsf, trivial⟩
    exact ⟨sfs, hsfs, trivial⟩
  obtain ⟨entries, hentries, -⟩ : ∃ entries, plan.entries.mapM plan.entryFunction = .ok entries
      ∧ List.Forall₂ (fun _ _ => True) plan.entries entries := by
    refine mapM_eq_ok fun e he => ?_
    obtain ⟨x, -, f, hf, hkept, hx, symbol, -, rfl⟩ := h.of_mem_entries he
    obtain ⟨hknown, -⟩ := hp.funcKnown f hf
    unfold Plan.entryFunction
    rw [bind_eq_of_ok (Layout.requireKnown_eq_ok (hknown.params.append hknown.results))]
    cases hexit : x.exit with
    | none => exact ⟨_, rfl, trivial⟩
    | some i =>
        have hneeds : hasExit c g.analyze f = true := by rw [← hx.exit, hexit]; rfl
        have hok := h.first_isOk hsound (mem_nodes_of_mem hg hf)
          (Bool.and_eq_true_iff.mp hneeds).2 hkept
        refine ⟨_, bind_eq_of_ok (eq_ok_of_isOk hok), trivial⟩
  obtain ⟨exits, hexits, -⟩ : ∃ exits, plan.exits.mapM plan.exitFunction = .ok exits
      ∧ List.Forall₂ (fun _ _ => True) plan.exits exits :=
    mapM_eq_ok fun b hb => ⟨_, exitFunction_eq_ok (h.exit_known hp hb), trivial⟩
  exact ⟨_, (bind_eq_of_ok hdirect).trans ((bind_eq_of_ok hmachines).trans
    ((bind_eq_of_ok hexits).trans (bind_eq_of_ok hentries)))⟩

end WasmShader.Compile
