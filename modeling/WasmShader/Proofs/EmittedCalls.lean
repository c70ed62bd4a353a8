import WasmShader.Proofs.LaneCode
import WasmShader.Proofs.LegalModule
import WasmShader.Proofs.ModuleCode

/-!
# Calls in emitted modules

Emission puts every function behind what it calls. Direct forms stand in the order of the
analysis, and call only direct forms of lower rank; blocks call direct forms; the dispatcher
calls blocks; entry points call the dispatcher or a direct form. So the module is legal whatever
the recursion in the program, provided that the exports that get entry points are given
different names.
-/

namespace WasmShader

open Shader (CallSite CallsEarlier)

namespace Compile

open Emit

variable {c : Config} {p : Program} {g : CallGraph} {skipped : List Nat} {plan : Plan}
  {hosts : HostTable}

/-! ## Calls of direct forms and blocks -/

/-- The calls that the code of a function may have: sums and differences of pairs, and direct
forms that come before it. -/
inductive DirectCall (p : Program) (g : CallGraph) (skipped : List Nat) (fn : Nat) :
    CallSite → Prop
  | add : DirectCall p g skipped fn ⟨i64Add, 2, 1⟩
  | sub : DirectCall p g skipped fn ⟨i64Sub, 2, 1⟩
  | direct {f : Function} : f ∈ p.funcs → f.index ∉ skipped →
      g.analyze.canCallDirect fn f.index = true →
      DirectCall p g skipped fn
        ⟨directName f.index, f.type.params.length, f.type.results.length⟩

theorem callable_of_leadsTo (hp : p.Formed) (hg : CallGraph.build p = .ok g) {ctx : Context}
    (hprogram : ctx.program = p) (hanalysis : ctx.analysis = g.analyze) {f : Function}
    {instrs : List Instr}
    (h : ∀ i ∈ instrs, ∀ target : UInt32, i.operation = .call → i.imm = .call target →
      p.isImport target.toNat = false → LeadsTo g skipped f.index target.toNat) :
    Callable ctx f (DirectCall p g skipped f.index) instrs := by
  refine ⟨.add, .sub, fun i hi target hop himm himport hcan => ?_⟩
  rw [hprogram] at himport
  rw [hanalysis] at hcan
  obtain ⟨hcallee, hkept⟩ := h i hi target hop himm himport
  have hnode := (CallGraph.sound_of_build hp hg).callees _ hcallee
  rw [CallGraph.nodes, CallGraph.program_of_build hg] at hnode
  obtain ⟨f', hf', hindex⟩ := List.mem_map.mp hnode
  rw [← hindex] at himport hkept hcan ⊢
  have hsig : ctx.program.signature? f'.index = some f'.type := by
    rw [hprogram, Program.signature?, himport, if_neg Bool.false_ne_true, func?_of_mem hp hf']
    rfl
  dsimp only
  rw [hsig, Option.getD_some]
  exact .direct hf' hkept hcan

theorem name_of_directFunction {ctx : Context} {f : Function} {sf : Shader.Function}
    (h : directFunction ctx f = .ok sf) : sf.name = directName f.index
      ∧ sf.params.length = f.type.params.length ∧ sf.results.length = f.type.results.length := by
  obtain ⟨body, code, es, -, -, rfl⟩ := body_of_directFunction h
  exact ⟨rfl, List.length_mapIdx .., List.length_map ..⟩

theorem name_of_blockFunction {bc : BlockContext} {b : Block} {sf : Shader.Function}
    (h : bc.blockFunction b = .ok sf) : ∃ id, bc.blockId b.index = .ok id
      ∧ sf.name = blockName id ∧ sf.params = [] ∧ sf.results = [] := by
  obtain ⟨r, -, h⟩ := Program.bind_eq_ok h
  obtain ⟨id, hid, h⟩ := Program.bind_eq_ok h
  cases h
  exact ⟨id, hid, rfl, rfl, rfl⟩

/-- The code of the direct form of a function that is kept. -/
theorem PlanSound.direct_lawful (h : PlanSound c p g skipped plan hosts) (hp : p.Formed)
    (hg : CallGraph.build p = .ok g) (hkeeps : Keeps p g skipped) {f : Function}
    (hf : f ∈ p.funcs) (hkept : f.index ∉ skipped) {sf : Shader.Function}
    (hsf : directFunction plan.context f = .ok sf) :
    sf.Lawful (DirectCall p g skipped f.index) (· = globalsBuffer) :=
  directFunction_lawful hsf (fun _ hbody =>
    callable_of_leadsTo hp hg h.program_eq h.analysis_eq fun _ hi _ hop himm himport =>
      hkeeps.leadsTo hp hg hf hkept hbody hi hop himm himport) rfl

/-- The code of a block of a machine. -/
theorem PlanSound.block_lawful (h : PlanSound c p g skipped plan hosts) (hp : p.Formed)
    (hg : CallGraph.build p = .ok g) {fr : Frames} (hfr : fr ∈ plan.frames) {b : Block}
    (hb : b ∈ fr.machine.blocks) {sf : Shader.Function}
    (hsf : (plan.blockContext fr).blockFunction b = .ok sf) :
    sf.Lawful (DirectCall p g skipped fr.machine.func.index) fun _ => True :=
  blockFunction_lawful hsf (callable_of_leadsTo hp hg h.program_eq h.analysis_eq
    fun i hi target hop himm _ =>
      ((((h.built fr hfr).sound.typed b hb).direct i hi).call target hop himm).2.2) trivial trivial

/-! ## The order of direct forms -/

/-- Entries that are kept of a list stand as they do in the list. -/
theorem mem_pre_of_idxOf_lt {order : List Nat} (hnodup : order.Nodup) {keep : Nat → Bool}
    {pre post : List Nat} {x y : Nat} (hsplit : order.filter keep = pre ++ y :: post)
    (hx : x ∈ order.filter keep) (hlt : order.idxOf x < order.idxOf y) : x ∈ pre := by
  have hpairwise : order.Pairwise fun a b => order.idxOf a < order.idxOf b := by
    refine List.pairwise_iff_getElem.mpr fun i j hi hj hij => ?_
    rw [hnodup.idxOf_getElem, hnodup.idxOf_getElem]
    exact hij
  have hsub := hpairwise.filter keep
  rw [hsplit, List.pairwise_append, List.pairwise_cons] at hsub
  rw [hsplit] at hx
  rcases List.mem_append.mp hx with hx | hx
  · exact hx
  · rcases List.mem_cons.mp hx with rfl | hx
    · exact absurd hlt (Nat.lt_irrefl _)
    · exact absurd (hsub.2.1.1 x hx) (Nat.lt_asymm hlt)

theorem forall₂_split_right {α β : Type} {R : α → β → Prop} {xs : List α} {pre post : List β}
    {y : β} (h : List.Forall₂ R xs (pre ++ y :: post)) :
    ∃ xpre x xpost, xs = xpre ++ x :: xpost ∧ List.Forall₂ R xpre pre ∧ R x y := by
  induction pre generalizing xs with
  | nil =>
      cases h with
      | cons hxy _ => exact ⟨[], _, _, rfl, .nil, hxy⟩
  | cons z pre ih =>
      cases h with
      | cons hz hrest =>
          obtain ⟨xpre, x, xpost, rfl, hpre, hxy⟩ := ih hrest
          exact ⟨_ :: xpre, x, xpost, rfl, .cons hz hpre, hxy⟩

theorem exists_of_forall₂_left {α β : Type} {R : α → β → Prop} {xs : List α} {ys : List β}
    (h : List.Forall₂ R xs ys) {x : α} (hx : x ∈ xs) : ∃ y ∈ ys, R x y := by
  obtain ⟨k, hk⟩ := List.mem_iff_getElem?.mp hx
  obtain ⟨y, hy, hR⟩ := getElem?_of_forall₂ h hk
  exact ⟨y, List.mem_of_getElem? hy, hR⟩

section Parts

variable {m : Shader.Module} {direct : List Shader.Function}
  {machines : List (List Shader.Function)} {entries : List Shader.Function}

theorem serves_add : ∃ t ∈ numericFunctions, t.Serves ⟨i64Add, 2, 1⟩ :=
  ⟨i64AddFunction, List.mem_cons_self, rfl, rfl, rfl⟩

theorem serves_sub : ∃ t ∈ numericFunctions, t.Serves ⟨i64Sub, 2, 1⟩ :=
  ⟨i64SubFunction, List.mem_cons_of_mem _ List.mem_cons_self, rfl, rfl, rfl⟩

/-- The functions that have direct forms, in order. -/
theorem mem_kept_order (hp : p.Formed) (hg : CallGraph.build p = .ok g) {fn : Nat} :
    (fn ∈ g.analyze.order.filter fun fn => !skipped.contains fn)
      ↔ ∃ f ∈ p.funcs, f.index = fn ∧ fn ∉ skipped := by
  rw [List.mem_filter, CallGraph.mem_order (CallGraph.sound_of_build hp hg), CallGraph.nodes,
    CallGraph.program_of_build hg, List.mem_map, Bool.not_eq_true', ← Bool.not_eq_true,
    List.contains_iff_mem]
  constructor
  · rintro ⟨⟨f, hf, hindex⟩, hkept⟩
    exact ⟨f, hf, hindex, hkept⟩
  · rintro ⟨f, hf, hindex, hkept⟩
    exact ⟨⟨f, hf, hindex⟩, hkept⟩

theorem Parts.directs (hparts : Parts plan m direct machines entries)
    (h : PlanSound c p g skipped plan hosts) (hp : p.Formed) (hg : CallGraph.build p = .ok g) :
    List.Forall₂ (fun fn sf => ∃ f ∈ p.funcs, f.index = fn ∧ fn ∉ skipped
      ∧ directFunction plan.context f = .ok sf)
      (g.analyze.order.filter fun fn => !skipped.contains fn) direct := by
  have hdirect := hparts.isDirect
  rw [h.analysis_eq, h.leftOut, h.program_eq] at hdirect
  refine List.forall₂_iff_zip.mpr ⟨hdirect.length_eq, fun {fn sf} hmem => ?_⟩
  obtain ⟨f, hf, hsf⟩ := (List.forall₂_iff_zip.mp hdirect).2 hmem
  obtain ⟨-, -, -, hkept⟩ := (mem_kept_order hp hg).mp (List.of_mem_zip hmem).1
  exact ⟨f, mem_of_func? hf, index_of_func? hp hf, hkept, hsf⟩

/-- A function that is kept can be called by the name of its direct form. -/
theorem Parts.serves_direct (hparts : Parts plan m direct machines entries)
    (h : PlanSound c p g skipped plan hosts) (hp : p.Formed) (hg : CallGraph.build p = .ok g)
    {f : Function} (hf : f ∈ p.funcs) (hkept : f.index ∉ skipped) :
    ∃ sf ∈ direct,
      sf.Serves ⟨directName f.index, f.type.params.length, f.type.results.length⟩ := by
  obtain ⟨sf, hsf, f', hf', hindex, -, hdirect⟩ := exists_of_forall₂_left
    (hparts.directs h hp hg) ((mem_kept_order hp hg).mpr ⟨f, hf, rfl, hkept⟩)
  obtain rfl : f' = f := by
    have hfind := func?_of_mem hp hf'
    rw [hindex, func?_of_mem hp hf] at hfind
    exact (Option.some.inj hfind).symm
  obtain ⟨hname, hparams, hresults⟩ := name_of_directFunction hdirect
  exact ⟨sf, hsf, hname, hparams.symm, hresults.symm⟩

/-- A direct form stands behind those that it calls. -/
theorem Parts.direct_callsEarlier (hparts : Parts plan m direct machines entries)
    (h : PlanSound c p g skipped plan hosts) (hp : p.Formed) (hg : CallGraph.build p = .ok g)
    (hkeeps : Keeps p g skipped) : CallsEarlier numericFunctions direct := by
  have hsound := CallGraph.sound_of_build hp hg
  rintro pre sf post rfl s hs
  obtain ⟨fns, fn, rest, hsplit, hpre, f, hf, rfl, hkept, hsf⟩ :=
    forall₂_split_right (hparts.directs h hp hg)
  have hcall := (h.direct_lawful hp hg hkeeps hf hkept hsf).body.calls s hs
  cases hcall with
  | add => exact serves_add.imp fun t ht => ⟨List.mem_append_left _ ht.1, ht.2⟩
  | sub => exact serves_sub.imp fun t ht => ⟨List.mem_append_left _ ht.1, ht.2⟩
  | @direct f' hf' hkept' hcan =>
      have horder {f : Function} (hf : f ∈ p.funcs) : f.index ∈ g.analyze.order :=
        (CallGraph.mem_order hsound).mpr (mem_nodes_of_mem hg hf)
      have hlt : g.analyze.order.idxOf f'.index < g.analyze.order.idxOf f.index := by
        rw [Analysis.canCallDirect, Bool.and_eq_true, decide_eq_true_eq,
          CallGraph.rank_eq_idxOf (horder hf'), CallGraph.rank_eq_idxOf (horder hf)] at hcan
        exact Int.ofNat_lt.mp hcan.2
      have hmem := mem_pre_of_idxOf_lt (CallGraph.nodup_order hsound) hsplit
        ((mem_kept_order hp hg).mpr ⟨f', hf', rfl, hkept'⟩) hlt
      obtain ⟨sf', hsf', f'', hf'', hindex, -, hdirect⟩ := exists_of_forall₂_left hpre hmem
      obtain rfl : f'' = f' := by
        have hfind := func?_of_mem hp hf''
        rw [hindex, func?_of_mem hp hf'] at hfind
        exact (Option.some.inj hfind).symm
      obtain ⟨hname, hparams, hresults⟩ := name_of_directFunction hdirect
      exact ⟨sf', List.mem_append_right _ hsf', hname, hparams.symm, hresults.symm⟩

/-- What the code of a function that is kept calls is there. -/
theorem Parts.serves_of_directCall (hparts : Parts plan m direct machines entries)
    (h : PlanSound c p g skipped plan hosts) (hp : p.Formed) (hg : CallGraph.build p = .ok g)
    {fn : Nat} {s : CallSite} (hs : DirectCall p g skipped fn s) :
    ∃ t ∈ numericFunctions ++ direct, t.Serves s := by
  cases hs with
  | add => exact serves_add.imp fun t ht => ⟨List.mem_append_left _ ht.1, ht.2⟩
  | sub => exact serves_sub.imp fun t ht => ⟨List.mem_append_left _ ht.1, ht.2⟩
  | direct hf hkept _ =>
      obtain ⟨sf, hsf, hserves⟩ := hparts.serves_direct h hp hg hf hkept
      exact ⟨sf, List.mem_append_right _ hsf, hserves⟩

/-! ## Blocks -/

/-- The function of a block has the name that is recorded. -/
theorem PlanSound.name_eq (h : PlanSound c p g skipped plan hosts) (hg : g.Sound) {k i : Nat}
    {fr : Frames} (hfr : plan.frames[k]? = some fr) {infos : List BlockInfo}
    (hinfos : plan.machines[k]? = some infos) {b : Block} (hb : fr.machine.blocks[i]? = some b)
    {sf : Shader.Function} (hsf : (plan.blockContext fr).blockFunction b = .ok sf) :
    ∃ info, infos[i]? = some info ∧ info = blockInfo fr b info.id ∧ sf.name = info.name := by
  obtain ⟨infos', hinfos', hnumbers⟩ := h.hasNumbers hg hfr
  rw [hinfos] at hinfos'
  cases hinfos'
  have hfit := (h.built fr (List.mem_of_getElem? hfr)).fit
  obtain ⟨info, hinfo, heq⟩ := getElem?_of_forall₂ hnumbers.isMachine hb
  obtain ⟨id, hid, hname, -⟩ := name_of_blockFunction hsf
  have hget : plan.ids.get fr.machine.func.index i = .ok id := by
    rw [← hfit.formed.index i b hb]
    exact hid
  rw [hnumbers.get hinfo] at hget
  cases hget
  refine ⟨info, hinfo, heq, ?_⟩
  rw [hname, heq]
  rfl

/-- The functions of the blocks have the names that are recorded. -/
theorem Parts.names_machines (hparts : Parts plan m direct machines entries)
    (h : PlanSound c p g skipped plan hosts) (hg : g.Sound) :
    machines.map (·.map (·.name)) = plan.machines.map (·.map (·.name)) := by
  refine List.ext_getElem? fun k => ?_
  rw [List.getElem?_map, List.getElem?_map]
  cases hk : plan.frames[k]? with
  | none =>
      have hlen := List.getElem?_eq_none_iff.mp hk
      rw [List.getElem?_eq_none (hparts.isMachine.length_eq ▸ hlen),
        List.getElem?_eq_none (h.machines.length_eq ▸ hlen)]
      rfl
  | some fr =>
      obtain ⟨sfs, hsfs, hblocks⟩ := getElem?_of_forall₂ hparts.isMachine hk
      obtain ⟨infos, hinfos, hnumbers⟩ := h.hasNumbers hg hk
      rw [hsfs, hinfos, Option.map_some, Option.map_some, Option.some.injEq]
      refine List.ext_getElem? fun i => ?_
      rw [List.getElem?_map, List.getElem?_map]
      cases hi : fr.machine.blocks[i]? with
      | none =>
          have hlen := List.getElem?_eq_none_iff.mp hi
          rw [List.getElem?_eq_none (hblocks.length_eq ▸ hlen),
            List.getElem?_eq_none (hnumbers.isMachine.length_eq ▸ hlen)]
          rfl
      | some b =>
          obtain ⟨sf, hsf, hfunction⟩ := getElem?_of_forall₂ hblocks hi
          obtain ⟨info, hinfo, -, hname⟩ := h.name_eq hg hk hinfos hi hfunction
          rw [hsf, hinfo, Option.map_some, Option.map_some, hname]

/-- The function of a block that is recorded. -/
theorem Parts.of_mem_machines (hparts : Parts plan m direct machines entries)
    (h : PlanSound c p g skipped plan hosts) (hg : g.Sound) {b : BlockInfo}
    (hb : b ∈ plan.machines.flatten) : ∃ sf ∈ machines.flatten, sf.name = b.name
      ∧ ∃ fr ∈ plan.frames, ∃ block ∈ fr.machine.blocks, b = blockInfo fr block b.id
        ∧ (plan.blockContext fr).blockFunction block = .ok sf := by
  obtain ⟨infos, hinfos, hb⟩ := List.mem_flatten.mp hb
  obtain ⟨k, hk⟩ := List.mem_iff_getElem?.mp hinfos
  obtain ⟨fr, hfr, hmachine⟩ := getElem?_of_forall₂ h.machines.flip hk
  obtain ⟨i, hi⟩ := List.mem_iff_getElem?.mp hb
  obtain ⟨block, hblock, -⟩ := getElem?_of_forall₂ hmachine.flip hi
  obtain ⟨sfs, hsfs, hblocks⟩ := getElem?_of_forall₂ hparts.isMachine hfr
  obtain ⟨sf, hsf, hfunction⟩ := getElem?_of_forall₂ hblocks hblock
  obtain ⟨info, hinfo, heq, hname⟩ := h.name_eq hg hfr hk hblock hfunction
  rw [hi] at hinfo
  cases hinfo
  exact ⟨sf, List.mem_flatten.mpr ⟨sfs, List.mem_of_getElem? hsfs, List.mem_of_getElem? hsf⟩,
    hname, fr, List.mem_of_getElem? hfr, block, List.mem_of_getElem? hblock, heq, hfunction⟩

theorem mem_machines_serves (hparts : Parts plan m direct machines entries)
    {sf : Shader.Function} (hsf : sf ∈ machines.flatten) :
    sf.params = [] ∧ sf.results = [] ∧ ∃ fr ∈ plan.frames, ∃ b ∈ fr.machine.blocks,
      (plan.blockContext fr).blockFunction b = .ok sf := by
  obtain ⟨sfs, hsfs, hsf⟩ := List.mem_flatten.mp hsf
  obtain ⟨fr, hfr, hblocks⟩ := exists_of_forall₂_left hparts.isMachine.flip hsfs
  obtain ⟨b, hb, hfunction⟩ := exists_of_forall₂_left hblocks.flip hsf
  obtain ⟨id, -, -, hparams, hresults⟩ := name_of_blockFunction hfunction
  exact ⟨hparams, hresults, fr, hfr, b, hb, hfunction⟩

/-- Every block that is recorded has a function without parameters and results. -/
theorem Parts.serves_block (hparts : Parts plan m direct machines entries)
    (h : PlanSound c p g skipped plan hosts) (hg : g.Sound) {b : BlockInfo}
    (hb : b ∈ plan.blocks) : ∃ t ∈ machines.flatten
      ++ (plan.exits.map fun b => exitBlock plan.context.layout b.name b.payload),
      t.Serves ⟨b.name, 0, 0⟩ := by
  rcases List.mem_append.mp hb with hb | hb
  · obtain ⟨sf, hsf, hname, -⟩ := hparts.of_mem_machines h hg hb
    obtain ⟨hparams, hresults, -⟩ := mem_machines_serves hparts hsf
    exact ⟨sf, List.mem_append_left _ hsf, hname, by rw [hparams]; rfl, by rw [hresults]; rfl⟩
  · exact ⟨_, List.mem_append_right _ (List.mem_map.mpr ⟨b, hb, rfl⟩), rfl, rfl, rfl⟩

/-! ## Entry points -/

/-- The calls that an entry point may have. -/
inductive EntryCall (p : Program) (skipped : List Nat) : CallSite → Prop
  | setup : EntryCall p skipped ⟨setupName, 0, 0⟩
  | dispatcher : EntryCall p skipped ⟨dispatcherName, 0, 0⟩
  | direct {f : Function} : f ∈ p.funcs → f.index ∉ skipped →
      EntryCall p skipped ⟨directName f.index, f.type.params.length, f.type.results.length⟩

/-- The entry point for an export. -/
structure IsEntry (p : Program) (skipped : List Nat) (name : String) (sf : Shader.Function) :
    Prop where
  name : sf.name = name
  params : sf.params = []
  results : sf.results = []
  starts : StartsLawful (EntryCall p skipped) (fun _ => True) sf

theorem PlanSound.isEntry (h : PlanSound c p g skipped plan hosts) {e : Entry}
    (he : e ∈ plan.entries) {sf : Shader.Function} (hsf : plan.entryFunction e = .ok sf) :
    IsEntry p skipped e.shader sf := by
  obtain ⟨x, -, f, hf, hkept, -, symbol, -, rfl⟩ := h.of_mem_entries he
  obtain ⟨_, -, hsf⟩ := Program.bind_eq_ok hsf
  dsimp only at hsf
  cases hexit : x.exit with
  | none =>
      rw [hexit] at hsf
      cases hsf
      exact ⟨rfl, rfl, rfl, directEntry_starts _ _ _ _ (.direct hf hkept) trivial trivial⟩
  | some i =>
      rw [hexit] at hsf
      obtain ⟨first, -, hsf⟩ := Program.bind_eq_ok hsf
      cases hsf
      exact ⟨rfl, rfl, rfl, machineEntry_starts _ _ _ _ _ _ .dispatcher trivial⟩

theorem mem_otherEntries {sf : Shader.Function} (h : sf ∈ plan.otherEntries) :
    sf = resumeEntry ∨ sf = emptyEntry := by
  unfold Plan.otherEntries at h
  split at h
  · exact .inl (List.mem_singleton.mp h)
  · split at h
    · exact .inr (List.mem_singleton.mp h)
    · cases h

/-- What stands behind the dispatcher: functions without parameters and results that call
`setup`, the dispatcher or a direct form. -/
theorem Parts.mem_entries (hparts : Parts plan m direct machines entries)
    (h : PlanSound c p g skipped plan hosts) {sf : Shader.Function}
    (hsf : sf ∈ entries ++ plan.otherEntries) :
    sf.params = [] ∧ sf.results = [] ∧ sf.Lawful (EntryCall p skipped) fun _ => True := by
  rcases List.mem_append.mp hsf with hsf | hsf
  · obtain ⟨e, he, hentry⟩ := exists_of_forall₂_left hparts.isEntry.flip hsf
    have hentry := h.isEntry he hentry
    exact ⟨hentry.params, hentry.results, hentry.starts.lawful .setup⟩
  · rcases mem_otherEntries hsf with rfl | rfl
    · exact ⟨rfl, rfl, (resumeEntry_starts .dispatcher).lawful .setup⟩
    · exact ⟨rfl, rfl, emptyEntry_lawful⟩

/-! ## All calls -/

theorem calls_numericFunctions : ∀ f ∈ numericFunctions, f.calls = [] := by
  refine List.forall_mem_cons.mpr ⟨?_, List.forall_mem_singleton.mpr ?_⟩
  · simp [i64AddFunction, Shader.Function.calls, Shader.stmtsCalls, Shader.Stmt.calls]
  · simp [i64SubFunction, Shader.Function.calls, Shader.stmtsCalls, Shader.Stmt.calls]

theorem calls_setupFunction (w : LaneWords) : (setupFunction w).calls = [] := by
  simp [setupFunction, Shader.Function.calls, Shader.stmtsCalls, Shader.Stmt.calls]

theorem Parts.callsEarlier (hparts : Parts plan m direct machines entries)
    (h : PlanSound c p g skipped plan hosts) (hp : p.Formed) (hg : CallGraph.build p = .ok g)
    (hkeeps : Keeps p g skipped) : CallsEarlier [] m.functions := by
  have hsound := CallGraph.sound_of_build hp hg
  have hnumeric : CallsEarlier [] numericFunctions :=
    Shader.callsEarlier_of_forall fun f hf s hs => by
      rw [calls_numericFunctions f hf] at hs
      cases hs
  have hdirect := hparts.direct_callsEarlier h hp hg hkeeps
  have hmachines : CallsEarlier (numericFunctions ++ direct) machines.flatten := by
    refine Shader.callsEarlier_of_forall fun sf hsf s hs => ?_
    obtain ⟨-, -, fr, hfr, b, hb, hfunction⟩ := mem_machines_serves hparts hsf
    exact hparts.serves_of_directCall h hp hg
      ((h.block_lawful hp hg hfr hb hfunction).body.calls s hs)
  have hexits : CallsEarlier (numericFunctions ++ direct ++ machines.flatten)
      (plan.exits.map fun b => exitBlock plan.context.layout b.name b.payload) := by
    refine Shader.callsEarlier_of_forall fun sf hsf s hs => ?_
    obtain ⟨b, -, rfl⟩ := List.mem_map.mp hsf
    exact ((exitBlock_lawful (P := fun _ => False) (W := fun _ => True) trivial trivial _ _ _).body.calls s hs).elim
  have hfixed : CallsEarlier (numericFunctions ++ direct ++ machines.flatten
      ++ (plan.exits.map fun b => exitBlock plan.context.layout b.name b.payload))
      [setupFunction plan.lane, dispatcher (plan.blocks.map fun b => (b.id, b.name))] := by
    refine Shader.callsEarlier_of_forall (List.forall_mem_cons.mpr ⟨fun s hs => ?_,
      List.forall_mem_singleton.mpr fun s hs => ?_⟩)
    · rw [calls_setupFunction] at hs
      cases hs
    · have hcalls : ∃ b ∈ plan.blocks, s = ⟨b.name, 0, 0⟩ := by
        refine (dispatcher_lawful (P := fun s => ∃ b ∈ plan.blocks, s = ⟨b.name, 0, 0⟩)
          (W := fun _ => True) fun x hx => ?_).body.calls s hs
        obtain ⟨b, hb, rfl⟩ := List.mem_map.mp hx
        exact ⟨b, hb, rfl⟩
      obtain ⟨b, hb, rfl⟩ := hcalls
      obtain ⟨t, ht, hserves⟩ := hparts.serves_block h hsound hb
      rw [List.append_assoc (numericFunctions ++ direct)]
      exact ⟨t, List.mem_append_right _ ht, hserves⟩
  have hentries : CallsEarlier (numericFunctions ++ direct ++ machines.flatten
      ++ (plan.exits.map fun b => exitBlock plan.context.layout b.name b.payload)
      ++ [setupFunction plan.lane, dispatcher (plan.blocks.map fun b => (b.id, b.name))])
      (entries ++ plan.otherEntries) := by
    refine Shader.callsEarlier_of_forall fun sf hsf s hs => ?_
    have hcall := (hparts.mem_entries h hsf).2.2.body.calls s hs
    cases hcall with
    | setup => exact ⟨setupFunction plan.lane, by simp, rfl, rfl, rfl⟩
    | dispatcher => exact ⟨dispatcher (plan.blocks.map fun b => (b.id, b.name)), by simp, rfl, rfl, rfl⟩
    | direct hf hkept =>
        obtain ⟨t, ht, hserves⟩ := hparts.serves_direct h hp hg hf hkept
        exact ⟨t, by simp [ht], hserves⟩
  rw [hparts.functions]
  exact ((((hnumeric.append hdirect).append hmachines).append hexits).append hfixed).append hentries

/-! ## Names -/

/-- How the name of a function starts, by which its kind is told. -/
def stem (name : String) : List Char :=
  if name.toList.head? = some 'b' then name.toList.take 2 else name.toList.take 1

/-- Names of different kinds are different. -/
theorem nodup_of_stems {groups : List (List String)} {stems : List (List Char)}
    (h : List.Forall₂ (fun names s => names.Nodup ∧ ∀ n ∈ names, stem n = s) groups stems)
    (hstems : stems.Nodup) : groups.flatten.Nodup := by
  induction h with
  | nil => exact .nil
  | @cons names s groups stems hnames hrest ih =>
      rw [List.nodup_cons] at hstems
      rw [List.flatten_cons, List.nodup_append]
      refine ⟨hnames.1, ih hstems.2, ?_⟩
      rintro n hn n' hn' rfl
      obtain ⟨names', hnames', hmem⟩ := List.mem_flatten.mp hn'
      obtain ⟨s', hs', hall⟩ := exists_of_forall₂_left hrest hnames'
      have heq : s' = s := (hall.2 n hmem).symm.trans (hnames.2 n hn)
      exact hstems.1 (heq ▸ hs')

theorem stem_directName (fn : Nat) : stem (directName fn) = ['f'] := by
  simp [stem, directName, String.toList_append]

theorem directName_inj {i j : Nat} (h : directName i = directName j) : i = j := by
  have hlist := congrArg String.toList h
  simp only [directName, String.toList_append, List.append_assoc] at hlist
  exact toString_inj (List.append_cancel_right (List.append_cancel_left hlist))

theorem stem_blockName (id : BlockId) : stem (blockName id) = ['b', 'l'] := by
  simp [stem, blockName, String.toList_append]

theorem blockName_inj {a b : BlockId} (h : blockName a = blockName b) : a = b := by
  have hlist := congrArg String.toList h
  simp only [blockName, String.toList_append] at hlist
  have hval := UInt32.toNat_inj.mp (toString_inj (List.append_cancel_left hlist))
  cases a
  cases b
  exact congrArg BlockId.mk hval

theorem stem_entryName (symbol : Symbol) : stem (entryName symbol) = ['e'] := by
  simp [stem, entryName, String.toList_append]

theorem nodup_numbersFrom {n : Nat} (hn : n ≤ BlockId.maxBlocks) : (numbersFrom 0 n).Nodup := by
  refine List.Nodup.map_on ?_ List.nodup_range'
  intro a ha b hb hab
  have ha := List.mem_range'_1.mp ha
  have hb := List.mem_range'_1.mp hb
  have hval : a.toUInt32 = b.toUInt32 := congrArg BlockId.val hab
  have hmax : BlockId.maxBlocks < UInt32.size := by decide
  have ha' : a.toUInt32.toNat = a := UInt32.toNat_ofNat_of_lt (by omega)
  have hb' : b.toUInt32.toNat = b := UInt32.toNat_ofNat_of_lt (by omega)
  rw [← ha', ← hb', hval]

theorem PlanSound.name_of_mem_blocks (h : PlanSound c p g skipped plan hosts) {b : BlockInfo}
    (hb : b ∈ plan.blocks) : b.name = blockName b.id := by
  rcases List.mem_append.mp hb with hb | hb
  · obtain ⟨infos, hinfos, hb⟩ := List.mem_flatten.mp hb
    obtain ⟨fr, -, hmachine⟩ := exists_of_forall₂_left h.machines.flip hinfos
    obtain ⟨block, -, hinfo⟩ := exists_of_forall₂_left hmachine.flip hb
    rw [hinfo]
    rfl
  · obtain ⟨x, hx, hexit⟩ := List.mem_filterMap.mp hb
    obtain ⟨f, -, hexported⟩ := exists_of_forall₂_left h.exported.flip hx
    rw [hexported.info b hexit]
    rfl

theorem PlanSound.nodup_blocks (h : PlanSound c p g skipped plan hosts) :
    (plan.blocks.map (·.id)).Nodup ∧ (plan.blocks.map (·.name)).Nodup := by
  obtain ⟨n, hn, hids⟩ := h.ids
  have hnodup := nodup_numbersFrom (Nat.le_trans hn (clamp_le _))
  rw [← hids] at hnodup
  refine ⟨hnodup, ?_⟩
  have hnames : plan.blocks.map (·.name) = (plan.blocks.map (·.id)).map blockName := by
    rw [List.map_map]
    exact List.map_congr_left fun b hb => h.name_of_mem_blocks hb
  rw [hnames]
  exact hnodup.map fun _ _ => blockName_inj

/-- The exports that get entry points are given different names. -/
def NamesDiffer (c : Config) (p : Program) : Prop :=
  ∀ f ∈ p.funcs, ∀ f' ∈ p.funcs, ∀ s ∈ f.exports, ∀ s' ∈ f'.exports, c.wants s = true →
    c.wants s' = true → entryName s = entryName s' → s = s'

theorem nodup_symbols_sortEntries (es : List Entry) :
    ((sortEntries es).map (·.symbol)).Nodup := by
  have hfold (es : List Entry) : ((es.foldr (fun e later =>
      if later.any (·.symbol == e.symbol) then later else e :: later) []).map (·.symbol)).Nodup := by
    induction es with
    | nil => exact .nil
    | cons e es ih =>
        rw [List.foldr_cons]
        split
        · exact ih
        · next hnone =>
          refine List.nodup_cons.mpr ⟨fun hmem => hnone ?_, ih⟩
          obtain ⟨e', he', heq⟩ := List.mem_map.mp hmem
          exact List.any_eq_true.mpr ⟨e', he', beq_iff_eq.mpr heq⟩
  exact ((List.mergeSort_perm ..).map _).nodup_iff.mpr (hfold es)

theorem PlanSound.nodup_shaders (h : PlanSound c p g skipped plan hosts) (hnames : NamesDiffer c p) :
    (plan.entries.map (·.shader)).Nodup := by
  have hsymbols := nodup_symbols_sortEntries (plan.exported.flatMap Exported.entries)
  rw [← h.entries] at hsymbols
  refine List.Nodup.map_on (fun e he e' he' hshader => ?_) (List.Nodup.of_map _ hsymbols)
  refine List.inj_on_of_nodup_map hsymbols he he' ?_
  obtain ⟨x, -, f, hf, -, hx, s, hs, rfl⟩ := h.of_mem_entries he
  obtain ⟨x', -, f', hf', -, hx', s', hs', rfl⟩ := h.of_mem_entries he'
  rw [hx.symbols, List.mem_filter] at hs
  rw [hx'.symbols, List.mem_filter] at hs'
  exact hnames f hf f' hf' s hs.1 s' hs'.1 hs.2 hs'.2 hshader

end Parts

end Compile

end WasmShader
