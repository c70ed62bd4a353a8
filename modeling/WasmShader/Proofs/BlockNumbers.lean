import WasmShader.Proofs.CompiledModule
import WasmShader.Proofs.PushedNumbers

/-!
# The numbers of blocks

The blocks of a compiled module are numbered from zero on: those of the machines, one machine
after the other, and behind them the exit blocks. So a number stands for one place, and the
dispatcher has one case for it, which calls the function that was emitted for that place.
Every number that the code writes to the stack is that of the place it means to go to, or the
number of a host function, which has the high bit set and so is never that of a block.
-/

namespace WasmShader

/-! ## Numbers of host functions -/

theorem isHost_eq_testBit (id : BlockId) : id.isHost = id.val.toNat.testBit 31 := by
  have hand : (id.val &&& BlockId.hostBit).toNat = (id.val.toNat.testBit 31).toNat * 2 ^ 31 := by
    rw [UInt32.toNat_and, show BlockId.hostBit.toNat = 2 ^ 31 from rfl, Nat.and_two_pow]
  rw [BlockId.isHost, Bool.eq_iff_iff, bne_iff_ne, Ne, ← UInt32.toNat_inj, hand]
  cases id.val.toNat.testBit 31 <;> simp

/-- The number of a host function has the high bit. -/
theorem isHost_host (n : UInt32) : (BlockId.host n).isHost = true := by
  rw [isHost_eq_testBit, BlockId.host, UInt32.toNat_or, Nat.testBit_or,
    show BlockId.hostBit.toNat = 2 ^ 31 from rfl, Nat.testBit_two_pow_self, Bool.true_or]

theorem toNat_ofNat {n : Nat} (h : n < BlockId.maxBlocks) : (BlockId.ofNat n).val.toNat = n :=
  Nat.mod_eq_of_lt (Nat.lt_trans h (by decide))

theorem index_host {n : UInt32} (h : n.toNat < BlockId.maxBlocks) :
    (BlockId.host n).index = n := by
  apply UInt32.toNat_inj.mp
  rw [BlockId.index, BlockId.host, UInt32.toNat_and, UInt32.toNat_or,
    show (~~~BlockId.hostBit).toNat = 2 ^ 31 - 1 from rfl, Nat.and_two_pow_sub_one_eq_mod,
    Nat.or_mod_two_pow, show BlockId.hostBit.toNat % 2 ^ 31 = 0 from rfl, Nat.zero_or]
  exact Nat.mod_eq_of_lt h
/-- A host function of the table is found by its number. -/
theorem HostTable.Sound.lookup? {p : Program} {t : HostTable} (ht : t.Sound p)
    (hfew : t.funcs.length ≤ BlockId.maxBlocks) {h : HostFunc} (hmem : h ∈ t.funcs) :
    t.lookup? h.id = some h := by
  obtain ⟨k, hk⟩ := List.mem_iff_getElem?.mp hmem
  have hlt : k < BlockId.maxBlocks :=
    Nat.lt_of_lt_of_le (List.getElem?_eq_some_iff.mp hk).1 hfew
  have hval : k.toUInt32.toNat = k := Nat.mod_eq_of_lt (Nat.lt_trans hlt (by decide))
  rw [HostTable.lookup?, ht.numbered k h hk, isHost_host, if_pos rfl,
    index_host (by rw [hval]; exact hlt), hval, hk]

namespace Compile

open Emit

/-! ## Places -/

/-- The place of a block: its function, and its index in the machine of the function. The exit
block of a function has no index. -/
def BlockInfo.place (b : BlockInfo) : Nat × Option Nat := (b.func, b.index)

/-- The places of the blocks of machines. -/
def machinePlaces (frames : List Frames) : List (Nat × Option Nat) :=
  frames.flatMap fun fr =>
    (List.range fr.machine.blocks.length).map fun k => (fr.machine.func.index, some k)

/-- The places of the exit blocks. -/
def exitPlaces (c : Config) (a : Analysis) (funcs : List Function) : List (Nat × Option Nat) :=
  (funcs.filter (hasExit c a)).map fun f => (f.index, none)

theorem place_of_isMachine {fr : Frames} {infos : List BlockInfo} (h : IsMachine fr infos)
    (hindex : ∀ k (b : Block), fr.machine.blocks[k]? = some b → b.index = k) {k : Nat}
    {info : BlockInfo} (hk : infos[k]? = some info) :
    info.place = (fr.machine.func.index, some k) := by
  obtain ⟨b, hb, heq⟩ := getElem?_of_forall₂ h.flip hk
  rw [heq, ← hindex k b hb]
  rfl

theorem places_of_isMachine {fr : Frames} {infos : List BlockInfo} (h : IsMachine fr infos)
    (hindex : ∀ k (b : Block), fr.machine.blocks[k]? = some b → b.index = k) :
    infos.map (·.place)
      = (List.range fr.machine.blocks.length).map fun k => (fr.machine.func.index, some k) := by
  refine List.ext_getElem? fun k => ?_
  rw [List.getElem?_map, List.getElem?_map, h.length_eq]
  cases hk : infos[k]? with
  | none =>
      rw [List.getElem?_eq_none (by rw [List.length_range]; exact List.getElem?_eq_none_iff.mp hk)]
      rfl
  | some info =>
      rw [List.getElem?_range (List.getElem?_eq_some_iff.mp hk).1, Option.map_some,
        Option.map_some, place_of_isMachine h hindex hk]

theorem places_of_machines {frames : List Frames} {machines : List (List BlockInfo)}
    (h : List.Forall₂ IsMachine frames machines)
    (hindex : ∀ fr ∈ frames, ∀ k (b : Block), fr.machine.blocks[k]? = some b → b.index = k) :
    machines.flatten.map (·.place) = machinePlaces frames := by
  induction h with
  | nil => rfl
  | @cons fr infos frames machines hmachine _ ih =>
      have hrest := ih fun fr' hfr' => hindex fr' (List.mem_cons_of_mem _ hfr')
      rw [List.flatten_cons, List.map_append, hrest,
        places_of_isMachine hmachine (hindex fr List.mem_cons_self)]
      rfl

theorem places_of_exported {c : Config} {a : Analysis} {funcs : List Function}
    {exported : List Exported} (h : List.Forall₂ (IsExported c a) funcs exported) :
    (exported.filterMap (·.exit)).map (·.place) = exitPlaces c a funcs := by
  induction h with
  | nil => rfl
  | @cons f x funcs exported hx _ ih =>
      have hexit := hx.exit
      cases hsome : x.exit with
      | none =>
          rw [hsome] at hexit
          rw [List.filterMap_cons_none hsome, ih, exitPlaces, exitPlaces,
            List.filter_cons_of_neg (by rw [← hexit]; exact Bool.noConfusion)]
      | some i =>
          rw [hsome] at hexit
          rw [List.filterMap_cons_some hsome, List.map_cons, ih, exitPlaces, exitPlaces,
            List.filter_cons_of_pos hexit.symm, List.map_cons, hx.info i hsome]
          rfl

theorem nodup_machinePlaces {frames : List Frames}
    (h : (frames.map (·.machine.func.index)).Nodup) : (machinePlaces frames).Nodup := by
  refine List.nodup_flatMap.mpr ⟨fun fr _ => ?_, ?_⟩
  · refine List.nodup_range.map fun k k' heq => ?_
    exact Option.some.inj (Prod.mk.inj heq).2
  · refine (List.pairwise_map.mp h).imp fun hne => ?_
    intro place hmem hmem'
    obtain ⟨k, -, rfl⟩ := List.mem_map.mp hmem
    obtain ⟨k', -, heq⟩ := List.mem_map.mp hmem'
    exact hne (Prod.mk.inj heq).1.symm

theorem nodup_exitPlaces {c : Config} {a : Analysis} {funcs : List Function}
    (h : (funcs.map (·.index)).Nodup) : (exitPlaces c a funcs).Nodup := by
  have hsub : ((funcs.filter (hasExit c a)).map (·.index)).Nodup :=
    h.sublist (List.filter_sublist.map _)
  have hmap := hsub.map (f := fun n => (n, (none : Option Nat))) fun _ _ heq =>
    (Prod.mk.inj heq).1
  rw [List.map_map] at hmap
  exact hmap

/-! ## What is planned -/

section Plan

variable {c : Config} {p : Program} {g : CallGraph} {skipped : List Nat} {plan : Plan}
  {hosts : HostTable}

/-- The steps of planning. -/
theorem plan_eq_ok {a : Analysis} (h : Compile.plan c p a skipped = .ok (plan, hosts)) :
    buildFrames c p a { layout := c.layout } (a.machineSet.filter fun fn => !skipped.contains fn)
        = .ok (plan.frames, hosts)
      ∧ numberAll c a plan.frames (p.funcs.filter fun f => !skipped.contains f.index)
        = .ok (plan.machines, plan.exported) := by
  obtain ⟨⟨frames, hosts'⟩, hframes, h⟩ := Program.bind_eq_ok h
  obtain ⟨⟨machines, exported⟩, hnumbers, h⟩ := Program.bind_eq_ok h
  obtain ⟨_, -, h⟩ := Program.bind_eq_ok h
  obtain ⟨_, -, h⟩ := Program.bind_eq_ok h
  obtain ⟨_, -, h⟩ := Program.bind_eq_ok h
  cases h
  exact ⟨hframes, hnumbers⟩

theorem clamp_le_self {limit : Nat} (h : limit ≠ 0) : Allocator.clamp limit ≤ limit := by
  unfold Allocator.clamp
  split
  · next hlarge =>
    rw [Bool.or_eq_true, decide_eq_true_eq, decide_eq_true_eq] at hlarge
    omega
  · exact Nat.le_refl _

theorem clamp_clamp_le (limit : Nat) :
    Allocator.clamp (Allocator.clamp limit) ≤ Allocator.clamp limit := by
  refine clamp_le_self ?_
  unfold Allocator.clamp
  split
  · decide
  · next hne =>
    rw [Bool.or_eq_true, not_or, decide_eq_true_eq] at hne
    exact hne.1

theorem toNat_numbersFrom {n : Nat} (h : n ≤ BlockId.maxBlocks) :
    (numbersFrom 0 n).map (·.val.toNat) = List.range n := by
  rw [numbersFrom, List.map_map, List.range_eq_range']
  conv => rhs; rw [← List.map_id (List.range' 0 n)]
  refine List.map_congr_left fun k hk => ?_
  have hlt := (List.mem_range'_1.mp hk).2
  exact toNat_ofNat (by omega)

theorem PlanSound.nodup_frames (h : PlanSound c p g skipped plan hosts) (hg : g.Sound) :
    (plan.frames.map (·.machine.func.index)).Nodup := by
  rw [h.frames]
  exact ((CallGraph.nodup_order hg).filter _).filter _

theorem PlanSound.places (h : PlanSound c p g skipped plan hosts) :
    plan.blocks.map (·.place) = machinePlaces plan.frames
      ++ exitPlaces c g.analyze (p.funcs.filter fun f => !skipped.contains f.index) := by
  rw [Plan.blocks, List.map_append, Plan.exits, places_of_exported h.exported,
    places_of_machines h.machines fun fr hfr => (h.built fr hfr).sound.index]

theorem PlanSound.nodup_places (h : PlanSound c p g skipped plan hosts)
    (hg : CallGraph.build p = .ok g) (hsound : g.Sound) :
    (plan.blocks.map (·.place)).Nodup := by
  have hfuncs : (p.funcs.map (·.index)).Nodup := by
    have hnodes := hsound.nodup
    rw [CallGraph.nodes, CallGraph.program_of_build hg] at hnodes
    exact hnodes
  rw [h.places, List.nodup_append]
  refine ⟨nodup_machinePlaces (h.nodup_frames hsound), nodup_exitPlaces ?_, ?_⟩
  · exact hfuncs.sublist (List.filter_sublist.map _)
  · intro place hmem place' hmem' heq
    obtain ⟨fr, -, hmem⟩ := List.mem_flatMap.mp hmem
    obtain ⟨k, -, rfl⟩ := List.mem_map.mp hmem
    obtain ⟨f, -, rfl⟩ := List.mem_map.mp hmem'
    cases (Prod.mk.inj heq).2

theorem mem_of_lookup_eq {α : Type} {xs : List (Nat × α)} {k : Nat} {v : α}
    (h : xs.lookup k = some v) : (k, v) ∈ xs := by
  obtain ⟨front, back, rfl, -⟩ := List.lookup_eq_some_iff.mp h
  exact List.mem_append_right _ List.mem_cons_self

/-- A block of a machine that is recorded, with its machine. -/
theorem PlanSound.of_machines (h : PlanSound c p g skipped plan hosts) (hg : g.Sound) {j : Nat}
    {infos : List BlockInfo} (hinfos : plan.machines[j]? = some infos) :
    ∃ fr, plan.frames[j]? = some fr ∧ HasNumbers plan fr infos
      ∧ ∀ k (info : BlockInfo), infos[k]? = some info → info.place = (fr.machine.func.index, some k) := by
  obtain ⟨fr, hfr, -⟩ := getElem?_of_forall₂ h.machines.flip hinfos
  obtain ⟨infos', hinfos', hnumbers⟩ := h.hasNumbers hg hfr
  rw [hinfos] at hinfos'
  cases hinfos'
  have hindex := (h.built fr (List.mem_of_getElem? hfr)).sound.index
  exact ⟨fr, hfr, hnumbers, fun k info => place_of_isMachine hnumbers.isMachine hindex⟩

/-- The number of a block of a machine is the key of its place. -/
theorem PlanSound.get?_eq_some (h : PlanSound c p g skipped plan hosts) (hg : g.Sound)
    {fn k : Nat} {id : BlockId} :
    plan.ids.get? fn k = some id ↔ ∃ b ∈ plan.blocks, b.id = id ∧ b.place = (fn, some k) := by
  constructor
  · intro hget
    rw [BlockNumbers.get?] at hget
    cases hlookup : plan.ids.lookup fn with
    | none =>
        rw [hlookup] at hget
        cases hget
    | some ids =>
        rw [hlookup, Option.getD_some] at hget
        obtain ⟨⟨fr, infos⟩, hzip, heq⟩ := List.mem_map.mp (mem_of_lookup_eq hlookup)
        cases heq
        obtain ⟨j, hj⟩ := List.mem_iff_getElem?.mp hzip
        obtain ⟨hfr, hinfos⟩ := List.getElem?_zip_eq_some.mp hj
        obtain ⟨fr', hfr', -, hplaces⟩ := h.of_machines hg hinfos
        rw [hfr] at hfr'
        cases hfr'
        rw [List.getElem?_map] at hget
        obtain ⟨info, hinfo, rfl⟩ := Option.map_eq_some_iff.mp hget
        refine ⟨info, List.mem_append_left _ ?_, rfl, hplaces k info hinfo⟩
        exact List.mem_flatten.mpr
          ⟨infos, List.mem_of_getElem? hinfos, List.mem_of_getElem? hinfo⟩
  · rintro ⟨b, hb, rfl, hplace⟩
    rcases List.mem_append.mp hb with hb | hb
    · obtain ⟨infos, hinfos, hb⟩ := List.mem_flatten.mp hb
      obtain ⟨j, hj⟩ := List.mem_iff_getElem?.mp hinfos
      obtain ⟨fr, -, hnumbers, hplaces⟩ := h.of_machines hg hj
      obtain ⟨i, hi⟩ := List.mem_iff_getElem?.mp hb
      have heq := hplaces i b hi
      rw [hplace] at heq
      cases heq
      exact BlockNumbers.get_eq_ok.mp (hnumbers.get hi)
    · obtain ⟨x, hx, hexit⟩ := List.mem_filterMap.mp hb
      obtain ⟨f, -, hexported⟩ := exists_of_forall₂_left h.exported.flip hx
      rw [hexported.info b hexit] at hplace
      cases (Prod.mk.inj hplace).2

end Plan

/-! ## Numbers in the module -/

section Module

variable {config : Config} {p : Program} {g : CallGraph} {plan : Plan} {out : Compiled}
  {direct : List Shader.Function} {machines : List (List Shader.Function)}
  {entries : List Shader.Function}

/-- The numbers of the blocks of the machines. -/
def Compiled.numbers (out : Compiled) : BlockNumbers := out.machines

/-- The context in which the blocks of a compiled module are emitted. -/
def Compiled.blockContext (out : Compiled) (fr : Frames) : BlockContext where
  program := out.program
  analysis := out.analysis
  layout := out.layout
  globals := .ofProgram out.program out.layout
  stackWords := out.stackWords
  frames := fr
  ids := out.numbers

theorem Origin.program_eq (h : Origin config p out g plan direct machines entries) :
    out.program = p :=
  (congrArg (·.program) h.eq).trans (CallGraph.program_of_build h.graph)

theorem Origin.analysis_eq (h : Origin config p out g plan direct machines entries) :
    out.analysis = g.analyze := congrArg (·.analysis) h.eq

theorem Origin.layout_eq (h : Origin config p out g plan direct machines entries) :
    out.layout = config.withDefaults.layout := congrArg (·.layout) h.eq

theorem Origin.blocks_eq (h : Origin config p out g plan direct machines entries) :
    out.blocks = plan.blocks := congrArg (·.blocks) h.eq

theorem Origin.entries_eq (h : Origin config p out g plan direct machines entries) :
    out.entries = plan.entries := congrArg (·.entries) h.eq

theorem Origin.numbers_eq (h : Origin config p out g plan direct machines entries) :
    out.numbers = plan.ids := congrArg (·.machines) h.eq

theorem Origin.context_layout (h : Origin config p out g plan direct machines entries) :
    plan.context.layout = out.layout := by
  rw [h.planned.context, h.layout_eq]

theorem Origin.blockContext (h : Origin config p out g plan direct machines entries)
    (fr : Frames) : plan.blockContext fr = out.blockContext fr := by
  have hstack : out.stackWords = config.withDefaults.stackWords := congrArg (·.stackWords) h.eq
  rw [Plan.blockContext, Compiled.blockContext, h.planned.context, h.program_eq, h.analysis_eq,
    h.layout_eq, h.numbers_eq, hstack]

/-- The function that is emitted for the place of a block: the code of the block of the machine,
or the code that leaves the machine. -/
inductive EmittedFor (p : Program) (frames : List Frames) (out : Compiled) (b : BlockInfo)
    (sf : Shader.Function) : Prop
  | block {fr : Frames} {k : Nat} {block : Block} : fr ∈ frames →
      fr.machine.blocks[k]? = some block → b.place = (fr.machine.func.index, some k) →
      (out.blockContext fr).blockFunction block = .ok sf → EmittedFor p frames out b sf
  | exit {f : Function} : f ∈ p.funcs → b.place = (f.index, none) →
      sf = exitBlock out.layout b.name f.type.results → EmittedFor p frames out b sf

/-- The function that stands under the name of a block is the one emitted for it. -/
theorem Origin.emittedFor (h : Origin config p out g plan direct machines entries)
    (hp : p.Formed) (hnames : (out.module.functions.map (·.name)).Nodup) {b : BlockInfo}
    (hb : b ∈ out.blocks) : ∃ sf, out.module.function? b.name = some sf
      ∧ EmittedFor p plan.frames out b sf := by
  have hsound := CallGraph.sound_of_build hp h.graph
  rw [h.blocks_eq] at hb
  rcases List.mem_append.mp hb with hb | hb
  · obtain ⟨sf, hsf, hname, fr, hfr, block, hblock, hinfo, hfunction⟩ :=
      h.parts.of_mem_machines h.planned hsound hb
    have hmem : sf ∈ out.module.functions := by
      rw [h.parts.functions]
      simp only [List.mem_append]
      exact .inl (.inl (.inl (.inr hsf)))
    obtain ⟨k, hk⟩ := List.mem_iff_getElem?.mp hblock
    refine ⟨sf, hname ▸ Shader.Module.function?_of_names hnames hmem, .block hfr hk ?_ ?_⟩
    · rw [hinfo, ← (h.planned.built fr hfr).sound.index k block hk]
      rfl
    · rw [← h.blockContext]
      exact hfunction
  · have hmem : exitBlock plan.context.layout b.name b.payload ∈ out.module.functions := by
      rw [h.parts.functions]
      simp only [List.mem_append, List.mem_map]
      exact .inl (.inl (.inr ⟨b, hb, rfl⟩))
    obtain ⟨x, hx, hexit⟩ := List.mem_filterMap.mp hb
    obtain ⟨f, hf, hexported⟩ := exists_of_forall₂_left h.planned.exported.flip hx
    have hinfo := hexported.info b hexit
    refine ⟨_, Shader.Module.function?_of_names hnames hmem, .exit (List.mem_filter.mp hf).1 ?_ ?_⟩
    · rw [hinfo]
      rfl
    · have hpayload : b.payload = f.type.results := by rw [hinfo]; rfl
      rw [h.context_layout, hpayload]

/-- The numbers that the entry point for an export writes: none if it calls a direct form, and
otherwise those of the exit block and of the first block of its function. -/
inductive EntryNumbers (out : Compiled) (e : Entry) : List UInt32 → Prop
  | direct : e.exit = none → EntryNumbers out e []
  | machine {exit : BlockInfo} {first : BlockId} : exit ∈ out.blocks →
      exit.place = (e.func, none) → e.exit = some exit.id →
      out.numbers.get? e.func 0 = some first → EntryNumbers out e [exit.id.val, first.val]

theorem Origin.entryNumbers (h : Origin config p out g plan direct machines entries)
    {e : Entry} (he : e ∈ plan.entries) {sf : Shader.Function}
    (hsf : plan.entryFunction e = .ok sf) : EntryNumbers out e sf.numbers := by
  obtain ⟨x, hx, f, -, -, hexported, symbol, -, rfl⟩ := h.planned.of_mem_entries he
  obtain ⟨_, -, hsf⟩ := Program.bind_eq_ok hsf
  dsimp only at hsf
  cases hexit : x.exit with
  | none =>
      rw [hexit] at hsf
      cases hsf
      rw [directEntry_numbers]
      exact .direct rfl
  | some i =>
      rw [hexit] at hsf
      obtain ⟨first, hfirst, hsf⟩ := Program.bind_eq_ok hsf
      cases hsf
      rw [machineEntry_numbers]
      refine @EntryNumbers.machine _ _ i _ ?_ ?_ rfl ?_
      · rw [h.blocks_eq]
        exact List.mem_append_right _ (List.mem_filterMap.mpr ⟨x, hx, hexit⟩)
      · rw [hexported.info i hexit]
        rfl
      · rw [h.numbers_eq]
        exact BlockNumbers.get_eq_ok.mp hfirst

/-- The code that writes numbers to the stack is that of the blocks of machines and that of
entry points. -/
theorem Origin.numbers_cases (h : Origin config p out g plan direct machines entries)
    {sf : Shader.Function} (hsf : sf ∈ out.module.functions) :
    sf.numbers = []
      ∨ (∃ fr ∈ plan.frames, ∃ b ∈ fr.machine.blocks,
        (out.blockContext fr).blockFunction b = .ok sf)
      ∨ ∃ e ∈ out.entries, sf.name = e.shader ∧ EntryNumbers out e sf.numbers := by
  rw [h.parts.functions] at hsf
  simp only [List.mem_append, List.mem_cons, List.not_mem_nil, or_false, List.mem_map] at hsf
  rcases hsf with ((((hsf | hsf) | hsf) | ⟨b, -, rfl⟩) | rfl | rfl) | hsf | hsf
  · exact .inl (numericFunctions_numbers sf hsf)
  · obtain ⟨fn, -, f, -, hfunction⟩ := exists_of_forall₂_left h.parts.isDirect.flip hsf
    exact .inl (directFunction_numbers hfunction)
  · obtain ⟨-, -, fr, hfr, b, hb, hfunction⟩ := mem_machines_serves h.parts hsf
    exact .inr (.inl ⟨fr, hfr, b, hb, h.blockContext fr ▸ hfunction⟩)
  · exact .inl (exitBlock_numbers _ _ _)
  · exact .inl rfl
  · exact .inl (dispatcher_numbers _)
  · obtain ⟨e, he, hfunction⟩ := exists_of_forall₂_left h.parts.isEntry.flip hsf
    have hname := (h.planned.isEntry he hfunction).name
    exact .inr (.inr ⟨e, h.entries_eq ▸ he, hname, h.entryNumbers he hfunction⟩)
  · rcases mem_otherEntries hsf with rfl | rfl
    · exact .inl rfl
    · exact .inl rfl

/-! ## The address space -/

theorem dispatcher_body (blocks : List (BlockId × String)) : ∃ checks fallback,
    (dispatcher blocks).body = [.loop dispatchLabel (checks ++ [.switch (.var numberVar)
      (blocks.map fun b => .mk [b.1.val] [callOnly b.2]) fallback])] :=
  ⟨[stopIf (Shader.Expr.isNonzero (.load stackBuffer trapPlace)), readSp,
    stopIf (.binary .eq (.var spVar) (.u32 0)),
    .assign numberVar (.load stackBuffer (dataAt 0xffffffff)),
    stopIf (.binary .ge (.var numberVar) (.u32 BlockId.hostBit))], trapStmts .invalidBlock, rfl⟩

/-- What the numbers of a compiled module stand for. The frames are those of its machines. -/
structure AddressSpace (config : Config) (p : Program) (frames : List Frames) (out : Compiled) :
    Prop where
  keys : ∃ n ≤ BlockId.maxBlocks, (config.maxBlocks ≠ 0 → n ≤ config.maxBlocks)
    ∧ out.blocks.map (·.id.val.toNat) = List.range n
  /-- The blocks of the machines and the exit blocks each have one number. -/
  places : out.blocks.map (·.place) = machinePlaces frames
    ++ exitPlaces config out.analysis
      (p.funcs.filter fun f => !(out.skipped.map (·.1)).contains f.index)
  placesDiffer : (out.blocks.map (·.place)).Nodup
  get?_eq_some : ∀ fn k id, out.numbers.get? fn k = some id
    ↔ ∃ b ∈ out.blocks, b.id = id ∧ b.place = (fn, some k)
  /-- The dispatcher has one case for each number. -/
  dispatch : ∃ sf, out.module.function? dispatcherName = some sf ∧ ∃ checks fallback,
    sf.body = [.loop dispatchLabel (checks ++ [.switch (.var numberVar)
      (out.blocks.map fun b => .mk [b.id.val] [callOnly b.name]) fallback])]
  emitted : ∀ b ∈ out.blocks, ∃ sf, out.module.function? b.name = some sf
    ∧ EmittedFor p frames out b sf
  /-- A block writes the numbers of what its terminator leads to. -/
  writes : ∀ fr ∈ frames, ∀ b ∈ fr.machine.blocks, ∀ sf,
    (out.blockContext fr).blockFunction b = .ok sf →
    AreNumbers sf.numbers (out.numbers.targets fr.machine.func.index b.term)
  asks : ∀ fr ∈ frames, ∀ b ∈ fr.machine.blocks, ∀ h args results next,
    b.term = .host h args results next → h.id.isHost = true ∧ fr.machine.func.Asks p h.key
      ∧ (out.hosts.funcs.length ≤ BlockId.maxBlocks → out.hosts.lookup? h.id = some h)
  entries : ∀ e ∈ out.entries, ∃ sf, out.module.function? e.shader = some sf
    ∧ EntryNumbers out e sf.numbers
  others : ∀ sf ∈ out.module.functions, sf.numbers = []
    ∨ (∃ fr ∈ frames, ∃ b ∈ fr.machine.blocks, (out.blockContext fr).blockFunction b = .ok sf)
    ∨ ∃ e ∈ out.entries, sf.name = e.shader

theorem Origin.addressSpace (h : Origin config p out g plan direct machines entries)
    (hp : p.Formed) (hvalid : out.module.validate = .ok ()) :
    AddressSpace config p plan.frames out := by
  have hsound := CallGraph.sound_of_build hp h.graph
  have hnames := Shader.Module.nodup_of_validate hvalid
  refine ⟨?_, ?_, ?_, ?_, ?_, ?_, ?_, ?_, ?_, ?_⟩
  · obtain ⟨n, hn, hids⟩ := h.planned.ids
    have hclamp : n ≤ Allocator.clamp config.maxBlocks := Nat.le_trans hn (clamp_clamp_le _)
    refine ⟨n, Nat.le_trans hn (clamp_le _), fun hne => Nat.le_trans hclamp (clamp_le_self hne), ?_⟩
    rw [← toNat_numbersFrom (Nat.le_trans hn (clamp_le _)), ← hids, h.blocks_eq, List.map_map]
    rfl
  · rw [h.blocks_eq, h.planned.places, h.analysis_eq]
    rfl
  · rw [h.blocks_eq]
    exact h.planned.nodup_places h.graph hsound
  · intro fn k id
    rw [h.numbers_eq, h.blocks_eq]
    exact h.planned.get?_eq_some hsound
  · have hmem : dispatcher (plan.blocks.map fun b => (b.id, b.name)) ∈ out.module.functions := by
      rw [h.parts.functions]
      exact List.mem_append_left _ (List.mem_append_right _
        (List.mem_cons_of_mem _ List.mem_cons_self))
    obtain ⟨checks, fallback, hbody⟩ := dispatcher_body (plan.blocks.map fun b => (b.id, b.name))
    refine ⟨_, Shader.Module.function?_of_names hnames hmem, checks, fallback, ?_⟩
    rw [hbody, h.blocks_eq, List.map_map]
    rfl
  · intro b hb
    exact h.emittedFor hp hnames hb
  · intro fr hfr b hb sf hsf
    exact blockFunction_numbers hsf
  · intro fr hfr b hb hf args results next hterm
    obtain ⟨hmem, hasks⟩ := ((h.planned.built fr hfr).sound.leads b hb).host hf args results next
      hterm
    refine ⟨?_, hasks, fun hfew => h.planned.table.1.lookup? hfew hmem⟩
    obtain ⟨k, hk⟩ := List.mem_iff_getElem?.mp hmem
    rw [h.planned.table.1.numbered k hf hk]
    exact isHost_host _
  · intro e he
    rw [h.entries_eq] at he
    obtain ⟨sf, hsf, hfunction⟩ := exists_of_forall₂_left h.parts.isEntry he
    have hmem : sf ∈ out.module.functions := by
      rw [h.parts.functions]
      simp only [List.mem_append]
      exact .inr (.inl hsf)
    refine ⟨sf, ?_, h.entryNumbers he hfunction⟩
    rw [← (h.planned.isEntry he hfunction).name]
    exact Shader.Module.function?_of_names hnames hmem
  · intro sf hsf
    rcases h.numbers_cases hsf with hnone | hblock | ⟨e, he, hname, -⟩
    · exact .inl hnone
    · exact .inr (.inl hblock)
    · exact .inr (.inr ⟨e, he, hname⟩)

/-! ## Too many blocks -/

/-- With more blocks than numbers there is no plan. -/
theorem numberAll_capacity {c : Config} {a : Analysis} {frames : List Frames}
    {funcs : List Function} (hframes : ∀ fr ∈ frames, fr.Formed)
    (hknown : ∀ f ∈ funcs, AllKnown f.type.results)
    (hmany : Allocator.clamp c.maxBlocks
      < (machinePlaces frames).length + (exitPlaces c a funcs).length) :
    ∃ e, numberAll c a frames funcs = .error (.failed e) ∧ e.isCapacity = true := by
  rcases numberAll_total c a hframes hknown with
    ⟨machines, exported, -, hmachines, hexported, n, hn, hids⟩ | hcap
  · exfalso
    have hlen := congrArg List.length hids
    rw [length_numbersFrom, List.length_map, List.length_append,
      ← @List.length_map _ _ machines.flatten (·.place), places_of_machines hmachines fun fr hfr => (hframes fr hfr).index,
      ← @List.length_map _ _ (exported.filterMap (·.exit)) (·.place),
      places_of_exported hexported] at hlen
    omega
  · exact hcap

/-- With more blocks than numbers the program is not compiled. -/
theorem compile_capacity (hp : p.Formed) {unsupported : List (Nat × Failure)}
    (hu : unsupportedFunctions config.withDefaults p = .ok unsupported)
    (hg : CallGraph.build p = .ok g) {frames : List Frames} {hosts : HostTable}
    (hframes : buildFrames config.withDefaults p g.analyze { layout := config.layout }
      (g.analyze.machineSet.filter fun fn =>
        !((skippedFunctions g unsupported).map (·.1)).contains fn) = .ok (frames, hosts))
    (hmany : Allocator.clamp config.maxBlocks < (machinePlaces frames).length
      + (exitPlaces config g.analyze (p.funcs.filter fun f =>
        !((skippedFunctions g unsupported).map (·.1)).contains f.index)).length) :
    ∃ e, compile config p = .error (.failed e) ∧ e.isCapacity = true := by
  have hkeeps := keeps_of_unsupported (CallGraph.sound_of_build hp hg) hu
  rcases buildMachines_total hp hg hkeeps config.withDefaults with
    ⟨frames', hosts', hrun, -, -, -, hbuilt⟩ | ⟨e, hrun, -⟩
  · have hsame := hframes.symm.trans hrun
    cases hsame
    have hlimit := Nat.lt_of_le_of_lt (clamp_clamp_le config.maxBlocks) hmany
    obtain ⟨e, he, hcap⟩ := numberAll_capacity (c := config.withDefaults)
      (fun fr hfr => (hbuilt fr hfr).fit.formed)
      (fun f hf => (hp.funcKnown f (List.mem_filter.mp hf).1).1.results) hlimit
    refine ⟨e, compile_eq_error hp hu hg ?_, hcap⟩
    rw [Compile.plan]
    dsimp only
    rw [bind_eq_of_ok hrun]
    dsimp only
    rw [he]
    rfl
  · have hsame := hframes.symm.trans hrun
    cases hsame

/-! Three functions: a countdown that calls itself and ends with the size of the memory (`f`),
a read of the memory, which is not supported (`g`), and the identity (`k`). -/

def mixture : Binary.Module where
  types := [⟨[0x7f], [0x7f]⟩]
  funcs := [0, 0, 0]
  exports := [⟨[0x66], Binary.Export.funcKind, 0⟩, ⟨[0x67], Binary.Export.funcKind, 1⟩,
    ⟨[0x6b], Binary.Export.funcKind, 2⟩]
  code := [⟨[], [0x20, 0, 0x04, 0x7f, 0x20, 0, 0x41, 1, 0x6b, 0x10, 0, 0x05, 0x3f, 0, 0x0b, 0x0b]⟩,
    ⟨[], [0x20, 0, 0x28, 2, 0, 0x0b]⟩, ⟨[], [0x20, 0, 0x0b]⟩]

def mixtureProgram : Program := (Program.ofModule mixture).toOption.getD default

def mixtureGraph : CallGraph := (CallGraph.build mixtureProgram).toOption.getD default

/-- Settings that leave out what is not supported. -/
def lenient : Config := { skipUnsupported := true }

def mixtureUnsupported : List (Nat × Failure) :=
  (unsupportedFunctions lenient.withDefaults mixtureProgram).toOption.getD []

/-- No step on the way to the plan of the module fails. -/
theorem planned_mixture : (Program.ofModule mixture).isOk = true
    ∧ (unsupportedFunctions lenient.withDefaults mixtureProgram).isOk = true
    ∧ (CallGraph.build mixtureProgram).isOk = true
    ∧ (Compile.plan lenient.withDefaults mixtureProgram mixtureGraph.analyze
      ((skippedFunctions mixtureGraph mixtureUnsupported).map (·.1))).isOk = true := by
  decide +kernel

theorem read_mixture : Program.ofModule mixture = .ok mixtureProgram :=
  eq_ok_getD planned_mixture.1 default

theorem unsupported_mixture :
    unsupportedFunctions lenient.withDefaults mixtureProgram = .ok mixtureUnsupported :=
  eq_ok_getD planned_mixture.2.1 []

theorem build_mixture : CallGraph.build mixtureProgram = .ok mixtureGraph :=
  eq_ok_getD planned_mixture.2.2.1 default

theorem namesDiffer_mixture : NamesDiffer lenient mixtureProgram :=
  namesDiffer_of_exports (by decide +kernel)

theorem compile_mixture : ∃ out, compile lenient mixtureProgram = .ok out
    ∧ out.skipped = skippedFunctions mixtureGraph mixtureUnsupported :=
  compile_isOk (Program.formed_of_ofModule read_mixture) namesDiffer_mixture unsupported_mixture
    build_mixture planned_mixture.2.2.2

end Module

end Compile

end WasmShader
