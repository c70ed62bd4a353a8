import WasmShader.Proofs.Coverage

/-!
# Names of entry points

The name of an entry point keeps the letters, digits and underscores of its export and puts an
underscore for every other character, so that different exports can be given one name. For a
checked program with room for its frames and blocks this is all that can stand against a
compilation: if the exports that are wanted get different names there is one entry point for each
of them, and if two of them share a name the emitted module is refused.
-/

namespace WasmShader

/-! ## Calls of checked functions -/

namespace Program

variable {p : Program} {f : Function}

mutual

/-- Every instruction of typed code is typed where it stands. -/
theorem TypedNode.of_mem_instrs : {labels : Labels} → {n : Node} → {stack : TypeStack} →
    {out : Option TypeStack} → TypedNode p f labels n stack out → ∀ i ∈ n.instrs,
      ∃ labels stack out, TypedInstr p f labels i stack out
  | _, _, _, _, .instr h, i, hi => by
      rw [Node.instrs, List.mem_singleton] at hi
      exact ⟨_, _, _, hi ▸ h⟩
  | _, _, _, _, .block _ h, i, hi => by
      rw [Node.instrs] at hi
      exact h.of_mem_instrs i hi
  | _, _, _, _, .ifThen _ _ h, i, hi => by
      rw [Node.instrs] at hi
      exact h.of_mem_instrs i hi
  | _, _, _, _, .ifElse _ h h', i, hi => by
      rw [Node.instrs, List.mem_append] at hi
      exact hi.elim (h.of_mem_instrs i) (h'.of_mem_instrs i)

theorem TypedSeq.of_mem_instrs : {labels : Labels} → {ns : List Node} → {stack : TypeStack} →
    {results : List ValueType} → TypedSeq p f labels ns stack results → ∀ i ∈ Body.instrs ns,
      ∃ labels stack out, TypedInstr p f labels i stack out
  | _, _, _, _, .nil, i, hi => by
      rw [Body.instrs] at hi
      cases hi
  | _, _, _, _, .cons h hs, i, hi => by
      rw [Body.instrs, List.mem_append] at hi
      exact hi.elim (h.of_mem_instrs i) (hs.of_mem_instrs i)
  | _, _, _, _, .last h, i, hi => by
      rw [Body.instrs, Body.instrs, List.append_nil] at hi
      exact h.of_mem_instrs i hi

end

theorem lt_numFuncs_of_signature? {fn : Nat} {sig : Signature} (h : p.signature? fn = some sig) :
    fn < p.numFuncs := by
  unfold signature? at h
  rw [numFuncs]
  split at h
  · next himport =>
    have hlt : fn < p.imports.length := of_decide_eq_true himport
    omega
  · next hdefined =>
    obtain ⟨g, hg, -⟩ := Option.map_eq_some_iff.mp h
    rw [func?, if_neg hdefined] at hg
    have hlt := (List.getElem?_eq_some_iff.mp hg).1
    omega

/-- The target of a typed call has a signature. -/
theorem TypedInstr.exists_signature {labels : Labels} {i : Instr} {stack : TypeStack}
    {out : Option TypeStack} (h : TypedInstr p f labels i stack out) {target : UInt32}
    (hop : i.operation = .call) (himm : i.imm = .call target) :
    ∃ sig, p.signature? target.toNat = some sig := by
  cases h with
  | call _ himm' hsig =>
      rw [himm] at himm'
      cases himm'
      exact ⟨_, hsig⟩
  | constant h => rcases h <;> simp_all
  | _ => simp_all

/-- A checked function calls functions that there are. -/
theorem lt_numFuncs_of_mem_calls (hp : p.Formed) (hf : f ∈ p.funcs) (hcheck : p.check f = .ok ())
    {target : Nat} (htarget : target ∈ f.calls) : target < p.numFuncs := by
  obtain ⟨body, hbody, htyped⟩ := typedSeq_of_check_function (hp.body f hf) hcheck
  rw [hp.calls f hf body hbody] at htarget
  obtain ⟨i, hi, hcall⟩ := List.mem_filterMap.mp htarget
  obtain ⟨called, hcalled, rfl⟩ := Option.map_eq_some_iff.mp hcall
  obtain ⟨labels, stack, out, htypedInstr⟩ := htyped.of_mem_instrs i hi
  unfold Instr.callTarget? at hcalled
  split at hcalled
  · next hop himm =>
    cases hcalled
    obtain ⟨sig, hsig⟩ := htypedInstr.exists_signature hop himm
    exact lt_numFuncs_of_signature? hsig
  · cases hcalled

end Program

namespace Compile

open Emit

variable {config : Config} {p : Program}

/-! ## Checked programs -/

/-- Every function of the program passes the check. -/
def Checked (p : Program) : Prop := ∀ f ∈ p.funcs, p.check f = .ok ()

/-- Every export asked for is one of a function. -/
def ExportsExist (config : Config) (p : Program) : Prop :=
  ∀ name ∈ config.exports, ∃ f ∈ p.funcs, Symbol.ofText name ∈ f.exports

/-- No capacity stands against the compilation. -/
def HasRoom (config : Config) (p : Program) : Prop :=
  ∀ e, compile config p = .error (.failed e) → e.isCapacity = false

theorem unsupported_of_checked {c : Config} (hchecked : Checked p) :
    unsupportedFunctions c p = .ok [] := by
  obtain ⟨looked, hlooked, hnone⟩ : ∃ looked, p.funcs.mapM (checkFunction c p) = .ok looked
      ∧ List.Forall₂ (fun _ r => r = none) p.funcs looked := by
    refine mapM_eq_ok fun f hf => ⟨none, ?_, rfl⟩
    rw [checkFunction, hchecked f hf]
  have hempty : looked.filterMap id = [] := by
    refine List.filterMap_eq_nil_iff.mpr fun r hr => ?_
    obtain ⟨f, -, hr⟩ := exists_of_forall₂_left hnone.flip hr
    exact hr
  rw [unsupportedFunctions, bind_eq_of_ok hlooked, hempty]
  rfl

/-- The module of a checked program is emitted. -/
theorem origin_of_checked (hp : p.Formed) (hchecked : Checked p)
    (hexports : ExportsExist config p) (hroom : HasRoom config p) :
    ∃ out g plan direct machines entries, Origin config p out g plan direct machines entries
      ∧ out.skipped = [] ∧ compile config p = validated out := by
  rcases compile_cases hp (unsupported_of_checked (c := config.withDefaults) hchecked) with
    ⟨out, g, plan, direct, machines, entries, horigin, hskipped, hrun⟩ | ⟨e, he, hwhy⟩
  · rw [skipped_eq_nil] at hskipped
    exact ⟨out, g, plan, direct, machines, entries, horigin, hskipped, hrun⟩
  · exfalso
    rcases hwhy with hcapacity | ⟨f, hf, target, htarget, hle, -⟩ | ⟨g, -, name, hname, -, hkept⟩
    · rw [hroom e he] at hcapacity
      cases hcapacity
    · have hlt := Program.lt_numFuncs_of_mem_calls hp hf (hchecked f hf) htarget
      omega
    · obtain ⟨f, hf, hexport⟩ := hexports name hname
      have hmem := hkept f hf hexport
      rw [skipped_eq_nil] at hmem
      cases hmem

/-! ## One name for two exports -/

/-- Why a module with two functions of one name is refused. -/
def sharedName : Failure :=
  .wrap .emit .malformed (.plain "duplicate function names") "emitted module"

section Module

variable {g : CallGraph} {plan : Plan} {out : Compiled} {direct : List Shader.Function}
  {machines : List (List Shader.Function)} {entries : List Shader.Function}

/-- If the functions of the module have different names, so do the exports that are wanted. -/
theorem Origin.namesDiffer (h : Origin config p out g plan direct machines entries)
    (hp : p.Formed) (hskipped : out.skipped = [])
    (hnodup : (out.module.functions.map (·.name)).Nodup) : NamesDiffer config p := by
  rw [h.names_eq hp] at hnodup
  have hshaders : (plan.entries.map (·.shader)).Nodup :=
    (List.nodup_flatten.mp hnodup).1 _ (by simp)
  have hentry {f : Function} (hf : f ∈ p.funcs) {s : Symbol} (hs : s ∈ f.exports)
      (hwants : config.wants s = true) :
      ∃ e ∈ plan.entries, e.symbol = s ∧ e.shader = entryName s := by
    have hkept : f.index ∉ out.skipped.map (·.1) := by
      rw [hskipped]
      exact List.not_mem_nil
    obtain ⟨e, he, rfl⟩ := List.mem_map.mp
      (h.planned.mem_symbols.mpr ⟨f, hf, hkept, hs, hwants⟩)
    obtain ⟨x, -, f', -, -, -, symbol, -, rfl⟩ := h.planned.of_mem_entries he
    exact ⟨_, he, rfl, rfl⟩
  intro f hf f' hf' s hs s' hs' hwants hwants' hsame
  obtain ⟨e, he, rfl, hshader⟩ := hentry hf hs hwants
  obtain ⟨e', he', rfl, hshader'⟩ := hentry hf' hs' hwants'
  have heq : e.shader = e'.shader := by rw [hshader, hshader', hsame]
  rw [List.inj_on_of_nodup_map hshaders he he' heq]

theorem Origin.validated_eq_error (h : Origin config p out g plan direct machines entries)
    (hp : p.Formed) (hskipped : out.skipped = []) (hnames : ¬NamesDiffer config p) :
    validated out = .error (.failed sharedName) := by
  have hnot : ¬(out.module.functions.map (·.name)).Nodup :=
    fun hnodup => hnames (h.namesDiffer hp hskipped hnodup)
  rw [validated, Shader.Module.validate_of_not_nodup hnot]
  rfl

/-! ## One entry point for each export -/

/-- The entry points of a compiled module serve the exports that are wanted, each its own. -/
structure ServesExports (config : Config) (p : Program) (out : Compiled) : Prop where
  symbols : ∀ symbol, symbol ∈ out.entries.map (·.symbol)
    ↔ ∃ f ∈ p.funcs, symbol ∈ f.exports ∧ config.wants symbol = true
  nodup : (out.entries.map (·.symbol)).Nodup
  named : ∀ e ∈ out.entries, e.shader = entryName e.symbol
  runs : ∀ e ∈ out.entries, ∃ f ∈ p.funcs, f.index = e.func ∧ e.symbol ∈ f.exports
    ∧ e.sig = f.type
  /-- In the module the entry points for the exports come first, in their order. -/
  points : ∃ others, out.module.entryPoints.map (·.name) = out.entries.map (·.shader) ++ others
  compute : ∀ x ∈ out.module.entryPoints, x.workgroup = config.withDefaults.workgroup
    ∧ ∃ sf ∈ out.module.functions, sf.name = x.function ∧ sf.params = [] ∧ sf.results = []
  distinct : (out.module.entryPoints.map (·.name)).Nodup

theorem Origin.servesExports (h : Origin config p out g plan direct machines entries)
    (hp : p.Formed) (hskipped : out.skipped = []) (hnames : NamesDiffer config p) :
    ServesExports config p out := by
  have hkept (fn : Nat) : fn ∉ out.skipped.map (·.1) := by
    rw [hskipped]
    exact List.not_mem_nil
  have hpoints : out.module.entryPoints.map (·.name)
      = (entries ++ plan.otherEntries).map (·.name) := by
    rw [h.parts.entryPoints, List.map_map]
    rfl
  refine ⟨fun symbol => ?_, ?_, fun e he => ?_, fun e he => ?_, ?_, fun x hx => ⟨?_, ?_⟩, ?_⟩
  · rw [h.entries_eq, h.planned.mem_symbols]
    constructor
    · rintro ⟨f, hf, -, hwanted⟩
      exact ⟨f, hf, hwanted⟩
    · rintro ⟨f, hf, hwanted⟩
      exact ⟨f, hf, hkept f.index, hwanted⟩
  · rw [h.entries_eq, h.planned.entries]
    exact nodup_symbols_sortEntries _
  · rw [h.entries_eq] at he
    obtain ⟨x, -, f, -, -, -, symbol, -, rfl⟩ := h.planned.of_mem_entries he
    rfl
  · rw [h.entries_eq] at he
    obtain ⟨x, -, f, hf, -, hexported, symbol, hsymbol, rfl⟩ := h.planned.of_mem_entries he
    rw [hexported.symbols] at hsymbol
    exact ⟨f, hf, rfl, (List.mem_filter.mp hsymbol).1, rfl⟩
  · refine ⟨plan.otherEntries.map (·.name), ?_⟩
    rw [hpoints, List.map_append, h.names_entries, h.entries_eq]
  · rw [h.parts.entryPoints] at hx
    obtain ⟨sf, -, rfl⟩ := List.mem_map.mp hx
    exact congrArg (·.workgroup) h.planned.config
  · exact (h.legal hp hnames).entryPoints x hx
  · have hnodup := h.nodup_names hp hnames
    rw [h.parts.functions, List.map_append] at hnodup
    rw [hpoints]
    exact hnodup.of_append_right

end Module

/-! A function that gives one, exported as `a.b` and as `a_b`. -/

def twoSpellings : Binary.Module where
  types := [⟨[], [0x7f]⟩]
  funcs := [0]
  exports := [⟨[0x61, 0x2e, 0x62], Binary.Export.funcKind, 0⟩,
    ⟨[0x61, 0x5f, 0x62], Binary.Export.funcKind, 0⟩]
  code := [⟨[], [0x41, 1, 0x0b]⟩]

def twoSpellingsProgram : Program := (Program.ofModule twoSpellings).toOption.getD default

def twoSpellingsGraph : CallGraph := (CallGraph.build twoSpellingsProgram).toOption.getD default

theorem coded_twoSpellings : (Program.ofModule twoSpellings).isOk = true
    ∧ (twoSpellingsProgram.funcs.all fun f => (twoSpellingsProgram.check f).isOk) = true
    ∧ (CallGraph.build twoSpellingsProgram).isOk = true := by
  decide +kernel

theorem read_twoSpellings : Program.ofModule twoSpellings = .ok twoSpellingsProgram :=
  eq_ok_getD coded_twoSpellings.1 default

theorem checked_twoSpellings : Checked twoSpellingsProgram :=
  fun f hf => eq_ok_unit (List.all_eq_true.mp coded_twoSpellings.2.1 f hf)

theorem plain_of_validate {m : Shader.Module} {e : Failure} (h : m.validate = .error e) :
    ∃ text, e = .plain text := by
  unfold Shader.Module.validate at h
  split at h
  · cases h
    exact ⟨_, rfl⟩
  · split at h
    · cases h
      exact ⟨_, rfl⟩
    · cases h

/-- A compilation for which there is a plan has room. -/
theorem hasRoom_of_plan (hp : p.Formed) (hchecked : Checked p) {g : CallGraph}
    (hg : CallGraph.build p = .ok g)
    (hplan : (Compile.plan config.withDefaults p g.analyze []).isOk = true) :
    HasRoom config p := by
  obtain ⟨⟨plan, hosts⟩, hrun⟩ := exists_of_isOk hplan
  have hu := unsupported_of_checked (c := config.withDefaults) hchecked
  obtain ⟨out, -, -, -, -, -, hcompile⟩ := compile_of_plan hp hu hg
    (by rw [skipped_eq_nil]; exact hrun)
  intro e he
  rw [hcompile, validated] at he
  cases hvalid : out.module.validate with
  | ok u =>
      rw [hvalid] at he
      cases he
  | error e' =>
      obtain ⟨text, rfl⟩ := plain_of_validate hvalid
      rw [hvalid] at he
      cases he
      rfl

theorem hasRoom_twoSpellings {exports : List String}
    (hplan : (Compile.plan (Config.withDefaults { exports }) twoSpellingsProgram
      twoSpellingsGraph.analyze []).isOk = true) : HasRoom { exports } twoSpellingsProgram :=
  hasRoom_of_plan (Program.formed_of_ofModule read_twoSpellings) checked_twoSpellings
    (eq_ok_getD coded_twoSpellings.2.2 default) hplan

/-- Of two exports that are spelled differently, both of a function that passes the check, the
names can be one, and then nothing is compiled. -/
theorem compile_refuses_twoSpellings :
    Program.ofModule twoSpellings = .ok twoSpellingsProgram ∧ Checked twoSpellingsProgram
      ∧ (twoSpellingsProgram.funcs.flatMap (·.exports)).Nodup
      ∧ ExportsExist {} twoSpellingsProgram ∧ HasRoom {} twoSpellingsProgram
      ∧ compile {} twoSpellingsProgram = .error (.failed sharedName) := by
  have hp := Program.formed_of_ofModule read_twoSpellings
  have hexports : ExportsExist {} twoSpellingsProgram := by
    intro name hname
    cases hname
  have hroom : HasRoom {} twoSpellingsProgram := hasRoom_twoSpellings (by decide +kernel)
  refine ⟨read_twoSpellings, checked_twoSpellings, by decide +kernel, hexports, hroom, ?_⟩
  obtain ⟨out, g, plan, direct, machines, entries, horigin, hskipped, hrun⟩ :=
    origin_of_checked hp checked_twoSpellings hexports hroom
  rw [hrun]
  refine horigin.validated_eq_error hp hskipped fun hnames => ?_
  have hshared : (twoSpellingsProgram.funcs.flatMap (·.exports)).any fun s =>
      (twoSpellingsProgram.funcs.flatMap (·.exports)).any fun s' =>
        s != s' && entryName s == entryName s' := by decide +kernel
  obtain ⟨s, hs, hshared⟩ := List.any_eq_true.mp hshared
  obtain ⟨s', hs', hshared⟩ := List.any_eq_true.mp hshared
  rw [Bool.and_eq_true, bne_iff_ne, beq_iff_eq] at hshared
  obtain ⟨f, hf, hs⟩ := List.mem_flatMap.mp hs
  obtain ⟨f', hf', hs'⟩ := List.mem_flatMap.mp hs'
  exact hshared.1 (hnames f hf f' hf' s hs s' hs' rfl rfl hshared.2)

/-- A checked program with room for its frames and blocks is compiled, with one entry point for
each export that is wanted, exactly if no two of these exports are given one name. -/
theorem compile_iff_namesDiffer {m : Binary.Module} (hread : Program.ofModule m = .ok p)
    (hchecked : Checked p) (hexports : ExportsExist config p) (hroom : HasRoom config p) :
    (NamesDiffer config p → ∃ out, compile config p = .ok out ∧ ServesExports config p out)
      ∧ (¬NamesDiffer config p → compile config p = .error (.failed sharedName)) := by
  have hp := Program.formed_of_ofModule hread
  obtain ⟨out, g, plan, direct, machines, entries, horigin, hskipped, hrun⟩ :=
    origin_of_checked hp hchecked hexports hroom
  refine ⟨fun hnames => ⟨out, ?_, horigin.servesExports hp hskipped hnames⟩, fun hnames => ?_⟩
  · rw [hrun, horigin.validated_eq hp hnames]
  · rw [hrun, horigin.validated_eq_error hp hskipped hnames]

/-- The theorem at the function with two exports, of which one is asked for. -/
theorem compile_iff_namesDiffer_twoSpellings :
    Program.ofModule twoSpellings = .ok twoSpellingsProgram ∧ Checked twoSpellingsProgram
      ∧ ExportsExist { exports := ["a.b"] } twoSpellingsProgram
      ∧ HasRoom { exports := ["a.b"] } twoSpellingsProgram
      ∧ ∃ out, compile { exports := ["a.b"] } twoSpellingsProgram = .ok out
        ∧ ServesExports { exports := ["a.b"] } twoSpellingsProgram out := by
  have hexports : ExportsExist { exports := ["a.b"] } twoSpellingsProgram := by
    intro name hname
    rw [List.mem_singleton.mp hname]
    have hany : twoSpellingsProgram.funcs.any (·.exports.contains (.ofText "a.b")) = true := by
      decide +kernel
    obtain ⟨f, hf, hexport⟩ := List.any_eq_true.mp hany
    exact ⟨f, hf, List.contains_iff_mem.mp hexport⟩
  have hroom : HasRoom { exports := ["a.b"] } twoSpellingsProgram :=
    hasRoom_twoSpellings (by decide +kernel)
  refine ⟨read_twoSpellings, checked_twoSpellings, hexports, hroom, ?_⟩
  refine (compile_iff_namesDiffer read_twoSpellings checked_twoSpellings hexports hroom).1 ?_
  -- Only one of the two exports is wanted.
  have hwanted : ∀ s ∈ twoSpellingsProgram.funcs.flatMap (·.exports),
      Config.wants { exports := ["a.b"] } s = true → s = .ofText "a.b" := by decide +kernel
  intro f hf f' hf' s hs s' hs' hwants hwants' _
  rw [hwanted s (List.mem_flatMap.mpr ⟨f, hf, hs⟩) hwants,
    hwanted s' (List.mem_flatMap.mpr ⟨f', hf', hs'⟩) hwants']

end Compile

end WasmShader
