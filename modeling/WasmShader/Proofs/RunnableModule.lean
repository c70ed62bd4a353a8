import WasmShader.Proofs.CompiledModule
import WasmShader.Proofs.Lockstep

/-!
# Compiled modules that run

What an invocation relies on: the functions of a compiled module are found by their names, the
code behind the start of an entry point is lawful, and an entry point that runs the dispatcher
goes with one that runs it again. What kind of function a name is of is told by its stem.
-/

namespace WasmShader

open Emit Compile
open Shader (CallSite)

namespace Execution

/-- A call of a direct form or of a helper for numeric instructions. -/
def DirectSite (c : CallSite) : Prop := stem c.func ∈ [['i'], ['f']]

/-- A call of a function that runs once the regions have been found: a direct form, a helper, a
block or the dispatcher. -/
def InnerSite (c : CallSite) : Prop := stem c.func ∈ [['i'], ['f'], ['b', 'l'], ['b', 'r']]

theorem DirectSite.inner {c : CallSite} (h : DirectSite c) : InnerSite c :=
  List.mem_append_left [['b', 'l'], ['b', 'r']] h

/-- The words of a lane in each region. -/
def regionSize (x : Executable) : Region → Nat
  | .stack => LaneStack.headerWords + x.stackWords.toNat
  | .io => x.ioWords.toNat
  | .globals => x.globalWords.toNat

/-- The code of an entry point: it calls a direct form, or runs the dispatcher, which can then be
run again. -/
def IsEntryCode (x : Executable) (e : Entry) (f : Shader.Function) : Prop :=
  e.exit = none ∧ f = directEntry x.layout e.shader (directName e.func) e.sig
  ∨ (∃ exit first, e.exit = some exit
      ∧ f = machineEntry x.layout e.shader e.sig first exit x.stackWords)
    ∧ x.module.function? resumeName = some resumeEntry

/-- The module has the code that invocations run. -/
structure Runnable (x : Executable) : Prop where
  privates : x.module.privates = Emit.privates
  setup : x.module.function? setupName
    = some (setupFunction ⟨x.stackWords, x.ioWords, x.globalWords⟩)
  dispatcher : x.module.function? dispatcherName
    = some (Emit.dispatcher (x.blocks.map fun b => (b.id, b.name)))
  resume : ∀ f, x.module.function? resumeName = some f → f = resumeEntry
  unnumbered : ∀ name, stem name ≠ ['b', 'l'] → x.blockNamed? name = none
  entry : ∀ e ∈ x.entries, ∃ f, x.module.function? e.shader = some f ∧ IsEntryCode x e f
  blocks : ∀ b ∈ x.blocks, stem b.name = ['b', 'l']
  inner : Lawful x.module InnerSite fun _ => True
  direct : Lawful x.module DirectSite (· = globalsBuffer)

end Execution

namespace Compile

open Execution

variable {config : Config} {p : Program} {g : CallGraph} {plan : Plan} {out : Compiled}
  {direct : List Shader.Function} {machines : List (List Shader.Function)}
  {entries : List Shader.Function}

theorem DirectCall.site {skipped : List Nat} {fn : Nat} {c : CallSite}
    (h : DirectCall p g skipped fn c) : DirectSite c := by
  cases h with
  | add => exact List.mem_cons_self
  | sub => exact List.mem_cons_self
  | direct =>
      rw [DirectSite, stem_directName]
      exact List.mem_cons_of_mem _ List.mem_cons_self

theorem mem_of_function? {m : Shader.Module} {name : String} {f : Shader.Function}
    (h : m.function? name = some f) : f ∈ m.functions ∧ f.name = name := by
  have hname := List.find?_some h
  exact ⟨List.mem_reverse.mp (List.mem_of_find?_eq_some h), beq_iff_eq.mp hname⟩

theorem PlanSound.stem_shader {c : Config} {skipped : List Nat} {hosts : HostTable}
    (h : PlanSound c p g skipped plan hosts) {e : Entry} (he : e ∈ plan.entries) :
    stem e.shader = ['e'] := by
  obtain ⟨x, -, f, -, -, -, symbol, -, rfl⟩ := h.of_mem_entries he
  exact stem_entryName symbol

theorem PlanSound.stem_block {c : Config} {skipped : List Nat} {hosts : HostTable}
    (h : PlanSound c p g skipped plan hosts) {b : BlockInfo} (hb : b ∈ plan.blocks) :
    stem b.name = ['b', 'l'] := by
  rw [h.name_of_mem_blocks hb]
  exact stem_blockName b.id

/-- What a function of a compiled module is: its kind is told by its name, and it is lawful unless
it is about finding the regions. -/
inductive Kind (out : Compiled) (plan : Plan) (f : Shader.Function) : Prop
  | numeric : f ∈ numericFunctions → Kind out plan f
  | direct : stem f.name = ['f'] → f.Lawful DirectSite (· = globalsBuffer) → Kind out plan f
  | block : stem f.name = ['b', 'l'] → f.Lawful DirectSite (fun _ => True) → Kind out plan f
  | setup : f = setupFunction plan.lane → Kind out plan f
  | dispatcher : f = Emit.dispatcher (plan.blocks.map fun b => (b.id, b.name)) → Kind out plan f
  | entry : stem f.name = ['e'] → Kind out plan f
  | other : f = resumeEntry ∨ f = emptyEntry → Kind out plan f

theorem Origin.kind (h : Origin config p out g plan direct machines entries) (hp : p.Formed)
    {f : Shader.Function} (hf : f ∈ out.module.functions) : Kind out plan f := by
  rw [h.parts.functions] at hf
  simp only [List.mem_append, List.mem_cons, List.not_mem_nil, or_false] at hf
  rcases hf with ((((hf | hf) | hf) | hf) | hf | hf) | hf | hf
  · exact .numeric hf
  · obtain ⟨fn, -, f', hf', rfl, hkept, hsf⟩ := exists_of_forall₂_left
      (h.parts.directs h.planned hp h.graph).flip hf
    have hlawful := h.planned.direct_lawful hp h.graph h.keeps hf' hkept hsf
    refine .direct ?_ (hlawful.mono (fun _ => DirectCall.site) fun _ => id)
    rw [(name_of_directFunction hsf).1]
    exact stem_directName _
  · obtain ⟨-, -, fr, hfr, b, hb, hsf⟩ := mem_machines_serves h.parts hf
    have hlawful := h.planned.block_lawful hp h.graph hfr hb hsf
    obtain ⟨id, -, hname, -⟩ := name_of_blockFunction hsf
    refine .block ?_ (hlawful.mono (fun _ => DirectCall.site) fun _ _ => trivial)
    rw [hname]
    exact stem_blockName id
  · obtain ⟨b, hb, rfl⟩ := List.mem_map.mp hf
    exact .block (h.planned.stem_block (List.mem_append_right _ hb))
      (exitBlock_lawful trivial trivial _ _ _)
  · exact .setup hf
  · exact .dispatcher hf
  · obtain ⟨e, he, hsf⟩ := exists_of_forall₂_left h.parts.isEntry.flip hf
    refine .entry ?_
    rw [(h.planned.isEntry he hsf).name]
    exact h.planned.stem_shader he
  · exact .other (mem_otherEntries hf)

theorem Origin.inner (h : Origin config p out g plan direct machines entries) (hp : p.Formed) :
    Lawful out.module InnerSite fun _ => True := by
  intro c hc f hf
  obtain ⟨hmem, hname⟩ := mem_of_function? hf
  rw [InnerSite, ← hname] at hc
  cases h.kind hp hmem with
  | numeric hmem => exact numericFunctions_lawful f hmem
  | direct _ hlawful => exact hlawful.mono (fun _ => DirectSite.inner) fun _ _ => trivial
  | block _ hlawful => exact hlawful.mono (fun _ => DirectSite.inner) fun _ _ => trivial
  | setup heq => exact absurd (heq ▸ hc : stem setupName ∈ _) (by decide)
  | dispatcher heq =>
      subst heq
      refine dispatcher_lawful fun x hx => ?_
      obtain ⟨b, hb, rfl⟩ := List.mem_map.mp hx
      rw [InnerSite, h.planned.stem_block hb]
      decide
  | entry hstem => exact absurd (hstem ▸ hc) (by decide)
  | other hother => rcases hother with rfl | rfl <;> exact absurd hc (by decide)

theorem Origin.directs (h : Origin config p out g plan direct machines entries) (hp : p.Formed) :
    Lawful out.module DirectSite (· = globalsBuffer) := by
  intro c hc f hf
  obtain ⟨hmem, hname⟩ := mem_of_function? hf
  rw [DirectSite, ← hname] at hc
  cases h.kind hp hmem with
  | numeric hmem => exact numericFunctions_lawful f hmem
  | direct _ hlawful => exact hlawful
  | block hstem _ => exact absurd (hstem ▸ hc) (by decide)
  | setup heq => exact absurd (heq ▸ hc : stem setupName ∈ _) (by decide)
  | dispatcher heq => exact absurd (heq ▸ hc : stem dispatcherName ∈ _) (by decide)
  | entry hstem => exact absurd (hstem ▸ hc) (by decide)
  | other hother => rcases hother with rfl | rfl <;> exact absurd hc (by decide)

/-- Where there is a machine to enter, it can be entered again. -/
theorem Origin.resume_mem (h : Origin config p out g plan direct machines entries)
    (hp : p.Formed) {e : Entry} (he : e ∈ plan.entries) {exit : BlockId}
    (hexit : e.exit = some exit) :
    resumeEntry ∈ plan.otherEntries := by
  obtain ⟨x, -, f, hf, hkept, hx, symbol, -, rfl⟩ := h.planned.of_mem_entries he
  obtain ⟨info, hinfo, -⟩ := Option.map_eq_some_iff.mp hexit
  have hmachine : g.analyze.needsMachine f.index = true := by
    have hsome := hx.exit
    rw [hinfo, hasExit] at hsome
    exact (Bool.and_eq_true_iff.mp hsome.symm).2
  have hmem : f.index ∈ g.analyze.machineSet.filter fun fn => !(out.skipped.map (·.1)).contains fn :=
    mem_machineSet_filter.mpr ⟨(CallGraph.mem_order (CallGraph.sound_of_build hp h.graph)).mpr
      (mem_nodes_of_mem h.graph hf), hmachine, hkept⟩
  rw [← h.planned.frames] at hmem
  obtain ⟨fr, hfr, -⟩ := List.mem_map.mp hmem
  have hframes : (!plan.frames.isEmpty) = true := by
    cases hnil : plan.frames with
    | nil => rw [hnil] at hfr; cases hfr
    | cons _ _ => rfl
  rw [Plan.otherEntries, if_pos hframes]
  exact List.mem_singleton_self _

/-- The code of an entry point. -/
theorem Origin.isEntryCode (h : Origin config p out g plan direct machines entries)
    (hp : p.Formed) (hfind : ∀ f ∈ out.module.functions, out.module.function? f.name = some f)
    {e : Entry} (he : e ∈ plan.entries) :
    ∃ f, out.module.function? e.shader = some f ∧ IsEntryCode out.toExecutable e f := by
  have hfunctions := h.parts.functions
  obtain ⟨f, hf, hsf⟩ := exists_of_forall₂_left h.parts.isEntry he
  have hname := (h.planned.isEntry he hsf).name
  refine ⟨f, ?_, ?_⟩
  · rw [← hname]
    refine hfind f ?_
    rw [hfunctions]
    exact List.mem_append_right _ (List.mem_append_left _ hf)
  · have hlayout : out.layout = plan.context.layout := by
      rw [h.eq, h.planned.context]
      rfl
    have hwords : out.stackWords = plan.context.stackWords := by
      rw [h.eq, h.planned.context]
      rfl
    obtain ⟨_, -, hsf⟩ := Program.bind_eq_ok hsf
    rw [IsEntryCode, hlayout, hwords]
    cases hexit : e.exit with
    | none =>
        rw [hexit] at hsf
        cases hsf
        exact .inl ⟨rfl, rfl⟩
    | some exit =>
        rw [hexit] at hsf
        obtain ⟨first, -, hsf⟩ := Program.bind_eq_ok hsf
        cases hsf
        refine .inr ⟨⟨exit, first, rfl, rfl⟩, hfind resumeEntry ?_⟩
        rw [hfunctions]
        exact List.mem_append_right _ (List.mem_append_right _ (h.resume_mem hp he hexit))

/-- A compiled module has the code that invocations run. -/
theorem runnable_of_compile (hp : p.Formed) (h : compile config p = .ok out) :
    Runnable out.toExecutable := by
  obtain ⟨-, g, plan, direct, machines, entries, -, h, -, hvalid⟩ := compile_eq_ok hp h
  have hfind (f : Shader.Function) (hf : f ∈ out.module.functions) :
      out.module.function? f.name = some f :=
    Shader.Module.function?_of_names (Shader.Module.nodup_of_validate hvalid) hf
  have hfixed {f : Shader.Function} (hf : f ∈ [setupFunction plan.lane,
      Emit.dispatcher (plan.blocks.map fun b => (b.id, b.name))]) : f ∈ out.module.functions := by
    rw [h.parts.functions]
    exact List.mem_append_left _ (List.mem_append_right _ hf)
  have hblocks : out.blocks = plan.blocks := by rw [h.eq]; rfl
  have hlane : plan.lane = ⟨out.stackWords, out.ioWords, out.globalWords⟩ := by
    have hstack : plan.lane.stack = config.withDefaults.stackWords := by rw [h.planned.lane]
    rw [h.eq, assemble, ← hstack]
  refine
    { privates := h.parts.privates
      setup := ?_
      dispatcher := ?_
      resume := fun f hf => ?_
      unnumbered := fun name hname => ?_
      entry := fun e he => h.isEntryCode hp hfind ?_
      blocks := fun b hb => h.planned.stem_block (hblocks ▸ hb)
      inner := h.inner hp
      direct := h.directs hp }
  · rw [← hlane]
    exact hfind _ (hfixed List.mem_cons_self)
  · rw [hblocks]
    exact hfind _ (hfixed (List.mem_cons_of_mem _ List.mem_cons_self))
  · obtain ⟨hmem, hname⟩ := mem_of_function? hf
    have hstem := congrArg stem hname
    cases h.kind hp hmem with
    | numeric hmem =>
        simp only [numericFunctions, List.mem_cons, List.not_mem_nil, or_false] at hmem
        rcases hmem with rfl | rfl <;> exact absurd hname (by decide)
    | direct hkind | block hkind | entry hkind => exact absurd (hkind ▸ hstem) (by decide)
    | setup heq => exact absurd (heq ▸ hname : setupName = _) (by decide)
    | dispatcher heq => exact absurd (heq ▸ hname : dispatcherName = _) (by decide)
    | other hother =>
        rcases hother with rfl | rfl
        · rfl
        · exact absurd hname (by decide)
  · rw [Executable.blockNamed?, List.find?_eq_none.mpr, Option.map_none]
    intro b hb hand
    rw [Bool.and_eq_true, beq_iff_eq] at hand
    refine hname ?_
    rw [← hand.1]
    exact h.planned.stem_block (hblocks ▸ hb)
  · have hentries : out.entries = plan.entries := by rw [h.eq]; rfl
    exact hentries ▸ he

end Compile

end WasmShader
