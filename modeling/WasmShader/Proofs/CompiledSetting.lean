import WasmShader.Proofs.CompiledCalls
import WasmShader.Proofs.HostMemory

/-!
# Code of a compiled module

What the correctness of block code asks for holds in a compiled module: the module has the direct
forms of all functions that are kept, and the helpers for numeric instructions; every block is typed
for its machine; and what a block pushes fits an empty stack.
-/

namespace WasmShader

open Execution (Env Datum FitsAll)

section Pushes

open Emit

/-- A machine that fits the stack has no block that pushes more than an empty one holds. -/
theorem Frames.Fit.pushFits {fr : Frames} {m : Machine} {l : Layout} {bc : BlockContext}
    (h : fr.Fit m l bc.stackWords.toNat) (hframes : bc.frames = fr) {b : Block}
    (hb : b ∈ m.blocks) : PushFits bc b.term := by
  subst hframes
  have hpush := h.pushes b hb
  refine ⟨fun e he => Nat.le_trans (Frames.frameWords_le he) hpush,
    fun args results next hterm => ?_⟩
  obtain ⟨callee, htransfer⟩ : ∃ callee, b.term.transfer? = some (callee, ⟨args, results⟩, next) := by
    rcases hterm with ⟨fn, hterm⟩ | ⟨func, hterm⟩
    · exact ⟨.func fn, by rw [hterm]; rfl⟩
    · exact ⟨.host func, by rw [hterm]; rfl⟩
  rw [(Frames.pushWords_transfer bc.frames htransfer).1] at hpush
  exact hpush

end Pushes

namespace Emit

open Structured

variable {σ : Type} {ctx : Context} {kept : Nat → Prop} {env : Env} {oracle : Oracle σ}
  {f : Function}

/-- Code that calls functions that are kept finds their direct forms. -/
theorem setting_of_directForms (hctx : Checked ctx kept) (henv : HasDirectForms ctx kept env)
    (horacle : Answers ctx.program env.exe.layout kept oracle) {leads : Nat → Prop}
    (hleads : ∀ target, leads target → kept target) : Setting ctx leads f env oracle := by
  refine ⟨henv.layout, by rw [hctx.globals, henv.layout], henv.numeric, henv.notCancelled,
    hctx.formed, horacle.sound, fun target sig himport hcan htarget hsig => ?_⟩
  rw [Analysis.canCallDirect, Bool.and_eq_true] at hcan
  rw [Program.signature?, himport, if_neg Bool.false_ne_true] at hsig
  obtain ⟨callee, hcallee, rfl⟩ := Option.map_eq_some_iff.mp hsig
  have hmem := mem_of_func? hcallee
  have hindex := index_of_func? hctx.formed hcallee
  subst hindex
  obtain ⟨fn, hfn, hname, hform⟩ :=
    exists_directForm hctx henv horacle hmem (hleads _ htarget) hcan.1
  obtain ⟨hfunction, hnotBlock⟩ := henv.forms callee hmem (hleads _ htarget) hcan.1 fn hfn
  rw [hname] at hfunction hnotBlock
  exact ⟨fn, hfunction, hnotBlock, hform⟩

end Emit

namespace Compile

open Emit Execution Structured

section Setting

variable {config : Config} {p : Program} {g : CallGraph} {plan : Plan} {out : Compiled}
  {direct : List Shader.Function} {machines : List (List Shader.Function)}
  {entries : List Shader.Function} {env : Env}

/-- The function is kept: it has not been left out. -/
def Compiled.Keeps (out : Compiled) (fn : Nat) : Prop := fn ∉ out.skipped.map (·.1)

/-- The context that all code of the module is emitted in. -/
def Compiled.context (out : Compiled) : Context :=
  ⟨out.program, out.analysis, out.layout, .ofProgram out.program out.layout, out.stackWords⟩

theorem Origin.context (h : Origin config p out g plan direct machines entries) :
    plan.context = out.context := by
  have hstack : out.stackWords = config.withDefaults.stackWords := congrArg (·.stackWords) h.eq
  rw [Compiled.context, h.planned.context, h.program_eq, h.analysis_eq, h.layout_eq, hstack]

theorem Origin.checked (h : Origin config p out g plan direct machines entries) (hp : p.Formed)
    (hcheck : ∀ f ∈ p.funcs, p.check f = .ok ()) : Checked out.context out.Keeps where
  formed := by
    change out.program.Formed
    rw [h.program_eq]
    exact hp
  checks f hf _ := by
    have hprogram : out.context.program = p := h.program_eq
    rw [hprogram] at hf ⊢
    exact hcheck f hf
  calls f hf hkept target htarget himport := by
    have hprogram : out.context.program = p := h.program_eq
    rw [hprogram] at hf himport
    exact h.keeps.callees _ _ hkept (CallGraph.mem_callees hp h.graph hf htarget himport)
  analysis := ⟨g, by
    change CallGraph.build out.program = .ok g
    rw [h.program_eq]
    exact h.graph, h.analysis_eq⟩
  globals := rfl

/-- The module has the direct forms of the functions that are kept. -/
theorem Origin.hasDirectForms (h : Origin config p out g plan direct machines entries)
    (hp : p.Formed) (hvalid : out.module.validate = .ok ()) (hrunnable : Runnable out.toExecutable)
    (henv : env.exe = out.toExecutable) (hcancelled : env.cancelled = false) :
    HasDirectForms out.context out.Keeps env := by
  have hnames := Shader.Module.nodup_of_validate hvalid
  have hfunction {f : Shader.Function} (hf : f ∈ out.module.functions) :
      env.exe.module.function? f.name = some f := by
    rw [henv]
    exact Shader.Module.function?_of_names hnames hf
  have hunnumbered {name : String} (hname : stem name ≠ ['b', 'l']) :
      env.exe.blockNamed? name = none := by
    rw [henv]
    exact hrunnable.unnumbered name hname
  refine
    { layout := by rw [henv]; rfl
      numeric := ⟨fun f hf => hfunction ?_, fun f hf => hunnumbered ?_⟩
      notCancelled := hcancelled
      forms := fun f hf hkept hsafe fn hfn => ?_ }
  · rw [h.parts.functions]
    simp only [List.append_assoc]
    exact List.mem_append_left _ hf
  · exact (by decide : ∀ f ∈ numericFunctions, stem f.name ≠ ['b', 'l']) f hf
  · have hprogram : out.context.program = p := h.program_eq
    have hanalysis : out.context.analysis = g.analyze := h.analysis_eq
    rw [hprogram] at hf
    rw [hanalysis] at hsafe
    have horder : f.index ∈ g.analyze.order.filter fun fn => !(out.skipped.map (·.1)).contains fn := by
      rw [List.mem_filter, Bool.not_eq_true', ← Bool.not_eq_true, List.contains_iff_mem]
      exact ⟨(CallGraph.mem_order (CallGraph.sound_of_build hp h.graph)).mpr
        (mem_nodes_of_mem h.graph hf), hkept⟩
    obtain ⟨sf, hsf, f', hf', hindex, -, hcode⟩ :=
      exists_of_forall₂_left (h.parts.directs h.planned hp h.graph) horder
    have hfind := func?_of_mem hp hf'
    rw [hindex, func?_of_mem hp hf] at hfind
    cases hfind
    rw [h.context, hfn] at hcode
    cases hcode
    refine ⟨hfunction ?_, hunnumbered ?_⟩
    · rw [h.parts.functions]
      simp only [List.append_assoc]
      exact List.mem_append_right _ (List.mem_append_left _ hsf)
    · rw [(name_of_directFunction hfn).1, stem_directName]
      decide

/-- The code of every block finds what it calls. -/
theorem Origin.setting {σ : Type} {oracle : Oracle σ}
    (h : Origin config p out g plan direct machines entries) (hp : p.Formed)
    (hcheck : ∀ f ∈ p.funcs, p.check f = .ok ()) (hvalid : out.module.validate = .ok ())
    (hrunnable : Runnable out.toExecutable) (henv : env.exe = out.toExecutable)
    (hcancelled : env.cancelled = false)
    (horacle : Emit.Answers p out.layout out.Keeps oracle) {fr : Frames} (hfr : fr ∈ plan.frames) :
    ∃ kept, Setting (out.blockContext fr).toContext kept fr.machine.func env oracle
      ∧ (∀ b ∈ fr.machine.blocks, b.Typed out.program out.analysis kept fr.machine)
      ∧ AloofFrom out.program oracle out.analysis kept fr.machine.func.index := by
  have hleads (target : Nat)
      (ht : LeadsTo g (out.skipped.map Prod.fst) fr.machine.func.index target) : out.Keeps target :=
    ht.2
  rw [← h.program_eq] at horacle
  refine ⟨_, setting_of_directForms (h.checked hp hcheck)
    (h.hasDirectForms hp hvalid hrunnable henv hcancelled) ?_ hleads, fun b hb => ?_,
    aloofFrom_of_answers (h.checked hp hcheck) horacle hleads _⟩
  · rw [henv]
    exact horacle
  · rw [h.program_eq, h.analysis_eq]
    exact (h.planned.built fr hfr).sound.typed b hb

end Setting

end Compile

end WasmShader
