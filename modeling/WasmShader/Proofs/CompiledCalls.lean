import WasmShader.Proofs.CallStack
import WasmShader.Proofs.SharedFrames

/-!
# Calls of a compiled module

The machines of a plan are all that is needed to run its functions with a stack of calls: what their
blocks call has a machine as well, and every one of them does what the body of its function does.
-/

namespace WasmShader

open Execution (FitsAll Datum)

/-- Of the functions of a list, the types that are declared at some places. -/
theorem eq_of_declared {types : List ValueType} {is : List Nat} {saved saved' : List ValueType}
    (h : List.Forall₂ (fun i t => types[i]? = some t) is saved)
    (h' : List.Forall₂ (fun i t => types[i]? = some t) is saved') : saved = saved' := by
  induction h generalizing saved' with
  | nil =>
      cases h'
      rfl
  | cons ht _ ih =>
      cases h' with
      | cons ht' hrest =>
          rw [ht] at ht'
          rw [Option.some.inj ht', ih hrest]

/-- The frame of the first block holds the parameters, and nothing else. -/
theorem Frames.types_first {m : Machine} {l : Layout} {words : Nat} {fr : Frames}
    (h : Frames.build m l words = .ok fr) (hfit : fr.Fit m l words) {b : Block}
    (hb : m.blocks[0]? = some b) (hentry : b.entry = []) {declared : List ValueType}
    (hlocals : m.func.locals = m.func.type.params ++ declared) :
    (fr.payload 0).types = m.func.type.params := by
  have hmachine := hfit.machine
  subst hmachine
  have hpl := hfit.formed.payload 0 b hb
  rw [hentry] at hpl
  obtain ⟨saved, hsaved, htypes⟩ := hpl.types
  rw [(Frames.saves_of_build h hb).first (hfit.formed.index 0 b hb), hlocals] at hsaved
  have hparams : List.Forall₂
      (fun i t => (fr.machine.func.type.params ++ declared)[i]? = some t)
      (List.range fr.machine.func.type.params.length) fr.machine.func.type.params := by
    refine List.forall₂_iff_get.mpr ⟨List.length_range, fun i hi hi' => ?_⟩
    rw [List.get_eq_getElem, List.get_eq_getElem, List.getElem_range,
      List.getElem?_append_left hi', List.getElem?_eq_getElem hi']
  rw [htypes, List.append_nil, eq_of_declared hsaved hparams]

section Runs

open Split Structured

variable {p : Program} {g : CallGraph} {f : Function} {hosts hosts' : HostTable} {m : Machine}
  {σ : Type}

/-- A machine that a checked function is split into does what its body does. -/
theorem Machine.split_runs (hp : p.Formed) (hg : CallGraph.build p = .ok g) (hf : f ∈ p.funcs)
    (hcheck : p.check f = .ok ()) (hhosts : hosts.Sound p)
    (hsplit : Machine.split p g.analyze hosts f = .ok (m, hosts')) {l : Layout} {oracle : Oracle σ}
    {st : Store σ} (horacle : oracle.Sound p l) (hst : st.Fits p l f) :
    ∃ body, f.body = .ok body ∧ runMachine p l oracle m st = evalBody p l oracle f body st := by
  obtain ⟨body, hbody, htyped⟩ := Program.typedSeq_of_check_function (hp.body f hf) hcheck
  obtain ⟨hknown, hlocals⟩ := hp.funcKnown f hf
  have hwalk : Walkable ⟨p, g.analyze, f⟩ :=
    ⟨hp, hknown, hlocals, fun fn h => Compile.isImport_of_directSafe hp hg h, hf⟩
  have hkept : CallsKept p (fun _ => True) (Body.instrs body) := fun _ _ _ _ _ _ => trivial
  obtain ⟨s, hwalked, -, -, -, hfirst, hcode⟩ :=
    Machine.split_walk hwalk hhosts hbody htyped hkept
  rw [hsplit] at hwalked
  cases hwalked
  have hindex (k : Nat) (b : Block) (hb : (s.machine f).blocks[k]? = some b) : b.index = k := by
    rw [State.machine, List.getElem?_mapIdx] at hb
    obtain ⟨d, -, rfl⟩ := Option.map_eq_some_iff.mp hb
    rfl
  obtain ⟨first, hzero, -⟩ := Option.map_eq_some_iff.mp hfirst
  have hblocks : BodyCode p f (s.machine f).block? body := by
    rw [show (s.machine f).block? = s.block? from funext (block?_machine s f)]
    exact hcode
  refine ⟨body, hbody, ?_⟩
  rw [runMachine_prune hindex hzero]
  exact runMachine_eq hp horacle hblocks hst

/-- With frames, it does what the function does. -/
theorem Machine.split_restores (hp : p.Formed) (hg : CallGraph.build p = .ok g) (hf : f ∈ p.funcs)
    (hcheck : p.check f = .ok ()) (hhosts : hosts.Sound p)
    (hsplit : Machine.split p g.analyze hosts f = .ok (m, hosts')) {l : Layout} {words : Nat}
    {fr : Frames} (hbuild : Frames.build m l words = .ok fr) {oracle : Oracle σ} {args : List Datum}
    {shared : Shared σ} (horacle : oracle.Sound p l) (hargs : FitsAll l f.type.params args)
    (hshared : p.GlobalsFit l shared.globals) :
    evalFunction p l oracle f args shared = Activation.run p oracle ⟨fr, 0, args, []⟩ shared := by
  obtain ⟨body, m', hosts'', hbody, hsplit', hfunc, hsound⟩ :=
    Machine.split_checked hp hg hf hcheck hhosts
  rw [hsplit] at hsplit'
  cases hsplit'
  have hst : Store.Fits p l f ⟨initialLocals l f args, shared⟩ :=
    ⟨initialLocals_fits (hp.funcLocals f hf) hargs, hshared⟩
  obtain ⟨body', hbody', hruns⟩ := Machine.split_runs hp hg hf hcheck hhosts hsplit horacle hst
  rw [hbody] at hbody'
  cases hbody'
  obtain ⟨b, hb, -⟩ := Option.map_eq_some_iff.mp hsound.first
  have hfirst := Frames.restored_first hbuild hb (hsound.index 0 b hb)
    (by rw [hfunc, hargs.length_eq]) []
  have hlength := fr.length_restored 0 (args ++ [])
  rw [List.append_nil, hfunc] at hfirst
  rw [Frames.machine_of_build hbuild, hfunc, List.append_nil, hfirst] at hlength
  have hsame : SameOn m.func.locals.length (liveSet m 0) ⟨initialLocals l f args, shared⟩
      { (⟨args, shared⟩ : Store σ) with locals := fr.restored 0 args } := by
    rw [hfirst, hfunc]
    exact ⟨hlength, hlength, fun _ _ => rfl, rfl⟩
  have halike : Option.Rel (EndsAlike fun _ st st' => st.shared = st'.shared)
      (runFrom p l oracle m 0 [] ⟨initialLocals l f args, shared⟩)
      (runRestoring p oracle fr 0 [] ⟨args, shared⟩) :=
    runRestoring_alike hbuild hsound.index (Machine.inward_of_split hbody hsplit) [] hsame
  rw [evalFunction_eq p l oracle hbody, ← hruns, Activation.run, ← eq_of_endsAlike halike]
  rfl

end Runs

namespace Compile

open Emit Structured

section Machinery

variable {config : Config} {p : Program} {g : CallGraph} {plan : Plan} {out : Compiled}
  {direct : List Shader.Function} {machines : List (List Shader.Function)}
  {entries : List Shader.Function}

/-- The machines are those that the functions are split into. -/
theorem splits_of_buildFrames (hp : p.Formed) (hg : CallGraph.build p = .ok g)
    (hcheck : ∀ f ∈ p.funcs, p.check f = .ok ()) {c : Config} {hosts hosts' : HostTable}
    {fns : List Nat} {frs : List Frames}
    (h : buildFrames c p g.analyze hosts fns = .ok (frs, hosts')) (hhosts : hosts.Sound p) :
    ∀ fr ∈ frs, ∃ hosts hosts' : HostTable, hosts.Sound p
      ∧ Machine.split p g.analyze hosts fr.machine.func = .ok (fr.machine, hosts') := by
  induction fns generalizing hosts frs with
  | nil =>
      cases h
      exact List.forall_mem_nil _
  | cons fn fns ih =>
      obtain ⟨f, hf, h⟩ := Program.bind_eq_ok h
      obtain ⟨⟨m, hosts₁⟩, hsplit, h⟩ := Program.bind_eq_ok h
      obtain ⟨fr, hfr, h⟩ := Program.bind_eq_ok h
      obtain ⟨⟨frs', hosts₂⟩, hrest, h⟩ := Program.bind_eq_ok h
      cases h
      have hmem : f ∈ p.funcs := by
        unfold funcAt Program.func? at hf
        split at hf
        · next f' heq =>
          cases hf
          split at heq
          · cases heq
          · exact List.mem_of_getElem? heq
        · cases hf
      obtain ⟨body, hbody, htyped⟩ :=
        Program.typedSeq_of_check_function (hp.body f hmem) (hcheck f hmem)
      obtain ⟨hknown, hlocals⟩ := hp.funcKnown f hmem
      have hwalk : Split.Walkable ⟨p, g.analyze, f⟩ :=
        ⟨hp, hknown, hlocals, fun fn h => isImport_of_directSafe hp hg h, hmem⟩
      have hkept : Split.CallsKept p (fun _ => True) (Body.instrs body) := fun _ _ _ _ _ _ => trivial
      obtain ⟨m', hosts', hsplit', hfunc, -, hsound, -⟩ :=
        Machine.split_sound hwalk hhosts hbody htyped hkept
      rw [hsplit] at hsplit'
      cases hsplit'
      refine List.forall_mem_cons.mpr ⟨⟨hosts, hosts₁, hhosts, ?_⟩, ih hrest hsound⟩
      rw [Frames.machine_of_build hfr, hfunc]
      exact hsplit

/-- The callees of a machine have machines. -/
theorem Origin.called (h : Origin config p out g plan direct machines entries) (hp : p.Formed)
    (hvalid : out.module.validate = .ok ()) {fr : Frames}
    (hmachine : Execution.IsMachined p plan.frames out fr) {b : Block} (hb : b ∈ fr.machine.blocks)
    {fn next : Nat} {params results : List ValueType} (hterm : b.term = .call fn params results next) :
    ∃ callee ∈ plan.frames, callee.machine.func.index = fn := by
  have hspace := h.addressSpace hp hvalid
  have hget := eq_ok_of_isOk ((hmachine.numbered b hb).callee fn params results next hterm)
  obtain ⟨info, hinfo, -, hplace⟩ :=
    (hspace.get?_eq_some _ _ _).mp (BlockNumbers.get_eq_ok.mp hget)
  obtain ⟨f, -, hemitted⟩ := hspace.emitted info hinfo
  cases hemitted with
  | @block fr' k b' hfr' _ hplace' _ =>
      rw [hplace] at hplace'
      exact ⟨fr', hfr', (Prod.mk.inj hplace').1.symm⟩
  | exit _ hplace' =>
      rw [hplace] at hplace'
      cases (Prod.mk.inj hplace').2

/-- The machines of a plan run the functions of its program. -/
theorem Origin.machinery (h : Origin config p out g plan direct machines entries) (hp : p.Formed)
    (hcheck : ∀ f ∈ p.funcs, p.check f = .ok ()) (hvalid : out.module.validate = .ok ())
    (hlinked : Execution.Linked p plan.frames out) :
    Machinery p out.layout (fun func => out.hosts.lookup? func.id = some func) plan.frames := by
  have hplanning := plan_eq_ok h.planning
  obtain ⟨hlayout, hstack⟩ := h.context_eq
  have hbuild := build_of_buildFrames hplanning.1
  have hsplit := splits_of_buildFrames hp h.graph hcheck hplanning.1 (.empty p _)
  refine
    { formed := hp
      layout := fun fr hfr => (hlinked.machined fr hfr).fit.layout
      laidOut := fun fr hfr => (hlinked.machined fr hfr).fit.formed
      typed := fun fr hfr b hb => ⟨_, _, (h.planned.built fr hfr).sound.typed b hb⟩
      func := fun fr hfr => func?_of_mem hp (h.planned.built fr hfr).func
      first := fun fr hfr => ?_
      calls := fun fr hfr b hb fn sig next hterm => ?_
      asks := fun fr hfr b hb func sig next hterm => ?_
      means := fun fr hfr σ oracle args shared horacle hargs hshared => ?_ }
  · have hbuilt := h.planned.built fr hfr
    obtain ⟨first, hfirst, hentry⟩ := Option.map_eq_some_iff.mp hbuilt.sound.first
    obtain ⟨declared, hlocals⟩ := hp.funcLocals _ hbuilt.func
    exact ⟨hbuilt.sound.first,
      Frames.types_first (hbuild fr hfr) hbuilt.fit hfirst hentry hlocals,
      (Frames.saves_of_build (hbuild fr hfr) hfirst).first (hbuilt.fit.formed.index 0 first hfirst)⟩
  · obtain ⟨params, results⟩ := sig
    have hcall : b.term = .call fn params results next := by
      generalize b.term = t at hterm
      cases t <;> cases hterm
      rfl
    exact h.called hp hvalid (hlinked.machined fr hfr) hb hcall
  · have hhost : b.term = .host func sig.params sig.results next := by
      generalize b.term = t at hterm
      cases t <;> cases hterm
      rfl
    exact (hlinked.machined fr hfr).asks b hb func _ _ next hhost
  · have hfunc := (h.planned.built fr hfr).func
    obtain ⟨hosts, hosts', hhosts, hsplits⟩ := hsplit fr hfr
    have hframes := hbuild fr hfr
    rw [hlayout] at hframes
    exact Machine.split_restores hp h.graph hfunc (hcheck _ hfunc) hhosts hsplits hframes horacle
      hargs hshared

end Machinery

end Compile

end WasmShader
