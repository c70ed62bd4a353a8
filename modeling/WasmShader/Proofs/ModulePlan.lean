import WasmShader.Compile.Basic
import WasmShader.Proofs.DirectSafety
import WasmShader.Proofs.FrameLayout
import WasmShader.Proofs.TypedEmission

/-!
# The plan of a module

Planning goes over the functions that are kept: those that are checked and reach no function
that is left out. Each that needs the machine is split into blocks, whose frames are laid out;
the blocks of all machines are numbered one after the other, and behind them the exit blocks.
Nothing can go wrong but that the stack is too small for a push, that there are more blocks than
numbers, or that an export asked for has no entry point.
-/

namespace WasmShader

open Emit

theorem Machine.Sound.mono {p : Program} {a : Analysis} {kept kept' : Nat → Prop}
    {hosts hosts' : List HostFunc} {m : Machine} (h : m.Sound p a kept hosts)
    (hkept : ∀ fn, kept fn → kept' fn) (hmore : hosts <+: hosts') : m.Sound p a kept' hosts' where
  index := h.index
  typed b hb :=
    let hb := h.typed b hb
    { hb with direct := fun i hi =>
        { hb.direct i hi with call := fun target hop himm =>
            let hcall := (hb.direct i hi).call target hop himm
            ⟨hcall.1, hcall.2.1, hkept _ hcall.2.2⟩ } }
  leads b hb :=
    ⟨fun hf args results next ht =>
        ((h.leads b hb).host hf args results next ht).imp_left (hmore.subset ·),
      fun callee args results next ht =>
        let hcall := (h.leads b hb).call callee args results next ht
        ⟨hkept _ hcall.1, hcall.2⟩⟩
  entries := h.entries
  first := h.first

namespace Compile

variable {c : Config} {p : Program} {g : CallGraph}

/-! ## Functions that are kept -/

/-- The functions that are not skipped have typed bodies and call no skipped ones. -/
structure Keeps (p : Program) (g : CallGraph) (skipped : List Nat) : Prop where
  checks : ∀ f ∈ p.funcs, f.index ∉ skipped → p.check f = .ok ()
  callees : ∀ fn target, fn ∉ skipped → target ∈ g.callees fn → target ∉ skipped

theorem skipped_eq (g : CallGraph) (unsupported : List (Nat × Failure)) :
    (skippedFunctions g unsupported).map (·.1) = g.transitiveCallers (unsupported.map (·.1)) := by
  rw [skippedFunctions, List.map_map]
  exact List.map_id' _

/-- A function that has been looked at is checked or on the list. -/
theorem check_or_unsupported {unsupported : List (Nat × Failure)}
    (h : unsupportedFunctions c p = .ok unsupported) {f : Function} (hf : f ∈ p.funcs) :
    p.check f = .ok () ∨ f.index ∈ unsupported.map (·.1) := by
  obtain ⟨looked, hlooked, h⟩ := Program.bind_eq_ok h
  cases h
  obtain ⟨k, hk⟩ := List.mem_iff_getElem?.mp hf
  obtain ⟨r, hr, hcheck⟩ := getElem?_of_forall₂ (forall₂_of_mapM hlooked) hk
  unfold checkFunction at hcheck
  split at hcheck
  · next u hu => exact .inl hu
  · split at hcheck
    · cases hcheck
      refine .inr (List.mem_map.mpr ⟨_, List.mem_filterMap.mpr ⟨_, List.mem_of_getElem? hr, rfl⟩, rfl⟩)
    · cases hcheck
  · cases hcheck

theorem keeps_of_unsupported (hg : g.Sound) {unsupported : List (Nat × Failure)}
    (h : unsupportedFunctions c p = .ok unsupported) :
    Keeps p g ((skippedFunctions g unsupported).map (·.1)) := by
  rw [skipped_eq]
  refine ⟨fun f hf hnot => (check_or_unsupported h hf).resolve_right fun hmem => hnot ?_,
    fun fn target hnot hcallee hskipped => hnot ?_⟩
  · exact (CallGraph.mem_transitiveCallers hg).mpr ⟨f.index, hmem, .refl⟩
  · obtain ⟨b, hb, hcalls⟩ := (CallGraph.mem_transitiveCallers hg).mp hskipped
    exact (CallGraph.mem_transitiveCallers hg).mpr ⟨b, hb, .head hcallee hcalls⟩

/-- What a function that is kept may lead to. -/
def LeadsTo (g : CallGraph) (skipped : List Nat) (fn target : Nat) : Prop :=
  target ∈ g.callees fn ∧ target ∉ skipped

/-- A call of a defined function in a body is an edge of the graph. -/
theorem mem_callees_of_instr (hp : p.Formed) (hg : CallGraph.build p = .ok g) {f : Function}
    (hf : f ∈ p.funcs) {body : Body} (hbody : f.body = .ok body) {i : Instr}
    (hi : i ∈ Body.instrs body) {target : UInt32} (hop : i.operation = .call)
    (himm : i.imm = .call target) (himport : p.isImport target.toNat = false) :
    target.toNat ∈ g.callees f.index := by
  refine CallGraph.mem_callees hp hg hf ?_ himport
  rw [hp.calls f hf body hbody]
  refine List.mem_filterMap.mpr ⟨i, hi, ?_⟩
  rw [Instr.callTarget?, hop, himm]
  rfl

theorem Keeps.leadsTo {skipped : List Nat} (h : Keeps p g skipped) (hp : p.Formed)
    (hg : CallGraph.build p = .ok g) {f : Function} (hf : f ∈ p.funcs)
    (hkept : f.index ∉ skipped) {body : Body} (hbody : f.body = .ok body) {i : Instr}
    (hi : i ∈ Body.instrs body) {target : UInt32} (hop : i.operation = .call)
    (himm : i.imm = .call target) (himport : p.isImport target.toNat = false) :
    LeadsTo g skipped f.index target.toNat := by
  have hcallee := mem_callees_of_instr hp hg hf hbody hi hop himm himport
  exact ⟨hcallee, h.callees _ _ hkept hcallee⟩

/-! ## Machines -/

/-- The machine of a function that is kept, with frames that fit the stack. -/
structure Built (c : Config) (p : Program) (g : CallGraph) (skipped : List Nat)
    (hosts : HostTable) (fr : Frames) : Prop where
  func : fr.machine.func ∈ p.funcs
  kept : fr.machine.func.index ∉ skipped
  sound : fr.machine.Sound p g.analyze (LeadsTo g skipped fr.machine.func.index) hosts.funcs
  fit : fr.Fit fr.machine c.layout c.stackWords.toNat

theorem Built.mono {skipped : List Nat} {hosts hosts' : HostTable} {fr : Frames}
    (h : Built c p g skipped hosts fr) (hmore : hosts.funcs <+: hosts'.funcs) :
    Built c p g skipped hosts' fr :=
  ⟨h.func, h.kept, h.sound.mono (fun _ h => h) hmore, h.fit⟩

theorem isImport_of_directSafe (hp : p.Formed) (hg : CallGraph.build p = .ok g) {fn : Nat}
    (h : g.analyze.directSafe fn = true) : p.isImport fn = false := by
  have horder :=
    ((CallGraph.mem_directFrom (List.contains_iff_mem.mp h)).resolve_left List.not_mem_nil).1
  have hnode := (CallGraph.mem_order (CallGraph.sound_of_build hp hg)).mp horder
  exact ((CallGraph.mem_nodes_iff hp.funcIndex hg).mp hnode).1

/-- A function that is kept is split, and its frames are laid out if the stack is large
enough. -/
theorem built_of_kept {skipped : List Nat} (hp : p.Formed) (hg : CallGraph.build p = .ok g)
    (hkeeps : Keeps p g skipped) {f : Function} (hf : f ∈ p.funcs) (hkept : f.index ∉ skipped)
    {hosts : HostTable} (hhosts : hosts.Sound p) :
    ∃ m hosts', Machine.split p g.analyze hosts f = .ok (m, hosts') ∧ m.func = f
      ∧ hosts'.Sound p ∧ hosts.funcs <+: hosts'.funcs ∧ hosts'.layout = hosts.layout
      ∧ ((∃ fr, Frames.build m c.layout c.stackWords.toNat = .ok fr ∧ fr.machine = m
          ∧ Built c p g skipped hosts' fr)
        ∨ ∃ e, Frames.build m c.layout c.stackWords.toNat = .error (.failed e)
          ∧ e.isCapacity = true) := by
  obtain ⟨body, hbody, htyped⟩ := Program.typedSeq_of_check_function
    (hp.body f hf) (hkeeps.checks f hf hkept)
  obtain ⟨hknown, hlocals⟩ := hp.funcKnown f hf
  obtain ⟨declared, hdeclared⟩ := hp.funcLocals f hf
  have hwalk : Split.Walkable ⟨p, g.analyze, f⟩ :=
    ⟨hp, hknown, hlocals, fun fn h => isImport_of_directSafe hp hg h, hf⟩
  have hcalls : Split.CallsKept p (LeadsTo g skipped f.index) (Body.instrs body) :=
    fun i hi target hop himm himport =>
      hkeeps.leadsTo hp hg hf hkept hbody hi hop himm himport
  obtain ⟨m, hosts', hsplit, hfunc, hm, hhosts', hmore, hlayout⟩ :=
    Machine.split_sound hwalk hhosts hbody htyped hcalls
  refine ⟨m, hosts', hsplit, hfunc, hhosts', hmore, hlayout, ?_⟩
  rcases Frames.build_total hm (hfunc ▸ hlocals)
    (by rw [hfunc, hdeclared, List.length_append]; omega) c.layout c.stackWords.toNat with
    ⟨fr, hfr, hfit⟩ | hcap
  · refine .inl ⟨fr, hfr, hfit.machine, ?_⟩
    have hmachine := hfit.machine
    subst hmachine
    exact ⟨hfunc ▸ hf, hfunc ▸ hkept, hfunc.symm ▸ hm, hfit⟩
  · exact .inr hcap

/-- The machines of functions that are kept, unless the stack is too small. -/
theorem buildFrames_total {skipped : List Nat} (hp : p.Formed) (hg : CallGraph.build p = .ok g)
    (hkeeps : Keeps p g skipped) {fns : List Nat}
    (hfns : ∀ fn ∈ fns, fn ∈ g.nodes ∧ fn ∉ skipped) {hosts : HostTable} (hhosts : hosts.Sound p) :
    (∃ frs hosts', buildFrames c p g.analyze hosts fns = .ok (frs, hosts')
      ∧ hosts'.Sound p ∧ hosts.funcs <+: hosts'.funcs ∧ hosts'.layout = hosts.layout
      ∧ frs.map (·.machine.func.index) = fns ∧ ∀ fr ∈ frs, Built c p g skipped hosts' fr)
    ∨ ∃ e, buildFrames c p g.analyze hosts fns = .error (.failed e) ∧ e.isCapacity = true := by
  induction fns generalizing hosts with
  | nil =>
      exact .inl ⟨[], hosts, rfl, hhosts, List.prefix_rfl, rfl, rfl, fun _ h => by cases h⟩
  | cons fn fns ih =>
      obtain ⟨hnode, hkept⟩ := hfns fn List.mem_cons_self
      have hprogram := CallGraph.program_of_build hg
      obtain ⟨f, hf, rfl⟩ : ∃ f ∈ p.funcs, f.index = fn := by
        rw [CallGraph.nodes, hprogram] at hnode
        exact List.mem_map.mp hnode
      have hat : funcAt p f.index = .ok f := by rw [funcAt, func?_of_mem hp hf]
      obtain ⟨m, hosts₁, hsplit, hfunc, hhosts₁, hmore₁, hlayout₁, hbuilt⟩ :=
        built_of_kept hp hg hkeeps hf hkept hhosts (c := c)
      have hrun : buildFrames c p g.analyze hosts (f.index :: fns)
          = (Frames.build m c.layout c.stackWords.toNat >>= fun fr =>
            buildFrames c p g.analyze hosts₁ fns >>= fun r => .ok (fr :: r.1, r.2)) := by
        rw [buildFrames, bind_eq_of_ok hat, bind_eq_of_ok hsplit]
        rfl
      rw [hrun]
      rcases hbuilt with ⟨fr, hfr, rfl, hfr'⟩ | ⟨e, he, hcap⟩
      · rw [bind_eq_of_ok hfr]
        rcases ih (fun x hx => hfns x (List.mem_cons_of_mem _ hx)) hhosts₁ with
          ⟨frs, hosts₂, hrest, hhosts₂, hmore₂, hlayout₂, hindex, hall⟩ | ⟨e, he, hcap⟩
        · refine .inl ⟨fr :: frs, hosts₂, by rw [hrest]; rfl, hhosts₂, hmore₁.trans hmore₂,
            hlayout₂.trans hlayout₁, ?_, List.forall_mem_cons.mpr ⟨hfr'.mono hmore₂, hall⟩⟩
          rw [List.map_cons, hindex, hfunc]
        · exact .inr ⟨e, by rw [he]; rfl, hcap⟩
      · exact .inr ⟨e, by rw [he]; rfl, hcap⟩

/-- The machines of a module, unless the stack is too small. -/
theorem buildMachines_total {skipped : List Nat} (hp : p.Formed) (hg : CallGraph.build p = .ok g)
    (hkeeps : Keeps p g skipped) (c : Config) :
    (∃ frs hosts, buildFrames c p g.analyze { layout := c.layout }
        (g.analyze.machineSet.filter fun fn => !skipped.contains fn) = .ok (frs, hosts)
      ∧ hosts.Sound p ∧ hosts.layout = c.layout
      ∧ frs.map (·.machine.func.index)
        = g.analyze.machineSet.filter (fun fn => !skipped.contains fn)
      ∧ ∀ fr ∈ frs, Built c p g skipped hosts fr)
    ∨ ∃ e, buildFrames c p g.analyze { layout := c.layout }
        (g.analyze.machineSet.filter fun fn => !skipped.contains fn) = .error (.failed e)
      ∧ e.isCapacity = true := by
  have hfns : ∀ fn ∈ g.analyze.machineSet.filter fun fn => !skipped.contains fn,
      fn ∈ g.nodes ∧ fn ∉ skipped := by
    intro fn hfn
    obtain ⟨hmachine, hkept⟩ := List.mem_filter.mp hfn
    refine ⟨?_, ?_⟩
    · exact (CallGraph.mem_order (CallGraph.sound_of_build hp hg)).mp (List.mem_filter.mp hmachine).1
    · simpa using hkept
  have hempty : ({ layout := c.layout } : HostTable).Sound p :=
    ⟨fun k h hk => (by cases hk), fun h hh => (by cases hh), fun h hh => (by cases hh), .nil⟩
  rcases buildFrames_total (c := c) hp hg hkeeps hfns hempty with
    ⟨frs, hosts, hframes, hhosts, -, hlayout, hindex, hbuilt⟩ | hcap
  · exact .inl ⟨frs, hosts, hframes, hhosts, hlayout, hindex, hbuilt⟩
  · exact .inr hcap

/-! ## Numbers -/

/-- The numbers of blocks from one on, in order. -/
def numbersFrom (start n : Nat) : List BlockId := (List.range' start n).map .ofNat

theorem length_numbersFrom (start n : Nat) : (numbersFrom start n).length = n := by
  rw [numbersFrom, List.length_map, List.length_range']

theorem numbersFrom_append (start m n : Nat) :
    numbersFrom start m ++ numbersFrom (start + m) n = numbersFrom start (m + n) := by
  rw [numbersFrom, numbersFrom, numbersFrom, ← List.map_append, List.range'_append_1]

theorem clamp_le (limit : Nat) : Allocator.clamp limit ≤ BlockId.maxBlocks := by
  unfold Allocator.clamp
  split
  · exact Nat.le_refl _
  · next hne =>
    rw [Bool.or_eq_true, not_or, decide_eq_true_eq, decide_eq_true_eq] at hne
    omega

/-- The numbers taken between two states of the allocator. -/
structure Takes (alloc alloc' : Allocator) (ids : List BlockId) : Prop where
  order : ids = numbersFrom alloc.next ids.length
  next : alloc'.next = alloc.next + ids.length
  limit : alloc'.limit = alloc.limit
  bound : alloc.next ≤ alloc.limit → alloc'.next ≤ alloc.limit

theorem Takes.nil (alloc : Allocator) : Takes alloc alloc [] := ⟨rfl, rfl, rfl, fun h => h⟩

theorem Takes.append {alloc alloc' alloc'' : Allocator} {ids ids' : List BlockId}
    (h : Takes alloc alloc' ids) (h' : Takes alloc' alloc'' ids') :
    Takes alloc alloc'' (ids ++ ids') := by
  refine ⟨?_, ?_, h'.limit.trans h.limit, fun hle => h.limit ▸ h'.bound (h.limit ▸ h.bound hle)⟩
  · rw [List.length_append, ← numbersFrom_append, ← h.order, ← h.next, ← h'.order]
  · rw [h'.next, h.next, List.length_append, Nat.add_assoc]

/-- The step ends as described, or there are not enough numbers. -/
def Counts {α : Type} (x : Numbering α) (alloc : Allocator) (Q : α → Allocator → Prop) : Prop :=
  (∃ a alloc', x alloc = .ok (a, alloc') ∧ Q a alloc')
    ∨ ∃ e, x alloc = .error (.failed e) ∧ e.isCapacity = true

namespace Counts

variable {α β : Type} {x : Numbering α} {alloc : Allocator} {Q : α → Allocator → Prop}

theorem pure {a : α} (h : Q a alloc) : Counts (Pure.pure a) alloc Q := .inl ⟨a, alloc, rfl, h⟩

theorem bind {k : α → Numbering β} {R : β → Allocator → Prop} (hx : Counts x alloc Q)
    (hk : ∀ a alloc', Q a alloc' → Counts (k a) alloc' R) : Counts (x >>= k) alloc R := by
  have hbind : (x >>= k) alloc = (x alloc >>= fun r => k r.1 r.2) := rfl
  rcases hx with ⟨a, alloc', ha, hQ⟩ | ⟨e, he, hcap⟩
  · rw [Counts, hbind, ha]
    exact hk a alloc' hQ
  · exact .inr ⟨e, by rw [hbind, he]; rfl, hcap⟩

theorem mono {Q' : α → Allocator → Prop} (h : Counts x alloc Q)
    (himp : ∀ a alloc', Q a alloc' → Q' a alloc') : Counts x alloc Q' := by
  rcases h with ⟨a, alloc', ha, hQ⟩ | h
  · exact .inl ⟨a, alloc', ha, himp a alloc' hQ⟩
  · exact .inr h

end Counts

/-- A look at something that is there takes no number. -/
theorem lift_counts {α : Type} {x : Except Abort α} {a : α} (h : x = .ok a) (alloc : Allocator) :
    Counts (liftM x : Numbering α) alloc fun b alloc' => a = b ∧ alloc = alloc' := by
  refine .inl ⟨a, alloc, ?_, rfl, rfl⟩
  change (x >>= fun a => Pure.pure (a, alloc)) = _
  rw [h]
  rfl

theorem takeNumber_counts (alloc : Allocator) :
    Counts takeNumber alloc fun id alloc' => Takes alloc alloc' [id] := by
  have hrun : takeNumber alloc = liftFailure alloc.take := rfl
  rw [Counts, hrun]
  unfold Allocator.take
  split
  · exact .inr ⟨_, rfl, rfl⟩
  · next hlt => exact .inl ⟨_, _, rfl, rfl, rfl, rfl, fun _ => Nat.lt_of_not_le hlt⟩

/-- Steps that each take numbers take them one after the other. -/
theorem mapM_counts {α β : Type} {k : α → Numbering β} {ids : β → List BlockId}
    {R : α → β → Prop} {xs : List α}
    (h : ∀ a ∈ xs, ∀ alloc,
      Counts (k a) alloc fun b alloc' => Takes alloc alloc' (ids b) ∧ R a b)
    (alloc : Allocator) :
    Counts (xs.mapM k) alloc fun ys alloc' =>
      Takes alloc alloc' (ys.flatMap ids) ∧ List.Forall₂ R xs ys := by
  induction xs generalizing alloc with
  | nil => exact .pure ⟨.nil alloc, .nil⟩
  | cons x xs ih =>
      obtain ⟨hx, hxs⟩ := List.forall_mem_cons.mp h
      rw [List.mapM_cons]
      refine .bind (hx alloc) fun y alloc₁ hy => ?_
      refine .bind (ih hxs alloc₁) fun ys alloc₂ hys => .pure ⟨?_, .cons hy.2 hys.2⟩
      exact hy.1.append hys.1

/-- What is recorded of a block of a machine. -/
def blockInfo (fr : Frames) (b : Block) (id : BlockId) : BlockInfo :=
  { id, name := blockName id, func := fr.machine.func.index, index := some b.index
    term := b.term.kindName, payload := (fr.payload b.index).types
    frameWords := (fr.payload b.index).frameWords }

/-- What is recorded of the exit block of a function. -/
def exitInfo (l : Layout) (f : Function) (id : BlockId) : BlockInfo :=
  { id, name := blockName id, func := f.index, term := "exit"
    payload := f.type.results, frameWords := l.sizeOf f.type.results + 1 }

/-- The numbered blocks of a machine. -/
def IsMachine (fr : Frames) (infos : List BlockInfo) : Prop :=
  List.Forall₂ (fun b i => i = blockInfo fr b i.id) fr.machine.blocks infos

theorem numberMachine_counts {fr : Frames} (hframes : fr.Formed) (alloc : Allocator) :
    Counts (numberMachine fr) alloc fun infos alloc' =>
      Takes alloc alloc' (infos.map (·.id)) ∧ IsMachine fr infos := by
  have hblock (b : Block) (hb : b ∈ fr.machine.blocks) (alloc : Allocator) :
      Counts (numberBlock fr b) alloc fun i alloc' =>
        Takes alloc alloc' [i.id] ∧ i = blockInfo fr b i.id := by
    have hpayload : entry fr.payloads b.index = .ok (fr.payload b.index) := by
      obtain ⟨i, hi⟩ := List.mem_iff_getElem?.mp hb
      rw [hframes.index i b hi]
      exact hframes.entry_payload (List.getElem?_eq_some_iff.mp hi).1
    refine .bind (takeNumber_counts alloc) fun id alloc₁ hid => ?_
    refine .bind (lift_counts hpayload alloc₁) ?_
    rintro _ _ ⟨rfl, rfl⟩
    exact .pure ⟨hid, rfl⟩
  refine (mapM_counts hblock alloc).mono fun infos alloc' h => ?_
  rw [← List.map_eq_flatMap] at h
  exact h

/-- The function gets an exit block: it needs the machine, and an export of it is wanted. -/
def hasExit (c : Config) (a : Analysis) (f : Function) : Bool :=
  f.exports.any c.wants && a.needsMachine f.index

/-- A function with its entry points and its exit block. -/
structure IsExported (c : Config) (a : Analysis) (f : Function) (x : Exported) : Prop where
  func : x.func = f
  symbols : x.symbols = f.exports.filter c.wants
  info : ∀ i, x.exit = some i → i = exitInfo c.layout f i.id
  exit : x.exit.isSome = hasExit c a f

theorem isEmpty_filter_wants (c : Config) (f : Function) :
    (f.exports.filter c.wants).isEmpty = !f.exports.any c.wants := by
  rw [Bool.eq_iff_iff, List.isEmpty_iff, Bool.not_eq_true', List.any_eq_false,
    List.filter_eq_nil_iff]

theorem exportFunction_counts (c : Config) (a : Analysis) {f : Function}
    (hknown : AllKnown f.type.results) (alloc : Allocator) :
    Counts (exportFunction c a f) alloc fun x alloc' =>
      Takes alloc alloc' (x.exit.toList.map (·.id)) ∧ IsExported c a f x := by
  unfold exportFunction
  dsimp only
  rw [isEmpty_filter_wants, ← Bool.not_and]
  by_cases hexit : hasExit c a f = true
  · have hsome : ¬((!(f.exports.any c.wants && a.needsMachine f.index)) = true) := by
      rw [Bool.not_eq_true', Bool.not_eq_false]
      exact hexit
    rw [if_neg hsome]
    refine .bind (Q := fun (i : BlockInfo) alloc' =>
      Takes alloc alloc' [i.id] ∧ i = exitInfo c.layout f i.id) ?_
      fun i alloc' hi => .pure ⟨hi.1, rfl, rfl, fun j hj => ?_, hexit.symm⟩
    · refine .bind (takeNumber_counts alloc) fun id alloc₁ hid => ?_
      refine .bind (lift_counts (c.layout.size_eq_ok hknown) alloc₁) ?_
      rintro _ _ ⟨rfl, rfl⟩
      exact .pure ⟨hid, rfl⟩
    · cases hj
      exact hi.2
  · rw [Bool.not_eq_true] at hexit
    have hnone : (!(f.exports.any c.wants && a.needsMachine f.index)) = true := by
      rw [Bool.not_eq_true']
      exact hexit
    rw [if_pos hnone]
    exact .pure ⟨.nil alloc, rfl, rfl, fun i hi => (by cases hi), hexit.symm⟩

/-- All blocks are numbered from zero on, unless there are more than the limit. -/
theorem numberAll_total (c : Config) (a : Analysis) {frames : List Frames}
    (hframes : ∀ fr ∈ frames, fr.Formed) {funcs : List Function}
    (hknown : ∀ f ∈ funcs, AllKnown f.type.results) :
    (∃ machines exported, numberAll c a frames funcs = .ok (machines, exported)
      ∧ List.Forall₂ IsMachine frames machines
      ∧ List.Forall₂ (IsExported c a) funcs exported
      ∧ ∃ n ≤ Allocator.clamp c.maxBlocks,
        (machines.flatten ++ exported.filterMap (·.exit)).map (·.id) = numbersFrom 0 n)
    ∨ ∃ e, numberAll c a frames funcs = .error (.failed e) ∧ e.isCapacity = true := by
  have hrun : numberAll c a frames funcs
      = ((frames.mapM numberMachine) (.new c.maxBlocks) >>= fun r =>
        (funcs.mapM (exportFunction c a)) r.2 >>= fun r' => .ok (r.1, r'.1)) := rfl
  rw [hrun]
  rcases mapM_counts (fun fr hfr => numberMachine_counts (hframes fr hfr)) (.new c.maxBlocks) with
    ⟨machines, alloc, hmachines, htakes, hall⟩ | ⟨e, he, hcap⟩
  · rw [bind_eq_of_ok hmachines]
    rcases mapM_counts (fun f hf => exportFunction_counts c a (hknown f hf)) alloc with
      ⟨exported, alloc', hexported, htakes', hall'⟩ | ⟨e, he, hcap⟩
    · refine .inl ⟨machines, exported, by rw [hexported]; rfl, hall, hall', ?_⟩
      have hboth := htakes.append htakes'
      have hids : (machines.flatten ++ exported.filterMap (·.exit)).map (·.id)
          = machines.flatMap (·.map (·.id))
            ++ exported.flatMap fun x => x.exit.toList.map (·.id) := by
        rw [List.map_append, List.map_flatten, List.flatMap_def, List.filterMap_eq_flatMap_toList,
          List.map_flatMap]
      refine ⟨_, ?_, hids.trans hboth.order⟩
      have hbound := hboth.bound (Nat.zero_le _)
      rw [hboth.next] at hbound
      exact Nat.le_trans (Nat.le_add_left ..) hbound
    · exact .inr ⟨e, by rw [he]; rfl, hcap⟩
  · exact .inr ⟨e, by rw [he]; rfl, hcap⟩

/-! ## Plans -/

/-- What holds of the plan for the functions of a program that are not skipped. -/
structure PlanSound (c : Config) (p : Program) (g : CallGraph) (skipped : List Nat) (plan : Plan)
    (hosts : HostTable) : Prop where
  context : plan.context = ⟨p, g.analyze, c.layout, .ofProgram p c.layout, c.stackWords⟩
  config : plan.config = c
  leftOut : plan.skipped = skipped
  table : hosts.Sound p ∧ hosts.layout = c.layout
  built : ∀ fr ∈ plan.frames, Built c p g skipped hosts fr
  frames : plan.frames.map (·.machine.func.index)
    = g.analyze.machineSet.filter fun fn => !skipped.contains fn
  machines : List.Forall₂ IsMachine plan.frames plan.machines
  exported : List.Forall₂ (IsExported c g.analyze)
    (p.funcs.filter fun f => !skipped.contains f.index) plan.exported
  ids : ∃ n ≤ Allocator.clamp c.maxBlocks, plan.blocks.map (·.id) = numbersFrom 0 n
  entries : plan.entries = sortEntries (plan.exported.flatMap Exported.entries)
  lane : plan.lane = ⟨c.stackWords,
    (ioWords c.layout (plan.exported.flatMap Exported.entries)).toUInt32,
    (GlobalLayout.ofProgram p c.layout).words.toUInt32⟩

theorem requireExports_cases (c : Config) (entries : List Entry) :
    requireExports c entries = .ok ()
      ∨ ∃ name ∈ c.exports, (∀ e ∈ entries, e.symbol ≠ .ofText name)
        ∧ requireExports c entries = .error (.notFound .emit "export" (Text.quote name)) := by
  unfold requireExports
  split
  · exact .inl rfl
  · next name hname =>
    refine .inr ⟨name, List.mem_of_find?_eq_some hname, fun e he heq => ?_, rfl⟩
    have hnone := List.find?_some hname
    rw [Bool.not_eq_true', ← Bool.not_eq_true] at hnone
    exact hnone (List.any_eq_true.mpr ⟨e, he, beq_iff_eq.mpr heq⟩)

/-- An export asked for that no function has that is kept. -/
def Missing (c : Config) (p : Program) (skipped : List Nat) (e : Failure) : Prop :=
  ∃ name ∈ c.exports, e = .notFound .emit "export" (Text.quote name)
    ∧ ∀ f ∈ p.funcs, Symbol.ofText name ∈ f.exports → f.index ∈ skipped

theorem missing_of_entries {skipped : List Nat} {exported : List Exported}
    (hexported : List.Forall₂ (IsExported c g.analyze)
      (p.funcs.filter fun f => !skipped.contains f.index) exported) {name : String}
    (hname : name ∈ c.exports)
    (hnone : ∀ e ∈ exported.flatMap Exported.entries, e.symbol ≠ .ofText name) :
    Missing c p skipped (.notFound .emit "export" (Text.quote name)) := by
  refine ⟨name, hname, rfl, fun f hf hexports => ?_⟩
  by_contra hkept
  have hmem : f ∈ p.funcs.filter fun f => !skipped.contains f.index := by
    rw [List.mem_filter, Bool.not_eq_true', ← Bool.not_eq_true, List.contains_iff_mem]
    exact ⟨hf, hkept⟩
  obtain ⟨k, hk⟩ := List.mem_iff_getElem?.mp hmem
  obtain ⟨x, hx, hisExported⟩ := getElem?_of_forall₂ hexported hk
  have hwants : c.wants (.ofText name) = true := by
    rw [Config.wants, Bool.or_eq_true]
    exact .inr (List.any_eq_true.mpr ⟨name, hname, beq_self_eq_true _⟩)
  refine hnone ⟨.ofText name, entryName (.ofText name), x.func.type, x.func.index,
    x.exit.map (·.id)⟩ ?_ rfl
  refine List.mem_flatMap.mpr ⟨x, List.mem_of_getElem? hx, List.mem_map.mpr ⟨_, ?_, rfl⟩⟩
  rw [hisExported.symbols, List.mem_filter]
  exact ⟨hexports, hwants⟩

/-- The mutable globals and what they start with have known types. -/
theorem known_of_globals (hp : p.Formed) :
    AllKnown ((p.globals.filter (·.isMutable)).flatMap fun gl => [gl.type, gl.init.type]) := by
  intro t ht
  obtain ⟨gl, hgl, ht⟩ := List.mem_flatMap.mp ht
  obtain ⟨hknown, hinit⟩ := hp.globalKnown gl (List.mem_filter.mp hgl).1
  rw [hinit] at ht
  simp only [List.mem_cons, List.not_mem_nil, or_false, or_self] at ht
  rw [ht]
  exact hknown

/-- The entry points are of functions of the program. -/
theorem known_of_entries (hp : p.Formed) {funcs : List Function} (hfuncs : funcs ⊆ p.funcs)
    {exported : List Exported} (h : List.Forall₂ (IsExported c g.analyze) funcs exported) :
    AllKnown ((exported.flatMap Exported.entries).flatMap fun e =>
      e.sig.params ++ e.sig.results) := by
  intro t ht
  obtain ⟨e, he, ht⟩ := List.mem_flatMap.mp ht
  obtain ⟨x, hx, he⟩ := List.mem_flatMap.mp he
  obtain ⟨symbol, -, rfl⟩ := List.mem_map.mp he
  obtain ⟨k, hk⟩ := List.mem_iff_getElem?.mp hx
  obtain ⟨f, hf, hexported⟩ := getElem?_of_forall₂ h.flip hk
  have hknown := (hp.funcKnown f (hfuncs (List.mem_of_getElem? hf))).1
  rw [hexported.func] at ht
  exact hknown.params.append hknown.results t ht

/-- Planning succeeds, unless a capacity is too small or an export asked for is missing. -/
theorem plan_total {skipped : List Nat} (hp : p.Formed) (hg : CallGraph.build p = .ok g)
    (hkeeps : Keeps p g skipped) (c : Config) :
    (∃ pl hosts, plan c p g.analyze skipped = .ok (pl, hosts) ∧ PlanSound c p g skipped pl hosts)
    ∨ ∃ e, plan c p g.analyze skipped = .error (.failed e)
      ∧ (e.isCapacity = true ∨ Missing c p skipped e) := by
  let fns := g.analyze.machineSet.filter fun fn => !skipped.contains fn
  let funcs := p.funcs.filter fun f => !skipped.contains f.index
  let rest (frames : List Frames) (hosts : HostTable)
      (r : List (List BlockInfo) × List Exported) : Plan × HostTable :=
    ({ context := ⟨p, g.analyze, c.layout, .ofProgram p c.layout, c.stackWords⟩
       config := c, skipped, frames, machines := r.1, exported := r.2
       entries := sortEntries (r.2.flatMap Exported.entries)
       lane := ⟨c.stackWords, (ioWords c.layout (r.2.flatMap Exported.entries)).toUInt32,
         (GlobalLayout.ofProgram p c.layout).words.toUInt32⟩ }, hosts)
  have hrun : plan c p g.analyze skipped
      = (buildFrames c p g.analyze { layout := c.layout } fns >>= fun b =>
        numberAll c g.analyze b.1 funcs >>= fun r =>
        Layout.requireKnown ((r.2.flatMap Exported.entries).flatMap fun e =>
          e.sig.params ++ e.sig.results) >>= fun _ =>
        liftFailure (requireExports c (r.2.flatMap Exported.entries)) >>= fun _ =>
        Layout.requireKnown ((p.globals.filter (·.isMutable)).flatMap fun gl =>
          [gl.type, gl.init.type]) >>= fun _ =>
        .ok (rest b.1 b.2 r)) := rfl
  rw [hrun]
  rcases buildMachines_total hp hg hkeeps c with
    ⟨frames, hosts, hframes, hhosts, hlayout, hindex, hbuilt⟩ | ⟨e, he, hcap⟩
  · rw [bind_eq_of_ok hframes]
    have hfuncs : funcs ⊆ p.funcs := List.filter_subset_self ..
    rcases numberAll_total c g.analyze (fun fr hfr => (hbuilt fr hfr).fit.formed)
      (fun f hf => (hp.funcKnown f (hfuncs hf)).1.results) with
      ⟨machines, exported, hnumbers, hmachines, hexported, hids⟩ | ⟨e, he, hcap⟩
    · rw [bind_eq_of_ok hnumbers,
        bind_eq_of_ok (Layout.requireKnown_eq_ok (known_of_entries hp hfuncs hexported))]
      rcases requireExports_cases c (exported.flatMap Exported.entries) with
        hrequire | ⟨name, hname, hnone, hrequire⟩
      · refine .inl ⟨(rest frames hosts (machines, exported)).1, hosts, ?_, ?_⟩
        · rw [hrequire]
          exact bind_eq_of_ok (Layout.requireKnown_eq_ok (known_of_globals hp))
        exact ⟨rfl, rfl, rfl, ⟨hhosts, hlayout⟩, hbuilt, hindex, hmachines, hexported, hids, rfl, rfl⟩
      · exact .inr ⟨_, by rw [hrequire]; rfl, .inr (missing_of_entries hexported hname hnone)⟩
    · exact .inr ⟨e, by rw [he]; rfl, .inl hcap⟩
  · exact .inr ⟨e, by rw [he]; rfl, .inl hcap⟩

end Compile

end WasmShader
