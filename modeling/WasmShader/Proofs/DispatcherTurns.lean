import WasmShader.Proofs.Pauses
import WasmShader.Proofs.Polling
import WasmShader.Proofs.SituationWords
import WasmShader.Proofs.StackStages
import WasmShader.Proofs.StepLimit

/-!
# Turns of the dispatcher

In front of a block the dispatcher looks at the header and at the number on top of the stack
(`meaning_looking_top`), and then it runs the block with that number. So a round of its loop is a step
of the calls under way, until the host is asked or the last call has come back
(`dispatcher_meets`).
-/

namespace WasmShader

open Compile Emit
open Execution (Datum Env FitsAll storedAll callMeaning meaning stmtMeaning looking running)

namespace Emit

/-! ## Looking at the stack -/

/-- The dispatcher is running: the bases are found, and it has two variables. -/
structure Dispatching (t : Execution.State) : Prop extends Based t where
  vars : ∃ number sp : UInt32, t.vars = [(numberVar, .ofU32 number), (spVar, .ofU32 sp)]

section Looking

variable {env : Env} {t : Execution.State} {words : List UInt32}

theorem Dispatching.withVars (h : Dispatching t) (number sp : UInt32) :
    Dispatching { t with vars := [(numberVar, .ofU32 number), (spVar, .ofU32 sp)] } :=
  ⟨h.toBased.of_sizes rfl rfl fun _ => rfl, number, sp, rfl⟩

/-- The bases are not hidden. -/
theorem hidden_of_dispatching {number sp : UInt32}
    (h : t.vars = [(numberVar, .ofU32 number), (spVar, .ofU32 sp)]) :
    ∀ v ∈ privates, t.vars.lookup v.name = none := by
  rw [h]
  intro v hv
  simp only [privates, List.mem_cons, List.not_mem_nil, or_false] at hv
  rcases hv with rfl | rfl | rfl | rfl <;> rfl

/-- A word of the stack is read. -/
theorem Based.eval_load (h : Based t) (l : Layout) {place : Shader.Expr} {idx : UInt32}
    (hplace : Execution.eval l t place = .ok (.ofU32 idx)) {j : Nat} {w : UInt32}
    (hidx : idx = t.lane.base .stack + j.toUInt32)
    (hw : (t.lane.words .stack).toList[j]? = some w) :
    Execution.eval l t (.load stackBuffer place) = .ok (.ofU32 w) := by
  rw [Array.getElem?_toList] at hw
  have hj := (Array.getElem?_eq_some_iff.mp hw).1
  rw [Execution.eval, hplace]
  change Execution.State.load t stackBuffer idx = _
  rw [Execution.State.load, Execution.Lane.locate_eq (h.addressable .stack) rfl hj hidx]
  change Except.ok (Datum.ofU32 ((t.lane.words .stack).getD j 0)) = _
  rw [Array.getD_eq_getD_getElem?, hw]
  rfl

theorem stmtMeaning_stopIf {cond : Shader.Expr} {c : Datum}
    (h : Execution.eval env.exe.layout t cond = .ok c) :
    stmtMeaning env (stopIf cond) t
      = some (.ok (if c.truth then .leave dispatchLabel else .next), t) := by
  rw [stopIf, Execution.stmtMeaning_ifElse h]
  split
  · rw [Execution.meaning_singleton, Execution.stmtMeaning_leave]
  · exact Execution.meaning_nil

theorem meaning_cons_leave {st : Shader.Stmt} {rest : List Shader.Stmt} {label : String}
    {t' : Execution.State} (h : stmtMeaning env st t = some (.ok (.leave label), t')) :
    meaning env (st :: rest) t = some (.ok (.leave label), t') := by
  rw [Execution.meaning_cons, h]
  rfl

/-- The dispatcher goes on behind the trap code, as there is none, and reads the stack pointer. -/
theorem meaning_looking (h : Dispatching t) (hwords : InUse (t.lane.words .stack) words)
    (rest : List Shader.Stmt) : ∃ number, meaning env
      (stopIf (Shader.Expr.isNonzero (.load stackBuffer trapPlace)) :: readSp :: rest) t
      = meaning env rest
        { t with vars := [(numberVar, .ofU32 number), (spVar, .ofU32 words.length.toUInt32)] } := by
  obtain ⟨number, sp, hvars⟩ := h.vars
  obtain ⟨back, hback⟩ := hwords
  have hheader (l : Layout) : Execution.eval l t (.var headerBase)
      = .ok (.ofU32 (t.lane.base .stack)) :=
    Execution.State.lookup_of_privates
      (hidden_of_dispatching hvars ⟨headerBase, .u32⟩ (by decide)) h.header
  have htrap : Execution.eval env.exe.layout t (.load stackBuffer trapPlace) = .ok (.ofU32 0) :=
    h.toBased.eval_load _ (Execution.eval_offset (hheader _) _) rfl (by rw [hback]; rfl)
  have hcond : Execution.eval env.exe.layout t (Shader.Expr.isNonzero (.load stackBuffer trapPlace))
      = .ok (.ofBool false) := by
    rw [Shader.Expr.isNonzero, Execution.eval, htrap]
    rfl
  have hsp : Execution.eval env.exe.layout t (.load stackBuffer (.var headerBase))
      = .ok (.ofU32 words.length.toUInt32) :=
    h.toBased.eval_load _ (hheader _) (j := 0) (UInt32.add_zero _).symm (by rw [hback]; rfl)
  have hset : t.assign? spVar (.ofU32 words.length.toUInt32) = some
      { t with vars := [(numberVar, .ofU32 number), (spVar, .ofU32 words.length.toUInt32)] } := by
    rw [Execution.State.assign?, hvars]
    rfl
  refine ⟨number, ?_⟩
  rw [Execution.meaning_cons_next (stmtMeaning_stopIf hcond), readSp,
    Execution.meaning_cons_next (Execution.stmtMeaning_assign hsp hset)]

/-- On an empty stack the dispatcher stops. -/
theorem meaning_looking_empty (h : Dispatching t) (hwords : InUse (t.lane.words .stack) []) :
    ∃ vars, Dispatching { t with vars }
      ∧ meaning env looking t = some (.ok (.leave dispatchLabel), { t with vars }) := by
  obtain ⟨number, hrun⟩ := meaning_looking h hwords
    [stopIf (.binary .eq (.var spVar) (.u32 0)),
      .assign numberVar (.load stackBuffer (dataAt 0xffffffff)),
      stopIf (.binary .ge (.var numberVar) (.u32 BlockId.hostBit))]
  refine ⟨_, h.withVars number ([] : List UInt32).length.toUInt32, ?_⟩
  rw [looking, hrun]
  exact meaning_cons_leave (stmtMeaning_stopIf (c := .ofBool true) rfl)

/-- On another the dispatcher reads the number on top, and stops if that is of a host function. -/
theorem meaning_looking_top (env : Env) (h : Dispatching t) {below : List UInt32} {w : UInt32}
    (hwords : InUse (t.lane.words .stack) (below ++ [w])) (hsmall : below.length + 1 < 2 ^ 32) :
    ∃ vars, Dispatching { t with vars } ∧ vars.lookup numberVar = some (.ofU32 w)
      ∧ meaning env looking t = some (.ok (if BlockId.hostBit ≤ w then .leave dispatchLabel else .next),
        { t with vars }) := by
  obtain ⟨number, hrun⟩ := meaning_looking h hwords
    [stopIf (.binary .eq (.var spVar) (.u32 0)),
      .assign numberVar (.load stackBuffer (dataAt 0xffffffff)),
      stopIf (.binary .ge (.var numberVar) (.u32 BlockId.hostBit))]
  rw [List.length_append, List.length_singleton] at hrun
  generalize hsp : (below.length + 1).toUInt32 = sp at hrun
  have hsp' : sp.toNat = below.length + 1 := by rw [← hsp, Execution.toNat_toUInt32 hsmall]
  have hne : (sp == 0) = false := by
    rw [beq_eq_false_iff_ne]
    rintro rfl
    cases hsp'
  have hdispatching := h.withVars number sp
  obtain ⟨back, hback⟩ := hwords
  have hdata : Execution.eval env.exe.layout
      { t with vars := [(numberVar, .ofU32 number), (spVar, .ofU32 sp)] } (.var dataBase)
        = .ok (.ofU32 (t.lane.base .stack + 2)) :=
    Execution.State.lookup_of_privates rfl h.data
  have htop : Execution.eval env.exe.layout
      { t with vars := [(numberVar, .ofU32 number), (spVar, .ofU32 sp)] }
        (.load stackBuffer (dataAt 0xffffffff)) = .ok (.ofU32 w) := by
    refine hdispatching.toBased.eval_load _ (j := 2 + below.length)
      (Execution.eval_offset (Execution.eval_sum hdata rfl) _) ?_ ?_
    · have hone : (1 : Nat).toUInt32 + 0xffffffff = 0 := rfl
      rw [← hsp, toUInt32_add, toUInt32_add 2, UInt32.add_assoc, UInt32.add_assoc _ _ 0xffffffff, hone,
        UInt32.add_zero, UInt32.add_assoc]
      rfl
    · change (t.lane.words .stack).toList[2 + below.length]? = _
      rw [hback, List.append_assoc, Nat.add_comm, List.getElem?_cons_succ, List.getElem?_cons_succ,
        List.getElem?_append_right (Nat.le_refl _), Nat.sub_self]
      rfl
  refine ⟨[(numberVar, .ofU32 w), (spVar, .ofU32 sp)], h.withVars w sp, rfl, ?_⟩
  rw [looking, hrun, Execution.meaning_cons_next (stmtMeaning_stopIf (c := .ofBool false) (by
    rw [← hne]; rfl)), Execution.meaning_cons_next (Execution.stmtMeaning_assign htop rfl),
    Execution.meaning_singleton, stmtMeaning_stopIf (c := .ofBool (BlockId.hostBit ≤ w)) rfl]
  by_cases hhost : BlockId.hostBit ≤ w
  · rw [if_pos hhost, decide_eq_true hhost]
    rfl
  · rw [if_neg hhost, decide_eq_false hhost]
    rfl

end Looking

/-! ## Running a block -/

section Running

variable {env : Env} {t t' : Execution.State}

theorem stmtMeaning_callOnly {name : String} {f : Shader.Function}
    (hf : env.exe.module.function? name = some f)
    (hbefore : Execution.Exec.outcome (Execution.beforeCall env name) t = some (.ok (), t'))
    (hresults : ∀ got s, callMeaning env f [] t' = some (.ok got, s) → got = []) :
    stmtMeaning env (callOnly name) t
      = (callMeaning env f [] t').map fun e => (e.1.map fun _ => .next, e.2) := by
  rw [callOnly, Execution.stmtMeaning_call hf hbefore (by rw [Execution.evalAll]; rfl)]
  cases hcall : callMeaning env f [] t' with
  | none => rfl
  | some e =>
      obtain ⟨r, s⟩ := e
      cases r with
      | error e => rfl
      | ok got =>
          obtain rfl := hresults got s hcall
          rfl

/-- A block has been counted: no words have changed. -/
structure Counts (t t' : Execution.State) : Prop where
  dispatching : Dispatching t'
  privates : t'.privates = t.privates
  lane : ∃ steps trace, t'.lane = { t.lane with steps, trace }

theorem counts_recorded (env : Env) (id : BlockId) (h : Dispatching t) :
    Counts t (Execution.Watched.recorded env id (Execution.Watched.counted t)) := by
  have hcounts {steps : Nat} {trace : List (BlockId × UInt32)} :
      Counts t { t with lane := { t.lane with steps, trace } } :=
    ⟨⟨h.toBased.of_sizes rfl rfl fun r => by cases r <;> rfl, h.vars⟩, rfl, _, _, rfl⟩
  unfold Execution.Watched.recorded
  split <;> exact hcounts

theorem Counts.withVars {vars : Execution.Vars} (h : Counts { t with vars } t') : Counts t t' :=
  ⟨h.dispatching, h.privates, h.lane⟩

theorem outcome_dispatch (hsteps : env.maxSteps = 0) (hcancelled : env.cancelled = false)
    (id : BlockId) : Execution.Exec.outcome (Execution.Exec.dispatch env id) t
      = some (.ok (), Execution.Watched.recorded env id (Execution.Watched.counted t)) := by
  rw [Execution.Exec.outcome, Execution.Watched.ending_dispatch hcancelled, hsteps]
  rfl

variable {p : Program} {frames : List Frames} {out : Compiled} {id : BlockId} {fn : Shader.Function}

/-- Among the cases of the dispatcher, that of a block is found by its number. -/
theorem find?_cases (hlinked : Execution.Linked p frames out) {b : BlockInfo} (hb : b ∈ out.blocks) :
    ((out.blocks.map fun b => (b.id, b.name)).map fun (id, name) =>
        Shader.Case.mk [id.val] [callOnly name]).find? (·.values.contains b.id.val)
      = some ⟨[b.id.val], [callOnly b.name]⟩ := by
  rw [List.map_map, List.find?_map]
  refine Option.map_eq_some_iff.mpr ⟨b, ?_, rfl⟩
  cases hfind : out.blocks.find? _ with
  | none =>
      refine absurd ?_ (List.find?_eq_none.mp hfind b hb)
      exact List.contains_iff_mem.mpr (List.mem_singleton_self _)
  | some b' =>
      have hvalue := List.mem_singleton.mp (List.contains_iff_mem.mp (List.find?_some hfind :))
      have hid : b'.id = b.id := (congrArg BlockId.mk hvalue).symm
      rw [List.inj_on_of_nodup_map hlinked.ids (List.mem_of_find?_eq_some hfind) hb hid]

/-- The block with the number is counted and run. -/
theorem meaning_running (hlinked : Execution.Linked p frames out) (hexe : env.exe = out.toExecutable)
    (hsteps : env.maxSteps = 0) (hcancelled : env.cancelled = false) (ht : Dispatching t)
    (hruns : Execution.Runs out id fn) (hnumber : t.vars.lookup numberVar = some (.ofU32 id.val)) :
    ∃ t', Counts t t' ∧ ((∀ got s, callMeaning env fn [] t' = some (.ok got, s) → got = []) →
      meaning env [running (out.blocks.map fun b => (b.id, b.name))] t
        = (callMeaning env fn [] t').map fun e => (e.1.map fun _ => .next, e.2)) := by
  obtain ⟨b, hb, rfl, hfn⟩ := hruns
  have hnamed := Execution.Watched.blockNamed?_of_mem hlinked hb
  rw [← hexe] at hnamed
  have hselect : Execution.eval env.exe.layout t (.var numberVar) = .ok (.ofU32 b.id.val) :=
    Execution.State.lookup_of_vars hnumber
  refine ⟨_, counts_recorded env b.id ht, fun hresults => ?_⟩
  have hcase := find?_cases hlinked hb
  rw [Execution.meaning_singleton, running, Execution.stmtMeaning_switch hselect]
  dsimp only [Datum.ofU32]
  rw [hcase]
  change meaning env [callOnly b.name] t = _
  rw [Execution.meaning_singleton]
  refine stmtMeaning_callOnly (by rw [hexe]; exact hfn) ?_ hresults
  rw [Execution.beforeCall, hnamed]
  exact outcome_dispatch hsteps hcancelled b.id

/-- What the end of the function of a block means for the loop of the dispatcher. -/
def afterBlock : Execution.Ending (List Datum) → Execution.State ⊕ Execution.Ending Execution.Flow
  | (.ok _, t) => .inl t
  | (.error e, t) => .inr (.error e, t)

/-- With the number of a block on top of the stack, a round of the dispatcher runs the block. -/
theorem round_running (hlinked : Execution.Linked p frames out) (hexe : env.exe = out.toExecutable)
    (hsteps : env.maxSteps = 0) (hcancelled : env.cancelled = false) (ht : Dispatching t)
    (hruns : Execution.Runs out id fn) {below : List UInt32}
    (hwords : InUse (t.lane.words .stack) (below ++ [id.val])) (hsmall : below.length + 1 < 2 ^ 32) :
    ∃ t', Counts t t' ∧ ((∀ got s, callMeaning env fn [] t' = some (.ok got, s) → got = []) →
      Execution.loopRound env dispatchLabel
          (looking ++ [running (out.blocks.map fun b => (b.id, b.name))]) t
        = (callMeaning env fn [] t').map afterBlock) := by
  obtain ⟨vars, hvars, hnumber, hlook⟩ := meaning_looking_top env ht hwords hsmall
  have hinfo := hruns
  obtain ⟨b, hb, rfl, -⟩ := hinfo
  have hblock := hlinked.blocks b hb
  have hhost : ¬BlockId.hostBit ≤ b.id.val := by
    rw [UInt32.le_iff_toNat_le]
    exact Nat.not_le.mpr hblock
  rw [if_neg hhost] at hlook
  obtain ⟨t', hcounts, hrun⟩ :=
    meaning_running hlinked hexe hsteps hcancelled hvars hruns hnumber
  refine ⟨t', hcounts.withVars, fun hresults => ?_⟩
  rw [Execution.loopRound, Execution.meaning_append_next hlook, hrun hresults, Option.map_map]
  congr 1
  funext e
  obtain ⟨r, s⟩ := e
  cases r <;> rfl

/-- On an empty stack, or with the number of a host function on top, the dispatcher stops. -/
theorem round_stops_empty (ht : Dispatching t) (hwords : InUse (t.lane.words .stack) [])
    (rest : List Shader.Stmt) : ∃ vars, Execution.loopRound env dispatchLabel (looking ++ rest) t
      = some (.inr (.ok .next, { t with vars })) := by
  obtain ⟨vars, -, hlook⟩ := meaning_looking_empty ht hwords
  refine ⟨vars, ?_⟩
  rw [Execution.loopRound, Execution.meaning_append, hlook]
  rfl

theorem round_stops_host (ht : Dispatching t) {below : List UInt32} {w : UInt32}
    (hwords : InUse (t.lane.words .stack) (below ++ [w])) (hsmall : below.length + 1 < 2 ^ 32)
    (hhost : BlockId.hostBit ≤ w) (rest : List Shader.Stmt) :
    ∃ vars, Execution.loopRound env dispatchLabel (looking ++ rest) t
      = some (.inr (.ok .next, { t with vars })) := by
  obtain ⟨vars, -, -, hlook⟩ := meaning_looking_top env ht hwords hsmall
  refine ⟨vars, ?_⟩
  rw [Execution.loopRound, Execution.meaning_append, hlook, if_pos hhost]
  rfl

end Running

/-! ## The exit block -/

section Leaving

variable {env : Env} {t : Execution.State}

/-- The words above the stack pointer are copied to the front of the io words. -/
theorem meaning_copies (env : Env) {n : Nat} {values back : List UInt32} {sp trap : UInt32}
    (h : Framed t 0)
    (hwords : (t.lane.words .stack).toList = sp :: trap :: (values ++ back)) (hlen : values.length = n)
    (hroom : n ≤ (t.lane.words .io).size) :
    meaning env ((List.range n).map fun k =>
        Shader.Stmt.store ioBuffer (baseWord ioBase 0 k) (.load stackBuffer (dataWord 0 k))) t
      = some (.ok .next, t.withWords .io (LaneStack.writeAt (t.lane.words .io) 0 values)) := by
  subst hlen
  have hsize : (t.lane.words .stack).size = 2 + values.length + back.length := by
    rw [← Array.length_toList, hwords, List.length_cons, List.length_cons, List.length_append]
    omega
  have hplaces : Execution.PlacesAt env.exe.layout t ioBuffer .io (baseWord ioBase 0) 0 values.length :=
    Execution.placesAt_baseWord (h.hidden ⟨ioBase, .u32⟩ (by decide)) h.io (h.addressable .io) rfl
      (by rw [Nat.zero_add]; exact hroom)
  -- What is read does not change while the io words are written.
  have hload : List.Forall₂ (fun e w => ∀ us : Array UInt32, us.size = (t.lane.words .io).size →
      ∃ d, Execution.eval env.exe.layout (t.withWords .io us) e = .ok d ∧ d.x = w)
      ((List.range values.length).map fun k => Shader.Expr.load stackBuffer (dataWord 0 k)) values := by
    refine List.forall₂_iff_get.mpr ⟨by rw [List.length_map, List.length_range], fun i hi hi' => ?_⟩
    intro us hus
    rw [List.get_eq_getElem, List.getElem_map, List.getElem_range]
    refine ⟨_, Execution.eval_load (placesAt_dataWord (h.withWords (r := .io) hus)
      (k := values.length) ?_) hi', ?_⟩
    · change 2 + 0 + 0 + values.length ≤ (t.lane.words .stack).size
      omega
    · change (t.lane.words .stack).getD (2 + 0 + 0 + i) 0 = _
      rw [Array.getD_eq_getD_getElem?, ← Array.getElem?_toList, hwords, Nat.add_zero,
        Nat.add_comm 2 i, List.getElem?_cons_succ, List.getElem?_cons_succ,
        List.getElem?_append_left hi', List.getElem?_eq_getElem hi']
      rfl
  have hcopies := Execution.meaning_stores (m := 0) hplaces (by rw [Nat.zero_add])
    hload rfl
  have hcode : (((List.range values.length).map fun k =>
        Shader.Expr.load stackBuffer (dataWord 0 k)).mapIdx fun k e =>
          Shader.Stmt.store ioBuffer (baseWord ioBase 0 (0 + k)) e)
      = (List.range values.length).map fun k =>
        Shader.Stmt.store ioBuffer (baseWord ioBase 0 k) (.load stackBuffer (dataWord 0 k)) := by
    refine List.ext_getElem (by simp) fun i hi hi' => ?_
    simp
  rw [← hcode, ← hcopies, Execution.State.withWords_words]

/-- The exit block copies the words of the results to the io words, and leaves the stack empty. -/
theorem callMeaning_exit {l : Layout} {name : String} {results : List ValueType} {values : List UInt32}
    {id : UInt32} (h : Based t) (hwords : InUse (t.lane.words .stack) (values ++ [id]))
    (hlen : values.length = l.sizeOf results) (hroom : l.sizeOf results ≤ (t.lane.words .io).size) :
    ∃ io ws : Array UInt32, io.size = (t.lane.words .io).size ∧ ws.size = (t.lane.words .stack).size
      ∧ InUse ws [] ∧ io.toList.take values.length = values
      ∧ callMeaning env (exitBlock l name results) [] t
        = some (.ok [], (t.withWords .io io).withWords .stack ws) := by
  obtain ⟨back, hback⟩ := hwords
  rw [List.length_append, List.length_singleton, List.append_assoc] at hback
  have hstart : Framed { t with vars := Execution.Exec.frame (exitBlock l name results) [] } 0 := by
    refine ⟨h.of_sizes rfl rfl fun _ => rfl, fun v hv => ?_, rfl⟩
    simp only [privates, List.mem_cons, List.not_mem_nil, or_false] at hv
    rcases hv with rfl | rfl | rfl | rfl <;> rfl
  obtain ⟨vars₁, hread, hframed₁, -⟩ := meaning_readSp hstart env hback
  obtain ⟨vars₂, hlower, hframed₂, -⟩ := meaning_lowerSp
    (n := 0) (k := values.length + 1) (by rw [Nat.zero_add]; exact hframed₁) env
  have hcopies := meaning_copies env hframed₂ hback hlen hroom
  have hwrite := meaning_writeSp (hframed₂.withWords (r := .io)
    (Execution.size_writeAt (t.lane.words .io) 0 values)) env (by
      change 0 < (t.lane.words .stack).size
      rw [← Array.length_toList, hback]
      exact Nat.succ_pos _)
  refine ⟨LaneStack.writeAt (t.lane.words .io) 0 values, (t.lane.words .stack).setIfInBounds 0 0,
    Execution.size_writeAt .., Array.size_setIfInBounds, ⟨values ++ ([id] ++ back), ?_⟩, ?_, ?_⟩
  · rw [Array.toList_setIfInBounds, hback]
    rfl
  · rw [Execution.toList_writeAt (by rw [Nat.zero_add, hlen]; exact hroom), List.take_zero,
      List.nil_append, List.take_left]
  · have hbody : (exitBlock l name results).body = [readSp] ++ ([lowerSp (values.length + 1)]
        ++ ((List.range (l.sizeOf results)).map (fun k =>
          Shader.Stmt.store ioBuffer (baseWord ioBase 0 k) (.load stackBuffer (dataWord 0 k)))
            ++ [writeSp])) := by
      rw [hlen]
      simp [exitBlock]
    rw [Execution.callMeaning_eq rfl, hbody, Execution.meaning_append_next hread,
      Execution.meaning_append_next hlower, Execution.meaning_append_next hcopies, hwrite]
    rfl

end Leaving

end Emit

end WasmShader
