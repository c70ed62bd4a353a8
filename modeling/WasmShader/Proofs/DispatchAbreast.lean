import WasmShader.Proofs.Polling
import WasmShader.Proofs.SharedFrames

/-!
# The dispatcher on lanes abreast

On stacks that are described the dispatcher takes the same turns on both lanes: what it looks at is
the header and the number on top, and the block that it runs takes words that the stacks share. So
behind every turn the stacks are described again (`turn_leads`), and so they are where it stops, by
induction on its turns (`dispatcher_leads`).
-/

namespace WasmShader.Execution

open Compile Emit
open Shader (Stmt Expr)

/-! ## Stacks in front of a block -/

/-- The stacks are described up to the height in the header. -/
def Shaped (frames : List Frames) (out : Compiled) (a b : Array UInt32) : Prop :=
  ∃ V, OnTop frames out a b V ∧ V ≤ a.size ∧ a[0]? = some (V.toUInt32 - 2)

/-- Lanes abreast with stacks that are described. -/
def InShape (frames : List Frames) (out : Compiled) (d : Pair) (s t : State) : Prop :=
  ∃ a b, Shaped frames out a b ∧ Found d a b s t

/-- The code of the module runs on lanes with regions of its sizes. -/
structure Placed (out : Compiled) (d : Pair) (env : Env) : Prop where
  exe : env.exe = out.toExecutable
  size : d.size = regionSize out.toExecutable
  limit : out.stackWords.toNat < 2 ^ 31

section Turns

open Exec

variable {p : Program} {frames : List Frames} {out : Compiled} {d : Pair} {env : Env} {s t : State}
  {a b : Array UInt32} {V : Nat}

theorem Placed.suits (h : Placed out d env) (fr : Frames) : Suits (out.blockContext fr) d where
  size := by
    rw [h.size, regionSize, LaneStack.headerWords, Nat.add_comm]
    rfl
  limit := h.limit

theorem Placed.bounds (h : Placed out d env) : 2 ≤ d.size .stack ∧ d.size .stack + 1 < 2 ^ 32 := by
  have hsize := h.size
  have hlimit := h.limit
  rw [hsize, regionSize, LaneStack.headerWords]
  change 2 ≤ 2 + out.stackWords.toNat ∧ 2 + out.stackWords.toNat + 1 < _
  omega

/-- With another stack pointer in the header the stacks are described up to that. -/
theorem OnTop.header (h : OnTop frames out a b V) (hV : V ≤ a.size) (hsize : 0 < a.size) :
    Shaped frames out (written a [(0, V.toUInt32 - 2)]) (written b [(0, V.toUInt32 - 2)]) := by
  refine ⟨V, h.kept fun i hi _ => ?_, by rwa [size_written], ?_⟩
  · have hnot : i ∉ ([(0, V.toUInt32 - 2)] : List (Nat × UInt32)).map (·.1) := by
      rw [List.map_singleton, List.mem_singleton]
      omega
    exact ⟨getElem?_written_of_not_mem hnot, getElem?_written_of_not_mem hnot⟩
  · have hnot : 0 ∉ ([] : List (Nat × UInt32)).map (·.1) := List.not_mem_nil
    rw [written_cons, getElem?_written_of_not_mem hnot, Array.getElem?_setIfInBounds_self_of_lt hsize]

theorem Runs.unique (hlinked : Linked p frames out) {id : BlockId} {f f' : Shader.Function}
    (h : Runs out id f) (h' : Runs out id f') : f = f' := by
  obtain ⟨b, hb, rfl, hf⟩ := h
  obtain ⟨b', hb', hid, hf'⟩ := h'
  obtain rfl := List.inj_on_of_nodup_map hlinked.ids hb' hb hid
  rw [hf] at hf'
  exact Option.some.inj hf'

/-- Words that the stacks share are copied to the io words. -/
theorem copies_leads (hsize : d.size .stack < 2 ^ 32) {n : Nat} (hn : 2 + n ≤ d.size .stack)
    (hshare : Share a b 2 (2 + n)) (ks : List Nat) (hks : ∀ k ∈ ks, k < n) :
    Leads env (ks.map fun k => .store ioBuffer (baseWord ioBase 0 k)
        (.load stackBuffer (dataWord 0 k)))
      (Level d 2 a b) (Onto (Level d 2 a b)) := by
  induction ks with
  | nil => exact .nil
  | cons k ks ih =>
      obtain ⟨hk, hks⟩ := List.forall_mem_cons.mp hks
      refine .cons_next (.of_succ fun m s t h => ?_) (ih hks)
      have hplace : ((2 : Nat).toUInt32 + (0 + k).toUInt32).toNat = 2 + k := by
        rw [← Emit.toUInt32_add, toNat_toUInt32 (by omega), Nat.zero_add]
      have hload : Execution.eval env.exe.layout t (.load stackBuffer (dataWord 0 k))
          = Execution.eval env.exe.layout s (.load stackBuffer (dataWord 0 k)) := by
        refine h.toAbreast.eval_load h.toAnchored hsize (apart_dataAt _)
          (h.at.eval_dataAt (0 + k)) ?_
        rw [hplace, h.own, h.other]
        exact hshare _ (by omega) (by omega)
      rw [stmt]
      refine (h.offStack.value env (h.offStack.eval _ _ (apart_baseWord ioBase 0 k))).bind ?_
      rintro i s t ⟨-, rfl, rfl⟩
      refine (h.offStack.value env hload).bind ?_
      rintro v s t ⟨-, rfl, rfl⟩
      refine (h.steady (Steady.store (by decide) i.x v.x)).bind ?_
      intro _ s t h
      exact .some (.value ⟨rfl, h⟩)

/-- The block that copies results finds them on both stacks, and leaves these empty. -/
theorem exitBlock_leads (hplaced : Placed out d env) (name : String) {results : List ValueType}
    (hin : 2 + out.layout.sizeOf results + 1 ≤ d.size .stack)
    (hheader : a[0]? = some ((2 + (out.layout.sizeOf results + 1)).toUInt32 - 2))
    (hshare : Share a b 2 (2 + out.layout.sizeOf results + 1)) :
    Leads env (exitBlock out.layout name results).body (Found d a b)
      (Onto (Found d (written a [(0, (2 : Nat).toUInt32 - 2)])
        (written b [(0, (2 : Nat).toUInt32 - 2)]))) := by
  obtain ⟨htwo, hsmall⟩ := hplaced.bounds
  have hcopies : Leads env _ (Level d 2 a b) _ := 
    copies_leads (n := out.layout.sizeOf results) (by omega) (by omega)
      (hshare.mono (Nat.le_refl _) (by omega)) (List.range (out.layout.sizeOf results))
      fun k => List.mem_range.mp
  have hwrite : Leads env [writeSp] (Level d 2 a b) _ :=
    (Leads.singleton (writeSp_leads (by omega))).mono (fun _ _ => id)
      fun _ _ _ h => (⟨h.1, h.2.toFound⟩ : Onto (Found d _ _) _ _ _)
  rw [exitBlock]
  dsimp only
  rw [List.append_assoc, List.cons_append, List.cons_append, List.nil_append]
  exact .cons_next (readSp_leads hheader (by omega))
    (.cons_next (lowerSp_leads _) (hcopies.append_next hwrite))

/-- What is handed control takes words that the stacks share, and leaves stacks that are described. -/
theorem turn_leads (hlinked : Linked p frames out) (hplaced : Placed out d env)
    (htop : OnTop frames out a b V) (hV : V ≤ d.size .stack)
    (hheader : a[0]? = some (V.toUInt32 - 2)) (hne : V ≠ 2) {id : BlockId} {f : Shader.Function}
    (hid : a[V - 1]? = some id.val) (hruns : Runs out id f) :
    f.Lawful DirectSite (fun _ => True) ∧ f.params = []
      ∧ Leads env f.body (Found d a b) fun _ => InShape frames out d := by
  obtain ⟨htwo, hsmall⟩ := hplaced.bounds
  have hsame {id' : BlockId} {w : Nat} (hw : V - 1 = w) (hid' : a[w]? = some id'.val) : id = id' := by
    rw [hw, hid'] at hid
    exact (congrArg BlockId.mk (Option.some.inj hid)).symm
  cases htop with
  | empty => exact absurd rfl hne
  | @block fr k H hfr hk hawaited hshare hnumber =>
      have hmachine := hlinked.machined fr hfr
      have hblock := List.getElem?_eq_getElem hk
      obtain ⟨f', hcode, hlawful, hruns'⟩ := hmachine.emitted k _ hblock
      obtain rfl := hsame (by rw [Payload.frameWords]; omega) hnumber
      obtain rfl := hruns.unique hlinked hruns'
      obtain ⟨-, -, -, hparams, -⟩ := name_of_blockFunction hcode
      have hmem : fr.machine.blocks[k] ∈ fr.machine.blocks := List.getElem_mem hk
      have hdirect : Lawful env.exe.module DirectSite fun _ => True := fun c hc f hf =>
        (hlinked.runnable.direct c hc f (by rw [hplaced.exe] at hf; exact hf)).mono
          (fun _ => id) fun _ _ => trivial
      have hleads : Leads env _ (Found d a b) _ := block_leads hmachine.fit
        (by rw [hplaced.exe]; rfl) (hplaced.suits fr) hmachine.locals hblock (hmachine.operands _ hmem)
        (hmachine.typed _ hmem) (hmachine.stays _ hmem) (hmachine.numbered _ hmem) hmachine.known
        hcode hlawful.body hdirect
        (by rw [hplaced.exe]; exact hlinked.apart) hawaited.pos hV hheader
        (hshare.mono (Nat.le_refl _) (by
          change H + (fr.payload k).words ≤ H + (fr.payload k).frameWords
          rw [Payload.frameWords]
          omega))
      refine ⟨hlawful, hparams, hleads.mono (fun _ _ => id) ?_⟩
      rintro flow s t (⟨-, -, h⟩ | ⟨-, V', x', y', hexits, hV', h⟩)
      · exact ⟨a, b, ⟨_, .block hfr hk hawaited hshare hnumber, by rw [h.size_own]; exact hV,
          hheader⟩, h⟩
      · have hx' : x'.size = d.size .stack := by
          rw [← h.size_own, size_written]
        have htop := hexits.onTop hfr hmachine hlinked.machined hmem hawaited (by omega)
        exact ⟨_, _, htop.header (by omega) (by omega), h⟩
  | @exit id' results hexit hsmall' hnumber hshare =>
      obtain rfl := hsame (by omega) hnumber
      obtain ⟨name, hruns'⟩ := hexit
      obtain rfl := hruns.unique hlinked hruns'
      have hleads := exitBlock_leads hplaced name hV (by rw [← Nat.add_assoc]; exact hheader) hshare
      refine ⟨exitBlock_lawful trivial trivial _ _ _, rfl, hleads.mono (fun _ _ h => h) ?_⟩
      rintro flow s t ⟨-, h⟩
      have hown := h.size_own
      rw [size_written] at hown
      exact ⟨_, _, OnTop.empty.header (by omega) (by omega), h⟩
  | @host func H hfunc _ _ _ hnumber =>
      obtain rfl := hsame (by omega) hnumber
      obtain ⟨info, hinfo, hid', -⟩ := hruns
      have hblock := hlinked.blocks info hinfo
      have hhost := hlinked.hosts _ _ hfunc
      rw [hid'] at hblock
      omega

end Turns

/-! ## Calls -/

section Calls

open Exec

variable {p : Program} {frames : List Frames} {out : Compiled} {d : Pair} {env : Env} {s t : State}
  {a b : Array UInt32}

theorem InShape.withVars (h : InShape frames out d s t) {vars : Vars}
    (hclear : ∀ v ∈ vars, v.1 ∉ baseNames) :
    InShape frames out d { s with vars } { t with vars } := by
  obtain ⟨a, b, hshaped, hfound⟩ := h
  exact ⟨a, b, hshaped, hfound.withVars hclear⟩

theorem InShape.steady {α : Type} {code : Exec α} (hcode : ∀ σ τ, Steady d σ τ code)
    (h : InShape frames out d s t) :
    Together (fun _ => InShape frames out d) (outcome code s) (outcome code t) := by
  obtain ⟨a, b, hshaped, hfound⟩ := h
  exact (hfound.steady (hcode _ _)).mono fun _ _ _ h' => ⟨a, b, hshaped, h'.1⟩

theorem InShape.abreast (h : InShape frames out d s t) : Abreast s t := by
  obtain ⟨a, b, -, hfound⟩ := h
  exact hfound.toAbreast

/-- A function has variables of its own. Where it ends, the caller's are back. -/
theorem frame_leads {f : Shader.Function} {code : List Stmt} {vars : Vars}
    (hvars : ∀ v ∈ vars, v.1 ∉ baseNames) {n : Nat}
    (h : Together (fun _ => InShape frames out d) (outcome (stmts env n code) s)
      (outcome (stmts env n code) t)) :
    Together (fun _ => InShape frames out d)
      (outcome (do let flow ← stmts env n code
                   modify fun s : State => { s with vars }
                   resultsOf f flow) s)
      (outcome (do let flow ← stmts env n code
                   modify fun s : State => { s with vars }
                   resultsOf f flow) t) := by
  refine h.bind fun flow s' t' h' => ?_
  rw [outcome_bind_ok (a := ()) (t := { s' with vars }) rfl,
    outcome_bind_ok (a := ()) (t := { t' with vars }) rfl]
  exact (h'.withVars hvars).steady fun _ _ => .resultsOf f flow

/-- A function without parameters is called on both lanes. -/
theorem call_leads {f : Shader.Function} (hvars : ∀ v ∈ f.params ++ f.locals, v.name ∉ baseNames)
    (hparams : f.params = []) (hbody : Leads env f.body (Found d a b) fun _ => InShape frames out d)
    (h : Found d a b s t) (n : Nat) :
    Together (fun _ => InShape frames out d) (outcome (call env n f []) s)
      (outcome (call env n f []) t) := by
  cases n with
  | zero =>
      rw [call]
      exact .none
  | succ n =>
      rw [outcome_call n (by rw [hparams]; rfl), outcome_call n (by rw [hparams]; rfl), h.vars]
      exact frame_leads h.clear (hbody n _ _ (h.withVars (clear_frame hvars [])))

/-- A statement that only calls a function, which may be a block. -/
theorem callOnly_leads {name : String} (hcall : ∀ f, env.exe.module.function? name = some f →
      (∀ v ∈ f.params ++ f.locals, v.name ∉ baseNames) ∧ f.params = []
        ∧ Leads env f.body (Found d a b) fun _ => InShape frames out d) :
    StmtLeads env (callOnly name) (Found d a b) (Onto (InShape frames out d)) := by
  refine .of_succ fun n s t h => ?_
  rw [callOnly, stmt]
  cases hf : env.exe.module.function? name with
  | none => exact together_throw h.offStack.lanes _
  | some f =>
      obtain ⟨hvars, hparams, hbody⟩ := hcall f hf
      dsimp only
      have hrest (s t : State) (h : Found d a b s t) : Together (Onto (InShape frames out d))
          (outcome (do
            let vs ← Exec.values env []
            let got ← call env n f vs
            if got.length ≠ ([] : List String).length then
              fault (name ++ " returned " ++ toString got.length ++ " values, want "
                ++ toString ([] : List String).length)
            assignAll [] got
            return Flow.next) s)
          (outcome (do
            let vs ← Exec.values env []
            let got ← call env n f vs
            if got.length ≠ ([] : List String).length then
              fault (name ++ " returned " ++ toString got.length ++ " values, want "
                ++ toString ([] : List String).length)
            assignAll [] got
            return Flow.next) t) := by
        have hvalues (s : State) : outcome (Exec.values env []) s = some (.ok [], s) := rfl
        rw [outcome_bind_ok (hvalues s), outcome_bind_ok (hvalues t)]
        refine (call_leads hvars hparams hbody h n).bind fun got s' t' h' => ?_
        split
        · exact together_throw h'.abreast.offStack.lanes _
        · exact .some (.value ⟨rfl, h'⟩)
      split
      · exact (h.steady (Steady.dispatch env _)).bind fun _ s' t' h' => hrest s' t' h'.1
      · exact hrest s t h

end Calls

/-! ## Turns of the dispatcher -/

section Dispatcher

open Exec

variable {p : Program} {frames : List Frames} {out : Compiled} {d : Pair} {env : Env} {s t : State}
  {a b : Array UInt32} {V : Nat}

/-- The loop is left on both lanes or on none, and if not, it is told which way the condition went. -/
theorem stopIf_leads {cond : Expr} {P : State → State → Prop} (hP : ∀ s t, P s t → Abreast s t ∧
      Execution.eval env.exe.layout t cond = Execution.eval env.exe.layout s cond) :
    StmtLeads env (stopIf cond) P fun flow s t => P s t ∧ (flow = .leave dispatchLabel
      ∨ flow = .next ∧ ∃ c, Execution.eval env.exe.layout s cond = .ok c ∧ c.truth = false) := by
  refine .ifElse hP (fun n s t h => ?_) ?_
  · cases n with
    | zero =>
        rw [stmts_zero]
        exact .none
    | succ n =>
        rw [outcome_stmts_cons, outcome_stmts_cons]
        cases n with
        | zero =>
            rw [stmt]
            exact .none
        | succ n => exact .some (.value ⟨h.1, .inl rfl⟩)
  · refine Leads.nil.mono (fun _ _ => id) ?_
    rintro flow s t ⟨rfl, h, hcond⟩
    exact ⟨h, .inr ⟨rfl, hcond⟩⟩

theorem OnTop.two_le (h : OnTop frames out a b V) : 2 ≤ V := by
  cases h with
  | empty => exact Nat.le_refl 2
  | @block fr k H _ _ hawaited =>
      have hpos := hawaited.pos
      rw [Payload.frameWords]
      omega
  | exit => omega
  | host _ _ hawaited =>
      have hpos := hawaited.pos
      omega

/-- The number on top is the same on both stacks. -/
theorem OnTop.shared_top (h : OnTop frames out a b V) (hne : V ≠ 2) : b[V - 1]? = a[V - 1]? := by
  cases h with
  | empty => exact absurd rfl hne
  | @block fr k H _ _ _ hshare =>
      rw [Payload.frameWords] at hshare ⊢
      exact hshare _ (by omega) (by omega)
  | exit _ _ _ hshare => exact hshare _ (by omega) (by omega)
  | host _ _ _ hshare => exact hshare _ (by omega) (by omega)

/-- The number on top is read into a variable. -/
theorem number_leads (hplaced : Placed out d env) (htwo : 2 ≤ V) (hV : V ≤ d.size .stack)
    (hshared : b[V - 1]? = a[V - 1]?) :
    StmtLeads env (.assign numberVar (.load stackBuffer (dataAt 0xffffffff))) (Level d V a b)
      (Onto fun s t => Level d V a b s t ∧ ∃ w, a[V - 1]? = some w
        ∧ s.vars.lookup numberVar = some (.ofU32 w)) := by
  refine .of_succ fun n s t h => ?_
  obtain ⟨-, hsmall⟩ := hplaced.bounds
  have hplace := h.at.eval_dataAt (l := env.exe.layout) 0xffffffff
  have hat : (V.toUInt32 + (0xffffffff : Nat).toUInt32).toNat = V - 1 := by
    rw [UInt32.toNat_add, toNat_toUInt32 (by omega), toNat_toUInt32 (by decide)]
    omega
  have hword : t.lane.stack.words[(V.toUInt32 + (0xffffffff : Nat).toUInt32).toNat]?
      = s.lane.stack.words[(V.toUInt32 + (0xffffffff : Nat).toUInt32).toNat]? := by
    rw [hat, h.own, h.other]
    exact hshared
  have hload := h.toAbreast.eval_load h.toAnchored (by omega) (apart_dataAt _) hplace hword
  refine (h.toFound.assign (by decide) hload n).mono ?_
  rintro flow s' t' ⟨rfl, hfound, v, hv, hvars⟩
  obtain ⟨hlt, rfl⟩ := h.toAnchored.of_load (by omega) hplace hv
  rw [hat] at hlt hvars
  have hlt' : V - 1 < a.size := by rwa [h.size_own]
  refine ⟨rfl, ⟨hfound, ?_⟩, a[V - 1], Array.getElem?_eq_getElem hlt', ?_⟩
  · rw [hvars, if_neg (by decide), h.sp]
  · rw [hvars, if_pos rfl, h.own, Array.getD_eq_getD_getElem?, Array.getElem?_eq_getElem hlt',
      Option.getD_some]

/-- The block with the number on top is run on both lanes. -/
theorem running_leads (hlinked : Linked p frames out) (hplaced : Placed out d env)
    (htop : OnTop frames out a b V) (hV : V ≤ d.size .stack)
    (hheader : a[0]? = some (V.toUInt32 - 2)) (hne : V ≠ 2) :
    StmtLeads env (running (out.blocks.map fun b => (b.id, b.name)))
      (fun s t => Level d V a b s t ∧ ∃ w, a[V - 1]? = some w
        ∧ s.vars.lookup numberVar = some (.ofU32 w)) fun _ => InShape frames out d := by
  refine .switch (fun s t h => ⟨h.1.toAbreast, h.1.offStack.eval _ _ (apart_var _)⟩) (fun c hc => ?_)
    ((Leads.singleton (.trap fun s t h => h.1.toAbreast)).mono (fun _ _ => id) fun _ _ _ h => h.2)
  obtain ⟨x, hx, rfl⟩ := List.mem_map.mp hc
  obtain ⟨info, hinfo, rfl⟩ := List.mem_map.mp hx
  intro n s t h
  obtain ⟨⟨hlevel, w, hw, hnumber⟩, v, hv, hmem⟩ := h
  rw [Execution.eval, State.lookup_of_vars hnumber] at hv
  cases hv
  obtain rfl : w = info.id.val := List.mem_singleton.mp hmem
  have hcall : StmtLeads env (callOnly info.name) (Found d a b) (Onto (InShape frames out d)) :=
    callOnly_leads fun f hf => by
      rw [hplaced.exe] at hf
      obtain ⟨hlawful, hparams, hleads⟩ := turn_leads hlinked hplaced htop hV hheader hne hw
        ⟨info, hinfo, rfl, hf⟩
      exact ⟨hlawful.vars, hparams, hleads⟩
  exact (Leads.singleton hcall n s t hlevel.toFound).mono fun _ _ _ h => h.2

theorem eval_isNonzero_congr {l : Layout} {e : Expr}
    (h : Execution.eval l t e = Execution.eval l s e) :
    Execution.eval l t e.isNonzero = Execution.eval l s e.isNonzero := by
  rw [Expr.isNonzero, Execution.eval, Execution.eval, h]
  rfl

/-- The dispatcher stops on both lanes, or it has read the number on top of both stacks. -/
theorem looking_leads (hplaced : Placed out d env) (htwo : 2 ≤ V) (hV : V ≤ d.size .stack)
    (hheader : a[0]? = some (V.toUInt32 - 2)) (hshared : V ≠ 2 → b[V - 1]? = a[V - 1]?) :
    Leads env looking (Found d a b) fun flow s t => Found d a b s t ∧ (flow = .leave dispatchLabel
      ∨ flow = .next ∧ V ≠ 2 ∧ Level d V a b s t
        ∧ ∃ w, a[V - 1]? = some w ∧ s.vars.lookup numberVar = some (.ofU32 w)) := by
  obtain ⟨-, hsmall⟩ := hplaced.bounds
  have htrap (s t : State) (h : Found d a b s t) :
      Execution.eval env.exe.layout t (Expr.isNonzero (.load stackBuffer trapPlace))
        = Execution.eval env.exe.layout s (Expr.isNonzero (.load stackBuffer trapPlace)) := by
    have hplace : Execution.eval env.exe.layout s trapPlace
        = .ok (.ofU32 (d.base d.index .stack + LaneStack.trapWord.toUInt32)) := by
      have hbase := h.toAnchored.eval_header (l := env.exe.layout)
      rw [UInt32.add_zero] at hbase
      exact eval_offset hbase _
    exact eval_isNonzero_congr (h.toAbreast.eval_load h.toAnchored (by omega)
      (apart_offset (apart_var _) _) hplace (h.lanes.header 1 (by decide)))
  have hleft {flow : Flow} {p : Prop} (hne : flow ≠ .next)
      (h : flow = .leave dispatchLabel ∨ flow = .next ∧ p) : flow = .leave dispatchLabel :=
    h.resolve_right fun hnext => hne hnext.1
  rw [looking]
  refine .cons (stopIf_leads fun s t h => ⟨h.toAbreast, htrap s t h⟩) ?_ fun _ s t hne h =>
    ⟨h.1, .inl (hleft hne h.2)⟩
  refine .mono (.cons_next (readSp_leads hheader (by omega)) ?_) (fun _ _ h => h.1) fun _ _ _ => id
  refine .cons (stopIf_leads (P := Level d V a b) fun s t h => ⟨h.toAbreast, h.offStack.eval _ _ ?_⟩)
    ?_ fun _ s t hne h => ⟨h.1.toFound, .inl (hleft hne h.2)⟩
  · simp only [Expr.Apart, Expr.u32, and_self]
  refine .mono (P := fun s t => V ≠ 2 ∧ Level d V a b s t) (.of_and fun hne => ?_) (fun s t h => ?_)
    fun _ _ _ => id
  · refine .cons_next (number_leads hplaced htwo hV (hshared hne)) ?_
    refine (Leads.cons (stopIf_leads fun s t h => ⟨h.1.toAbreast, h.1.offStack.eval _ _ ?_⟩)
      (Leads.nil.mono (fun _ _ h => h.1) fun _ _ _ h => ⟨h.2.1.toFound, .inr ⟨h.1, hne, h.2⟩⟩)
      fun _ s t hother h => ⟨h.1.1.toFound, .inl (hleft hother h.2)⟩)
    simp only [Expr.Apart, Expr.u32, and_self]
  · obtain ⟨hlevel, hflow⟩ := h
    obtain ⟨c, hc, hfalse⟩ := (hflow.resolve_left fun hleave => by cases hleave).2
    refine ⟨?_, hlevel⟩
    rintro rfl
    have hcond : Execution.eval env.exe.layout s (.binary .eq (.var spVar) (.u32 0))
        = .ok (.ofBool true) := by
      rw [Execution.eval, hlevel.at.eval_sp]
      rfl
    rw [hcond] at hc
    cases hc
    cases hfalse

/-- A turn of the dispatcher: it stops on both lanes, or the same block runs on both. -/
theorem look_leads (hlinked : Linked p frames out) (hplaced : Placed out d env) :
    Leads env (looking ++ [running (out.blocks.map fun b => (b.id, b.name))]) (InShape frames out d)
      fun _ => InShape frames out d := by
  refine .of_exists fun a => .of_exists fun b => .of_and fun hshaped => ?_
  have hback (s t : State) (h : Found d a b s t) : InShape frames out d s t :=
    ⟨a, b, hshaped, h⟩
  obtain ⟨V, htop, hV, hheader⟩ := hshaped
  intro n s t h
  rw [h.size_own] at hV
  revert n s t h
  change Leads _ _ _ _
  have hrunning : Leads env [running (out.blocks.map fun b => (b.id, b.name))]
      (fun s t => V ≠ 2 ∧ Level d V a b s t ∧ ∃ w, a[V - 1]? = some w
        ∧ s.vars.lookup numberVar = some (.ofU32 w)) fun _ => InShape frames out d :=
    .of_and fun hne => .cons (running_leads hlinked hplaced htop hV hheader hne)
      (Leads.nil.mono (fun _ _ => id) fun _ _ _ h => h.2) fun _ _ _ _ => id
  exact (looking_leads hplaced htop.two_le hV hheader fun hne => htop.shared_top hne).append
    (hrunning.mono (fun s t h => (h.2.resolve_left nofun).2) fun _ _ _ => id)
    fun _ s t _ h => hback s t h.1

/-- A loop whose turns keep the stacks described. -/
theorem loop_leads {label : String} {body : List Stmt}
    (hbody : Leads env body (InShape frames out d) fun _ => InShape frames out d) (n : Nat)
    (h : InShape frames out d s t) :
    Together (fun _ => InShape frames out d) (outcome (loop env n label body) s)
      (outcome (loop env n label body) t) := by
  induction n generalizing s t with
  | zero =>
      rw [loop]
      exact .none
  | succ n ih =>
      have hagain (s t : State) (h : InShape frames out d s t) :
          Together (fun _ => InShape frames out d)
            (outcome (do checkCancelled env; loop env n label body) s)
            (outcome (do checkCancelled env; loop env n label body) t) :=
        (h.steady fun _ _ => Steady.checkCancelled env).bind fun _ _ _ h' => ih h'
      rw [loop]
      refine (hbody n s t h).bind fun flow s' t' h' => ?_
      cases flow with
      | next => exact hagain s' t' h'
      | again l =>
          dsimp only
          split
          · exact hagain s' t' h'
          · exact .some (.value h')
      | leave l =>
          dsimp only
          split <;> exact .some (.value h')
      | ret vs => exact .some (.value h')

/-- The dispatcher takes the same turns on both lanes. -/
theorem dispatcher_leads (hlinked : Linked p frames out) (hplaced : Placed out d env) :
    StmtLeads env (callOnly dispatcherName) (InShape frames out d) (Onto (InShape frames out d)) := by
  have hbody : Leads env (dispatcher (out.blocks.map fun b => (b.id, b.name))).body
      (InShape frames out d) fun _ => InShape frames out d := by
    rw [body_dispatcher]
    refine .cons (.of_succ fun n s t h => ?_) (Leads.nil.mono (fun _ _ => id) fun _ _ _ h => h.2)
      fun _ _ _ _ => id
    rw [stmt]
    exact loop_leads (look_leads hlinked hplaced) n h
  rintro n s t ⟨a, b, hshaped, h⟩
  refine callOnly_leads (fun f hf => ?_) n s t h
  rw [hplaced.exe] at hf
  have hdispatcher := hlinked.runnable.dispatcher
  rw [hf] at hdispatcher
  obtain rfl := Option.some.inj hdispatcher
  have hvars : ∀ v ∈ [(⟨spVar, .u32⟩ : Shader.Variable), ⟨numberVar, .u32⟩], v.name ∉ baseNames := by
    decide
  exact ⟨hvars, rfl, hbody.mono (fun s t h => ⟨a, b, hshaped, h⟩) fun _ _ _ => id⟩

end Dispatcher

end WasmShader.Execution
