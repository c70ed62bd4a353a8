import WasmShader.Proofs.HostAnswer
import WasmShader.Proofs.StackStages

/-!
# Stages of an entry point

Between operations a lane keeps its stack in its region (`Lane.Rests`). An entry point finds the words in
use there and hands them to the dispatcher, and so goes through stages: a machine entry from the exit
frame and the frame of the function that is called (`walks_machineEntry`), and a suspended lane from the
words that it was left with (`walks_resumeEntry`).
-/

namespace WasmShader.Execution

open Compile Emit
open Shader (Stmt)

/-- The words in use at the first stage: the exit frame, and that of the function that is called. -/
def Began (frames : List Frames) (out : Compiled) (e : Entry) (inv : Invoked) (ws : List UInt32) :
    Prop :=
  ∃ fr ∈ frames, fr.machine.func.index = e.func ∧ ∃ room frame,
    room.length = out.layout.sizeOf inv.results ∧ IsFrame out fr 0 frame
      ∧ ws = room ++ [inv.exit.val] ++ frame

/-! ## Lanes between operations -/

section Lanes

variable {p : Program} {frames : List Frames} {out : Compiled} {inv : Invoked} {env : Env} {d : Pair}
  {ws : List UInt32} {ln : Lane}

theorem used_of_holds {s : LaneStack} {trap : UInt32} {used above : List UInt32}
    (h : s.Holds trap used above) (hsmall : used.length < 2 ^ 32) : s.used = used := by
  rw [LaneStack.used, h.sp, toNat_toUInt32 hsmall, Array.toList_extract, h, LaneStack.headerWords,
    List.extract_eq_take_drop, List.drop_succ_cons, List.drop_succ_cons, List.drop_zero,
    Nat.add_sub_cancel_left, List.take_left']
  rfl

variable (out) in
/-- The region is that of a lane, and these are the words in use. -/
structure Lane.Rests (ws : List UInt32) (ln : Lane) : Prop where
  size : ln.stack.words.size = regionSize out.toExecutable .stack
  holds : ∃ trap above, ln.stack.Holds trap ws above

/-- The lane, as one that is abreast with itself. -/
def Lane.alone (out : Compiled) (ln : Lane) : Pair :=
  { index := ln.index, index' := ln.index, entry := none, size := regionSize out.toExecutable }

theorem InUse.rests {s : State} (hplaced : Placed out d env) (h : InUse d ws s) :
    s.lane.Rests out ws := by
  obtain ⟨-, hsmall⟩ := hplaced.bounds
  have hused := h.used (by omega)
  obtain ⟨a, V, hfound, hheader, htwo, hV, -⟩ := h
  have hown := hfound.own
  have hsize : s.lane.stack.words.size = d.size .stack := hfound.size
  have hsp : s.lane.stack.sp.toNat = V - 2 := by
    have hsp := sp_of_header hheader htwo (by omega)
    rwa [← hown] at hsp
  obtain ⟨trap, used, above, hlen, hholds⟩ := HostTable.exists_holds (s := s.lane.stack) (by
    rw [hsp, hsize, LaneStack.headerWords]
    omega)
  rw [used_of_holds hholds (by omega)] at hused
  exact ⟨hsize.trans (congrFun hplaced.size .stack), trap, above, hused ▸ hholds⟩

theorem Lane.Rests.small (h : ln.Rests out ws) (hplaced : Placed out d env) :
    2 + ws.length ≤ d.size .stack := by
  obtain ⟨trap, above, hholds⟩ := h.holds
  have hsize := hholds.size
  rw [h.size, LaneStack.headerWords] at hsize
  rw [hplaced.size]
  omega

theorem Lane.Rests.used (h : ln.Rests out ws) (hplaced : Placed out d env) : ln.stack.used = ws := by
  obtain ⟨-, hsmall⟩ := hplaced.bounds
  have hfits := h.small hplaced
  obtain ⟨trap, above, hholds⟩ := h.holds
  exact used_of_holds hholds (by omega)

theorem Lane.Rests.inUse (hplaced : Placed out d env) (h : ln.Rests out ws) (hindex : ln.index = d.index)
    {vars : Vars} (hclear : ∀ v ∈ vars, v.1 ∉ baseNames) : InUse d ws ⟨ln, vars, d.bases d.index⟩ := by
  have hfits := h.small hplaced
  have hsize : ln.stack.words.size = d.size .stack := by rw [h.size, hplaced.size]
  obtain ⟨trap, above, hholds⟩ := h.holds
  have hlanes : ln.Abreast ln :=
    ⟨⟨rfl, rfl, rfl, rfl, rfl, rfl⟩, fun _ _ => rfl⟩
  have hfound : Found d ln.stack.words ln.stack.words ⟨ln, vars, d.bases d.index⟩
      ⟨ln, vars, d.bases d.index⟩ :=
    ⟨⟨hlanes, rfl, rfl⟩, ⟨hindex, hsize, rfl, hclear⟩, rfl, rfl⟩
  refine ⟨ln.stack.words, 2 + ws.length, hfound, ?_, Nat.le_add_right 2 _, hfits, ?_⟩
  · rw [← Array.getElem?_toList, hholds, List.getElem?_cons_zero, Emit.toUInt32_add, UInt32.add_comm]
    exact congrArg some (UInt32.add_sub_cancel ..).symm
  · rw [between, Array.toList_extract, hholds, List.extract_eq_take_drop, List.drop_succ_cons,
      List.drop_succ_cons, List.drop_zero, Nat.add_sub_cancel_left, List.take_left']
    rfl

end Lanes

/-! ## Entry points -/

section Entries

open Exec (outcome)
open Watched (Walks Held Silent)

variable {p : Program} {frames : List Frames} {out : Compiled} {inv : Invoked} {env : Env} {d : Pair}
  {ws : List UInt32} {ln : Lane} {f : Shader.Function}

/-- An entry point does what goes through no stage, and then hands the lane to the dispatcher. -/
theorem walks_entry (hlinked : Linked p frames out) (hplaced : Placed out d env)
    (hexit : IsExit out inv.exit inv.results) (ln : Lane) (hparams : f.params = []) (pre : List Stmt)
    (hbody : f.body = pre ++ [callOnly dispatcherName])
    (hsilent : ∀ n, Silent (watching.stmts env n pre)) {P : List UInt32 → Prop} (hsome : ∃ ws, P ws)
    (hpre : ∀ n flow s', outcome (Exec.stmts env n pre) { ln.entering with vars := Exec.frame f [] }
      = some (.ok flow, s') → flow = .next ∧ ∃ ws, P ws ∧ Held frames out inv d s' ws) (n : Nat) :
    ∃ ws, P ws ∧ Walks frames out inv (watching.call env n f []) ln.entering ws
      fun _ => Held frames out inv d := by
  cases n with
  | zero =>
      obtain ⟨ws, hP⟩ := hsome
      refine ⟨ws, hP, ?_⟩
      rw [Instrument.call]
      exact .lift fun a s' hrun => absurd hrun (throw_ne _ a s')
  | succ n =>
      generalize hs : ({ ln.entering with vars := Exec.frame f [] } : State) = s at hpre
      suffices ∃ ws, P ws ∧ Walks frames out inv (watching.stmts env n f.body) s ws
          fun _ => Held frames out inv d by
        obtain ⟨ws, hP, hwalks⟩ := this
        exact ⟨ws, hP, .call_succ hparams (hs ▸ hwalks) fun flow s₁ ws' h _ =>
          ⟨h.1.withVars (List.forall_mem_nil _), h.2⟩⟩
      rw [hbody, Watched.stmts_append]
      by_cases hruns : ∃ flow s', outcome (Exec.stmts env n pre) s = some (.ok flow, s')
      · obtain ⟨flow, s₁, hrun⟩ := hruns
        obtain ⟨rfl, ws, hP, hheld⟩ := hpre n flow s₁ hrun
        refine ⟨ws, hP, (Walks.of_silent (Q := fun flow s' ws' => flow = .next ∧ s' = s₁ ∧ ws' = ws)
          (hsilent n) fun flow s' hrun' => ?_).bind ?_⟩
        · rw [(Watched.run_watched env n).1, hrun] at hrun'
          cases hrun'
          exact ⟨rfl, rfl, rfl⟩
        · rintro _ _ _ ⟨rfl, rfl, rfl⟩
          exact .onNext (fun _ => .singleton (Watched.walks_dispatcher hlinked hplaced hexit hheld) _)
            fun hne => absurd rfl hne
      · obtain ⟨ws, hP⟩ := hsome
        refine ⟨ws, hP, (Walks.of_silent (Q := fun _ _ _ => False) (hsilent n)
          fun flow s' hrun' => ?_).bind fun _ _ _ h => h.elim⟩
        rw [(Watched.run_watched env n).1] at hrun'
        exact hruns ⟨flow, s', hrun'⟩

/-- Once the regions have been found, an entry point goes on. -/
theorem of_setup (hx : Runnable env.exe) (hsize : d.size = regionSize env.exe)
    (hindex : ln.index = d.index) {vars : Vars} {rest : List Stmt} {n : Nat} {flow : Flow} {s' : State}
    (h : outcome (Exec.stmts env n (callOnly setupName :: rest)) ⟨ln, vars, unset⟩
      = some (.ok flow, s')) :
    ∃ m, outcome (Exec.stmts env m rest) ⟨ln, vars, d.bases d.index⟩ = some (.ok flow, s') := by
  obtain ⟨m, flow₁, s₁, hsetup, hrest⟩ := ok_of_cons h
  have hfound := outcome_setup hx rfl m ⟨ln, vars, unset⟩
  dsimp only at hfound
  rw [hfound, hindex, ← Pair.bases_eq hsize] at hsetup
  split at hsetup
  · cases hsetup
  · cases hsetup
    exact ⟨m, hrest rfl⟩

theorem calls_beginning (out : Compiled) {sig : Signature} (hknown : AllKnown sig.params)
    (first exit : BlockId) : Shader.stmtsCalls (beginning out sig first exit) = [] := by
  obtain ⟨args, hlays, -, -⟩ := firstPush_lays out.layout sig hknown first exit
  rw [beginning, Push.finish, hlays.code]
  simp [Shader.stmtsCalls_eq, Stmt.calls, storesAt, raiseSp, writeSp, List.flatMap_map]

/-- The exit frame, and the arguments with the number of the first block. -/
theorem Begun.words {R A x : Nat} {first exit : BlockId} {a b : Array UInt32}
    (h : Begun R A first exit x a b) (hR : 2 + R < 2 ^ 32) :
    between a 2 (x + (A + 2)) = between a 2 (2 + R) ++ [exit.val]
      ++ (between a (2 + R + 1) (2 + R + 1 + A) ++ [first.val]) := by
  obtain rfl := h.room hR
  have hfirst := h.first
  rw [show 2 + R + (A + 1) = 2 + R + 1 + A by omega] at hfirst
  rw [← between_singleton h.exit, ← between_singleton hfirst, between_append (by omega) (by omega),
    between_append (by omega) (by omega), between_append (by omega) (by omega)]
  congr 1
  omega

/-- A machine entry goes through stages from the first frame on. -/
theorem walks_machineEntry (hlinked : Linked p frames out) (hplaced : Placed out (ln.alone out) env)
    (hsize : ln.stack.words.size = regionSize out.toExecutable .stack) {e : Entry}
    (he : e ∈ out.entries) {exit : BlockId} (hexit : e.exit = some exit)
    (hsmall : out.layout.sizeOf e.sig.results + 2 < 2 ^ 32)
    (hf : out.module.function? e.shader = some f) (n : Nat) :
    ∃ ws, Began frames out e ⟨exit, e.sig.results⟩ ws
      ∧ Walks frames out ⟨exit, e.sig.results⟩ (watching.call env n f []) ln.entering ws
        fun _ => Held frames out ⟨exit, e.sig.results⟩ (ln.alone out) := by
  have hexe : env.exe = out.toExecutable := hplaced.exe
  obtain ⟨fr, hfr, hindex, htype, hisExit, hmachine⟩ := hlinked.starts e he exit hexit
  obtain ⟨f', hf', hcode⟩ := hlinked.runnable.entry e he
  rw [show out.toExecutable.module = out.module from rfl, hf] at hf'
  cases hf'
  have hstart := hcode.isStart
  rw [hf] at hmachine
  have hbody := congrArg (·.body) (Option.some.inj hmachine)
  have hknown : AllKnown e.sig.params := hlinked.accepts e he
  obtain ⟨hfirst, hwords⟩ := (hlinked.machined fr hfr).first
  rw [htype] at hwords
  have hblock := List.getElem?_eq_getElem hfirst
  have hbegan (room args : List UInt32) (hroom : room.length = out.layout.sizeOf e.sig.results)
      (hargs : args.length = out.layout.sizeOf e.sig.params) :
      Began frames out e ⟨exit, e.sig.results⟩
        (room ++ [exit.val] ++ (args ++ [((out.blockContext fr).numberOf 0).val])) :=
    ⟨fr, hfr, hindex, room, _, hroom, ⟨args, hargs.trans hwords.symm, rfl⟩, rfl⟩
  refine walks_entry hlinked hplaced hisExit ln hstart.params
    (callOnly setupName :: beginning out e.sig ((out.blockContext fr).numberOf 0) exit)
    (hbody.trans (body_machineEntry ..)) (fun n => ?_)
    ⟨_, hbegan (List.replicate _ 0) (List.replicate _ 0) List.length_replicate
      List.length_replicate⟩ (fun n flow s' hrun => ?_) n
  · refine Watched.silent_stmts (hexe ▸ Watched.callsNoBlock hlinked) n fun c hc => ?_
    rw [Shader.stmtsCalls, calls_beginning out hknown, List.append_nil, callOnly, Stmt.calls,
      List.mem_singleton] at hc
    exact .inr (congrArg (·.func) hc)
  · obtain ⟨m, hrun⟩ := of_setup (d := ln.alone out) (by rw [hexe]; exact hlinked.runnable)
      (by rw [hexe]; rfl) rfl hrun
    have hopened : Opened (ln.alone out)
        ⟨ln, Exec.frame f [], (ln.alone out).bases (ln.alone out).index⟩
        ⟨ln, Exec.frame f [], (ln.alone out).bases (ln.alone out).index⟩ :=
      ⟨⟨⟨rfl, rfl, rfl, rfl, rfl, rfl⟩, rfl, rfl⟩,
        ⟨rfl, hsize, rfl, clear_frame hstart.starts.vars []⟩⟩
    obtain ⟨rfl, x, a, b, hbegun, hwithin, hfound⟩ :=
      (beginning_leads hplaced hknown _ exit).alone hopened hrun
    have hsizes := hfound.size_own
    rw [size_written] at hsizes
    have huse := hfound.inUse (by omega) hwithin
    have hx := hbegun.room (by omega)
    rw [hbegun.words (by omega)] at huse
    refine ⟨rfl, _, hbegan _ _ (length_between (by omega) |>.trans (Nat.add_sub_cancel_left ..))
      (length_between (by omega) |>.trans (Nat.add_sub_cancel_left ..)), huse,
      .inr (.block ⟨hfr, hblock, ?_, ?_⟩)⟩
    · rw [htype]
      exact .exit ((length_between (by omega)).trans (Nat.add_sub_cancel_left ..))
    · exact ⟨_, ((length_between (by omega)).trans (Nat.add_sub_cancel_left ..)).trans hwords.symm,
        rfl⟩

/-- A suspended lane goes through stages from the words in use on. -/
theorem walks_resumeEntry (hlinked : Linked p frames out) (hplaced : Placed out (ln.alone out) env)
    (hexit : IsExit out inv.exit inv.results) (h : ln.Rests out ws)
    (hpiled : ws = [] ∨ Piled frames out inv ws) (n : Nat) :
    Walks frames out inv (watching.call env n resumeEntry []) ln.entering ws
      fun _ => Held frames out inv (ln.alone out) := by
  have hexe : env.exe = out.toExecutable := hplaced.exe
  suffices ∃ ws', ws' = ws ∧ Walks frames out inv (watching.call env n resumeEntry []) ln.entering ws'
      fun _ => Held frames out inv (ln.alone out) by
    obtain ⟨_, rfl, hwalks⟩ := this
    exact hwalks
  refine walks_entry (f := resumeEntry) (P := (· = ws)) hlinked hplaced hexit ln rfl
    [callOnly setupName] rfl (fun n => ?_) ⟨ws, rfl⟩ (fun n flow s' hrun => ?_) n
  · refine Watched.silent_stmts (hexe ▸ Watched.callsNoBlock hlinked) n fun c hc => ?_
    rw [Shader.stmtsCalls, Shader.stmtsCalls, List.append_nil, callOnly, Stmt.calls,
      List.mem_singleton] at hc
    exact .inr (congrArg (·.func) hc)
  · obtain ⟨m, hrun⟩ := of_setup (d := ln.alone out) (by rw [hexe]; exact hlinked.runnable)
      (by rw [hexe]; rfl) rfl hrun
    cases m with
    | zero => exact absurd hrun (throw_ne _ _ _)
    | succ m =>
        cases hrun
        exact ⟨rfl, ws, rfl, h.inUse hplaced rfl (List.forall_mem_nil _), hpiled⟩

end Entries

end WasmShader.Execution
