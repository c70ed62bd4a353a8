import WasmShader.Proofs.EntriesAbreast
import WasmShader.Proofs.HostAnswer
import WasmShader.Proofs.Yield

/-!
# Lanes in step

Between the operations of an executor, too, whatever is read of the stacks of two lanes abreast is the
same: the request that a lane waits for (`Shaped.pending`), and behind an answer to it the results, in
the room that was left for them (`Requests.answered`). So on lanes in step every operation comes to the
same, and they still are behind it (`Lane.InStep.resume`, `Lane.InStep.complete`).
-/

namespace WasmShader

namespace Execution

open Compile Emit

/-! ## Lanes in step -/

section Lanes

variable {p : Program} {frames : List Frames} {out : Compiled} {α : Type} {a b : Lane}

/-- Lanes at the same point of the same invocation, with stacks that are described. -/
structure Lane.InStep (frames : List Frames) (out : Compiled) (a b : Lane) : Prop
    extends a.Abreast b where
  region : a.stack.words.size = regionSize out.toExecutable .stack
  shaped : Shaped frames out a.stack.words b.stack.words

/-- An operation came to the same on two lanes. What is left of them differs in the words of the
stack, and they are still in step unless the operation has failed. -/
structure SameEnd (frames : List Frames) (out : Compiled) (y y' : Except Abort α × Lane) : Prop where
  result : y'.1 = y.1
  lanes : y.2.EqOffStack y'.2
  inStep : ∀ v, y.1 = .ok v → y.2.InStep frames out y'.2

theorem SameEnd.of_error {e : Abort} (h : a.EqOffStack b) :
    SameEnd (α := α) frames out (.error e, a) (.error e, b) := ⟨rfl, h, fun _ hv => by cases hv⟩

theorem Lane.EqOffStack.abandon (h : a.EqOffStack b) : a.abandon.EqOffStack b.abandon :=
  { h with entry := rfl }

theorem Lane.EqOffStack.trapFailure (h : a.EqOffStack b) (code : TrapCode) :
    b.trapFailure code = a.trapFailure code := by
  rw [Lane.trapFailure, Lane.trapFailure, Lane.exportName, Lane.exportName, h.entry, h.index]

theorem Lane.EqOffStack.failWith (h : a.EqOffStack b) (e : Abort) :
    SameEnd (α := α) frames out (a.failWith e) (b.failWith e) := by
  cases e with
  | failed e => exact .of_error h.abandon
  | crashed message => exact .of_error h

end Lanes

/-! ## Requests -/

section Requests

variable {p : Program} {frames : List Frames} {out : Compiled} {a b : Array UInt32} {V : Nat}

theorem Share.extract {lo hi : Nat} (h : Share a b lo hi) (hsize : b.size = a.size) :
    b.extract lo hi = a.extract lo hi := by
  refine Array.ext_getElem? fun i => ?_
  rw [Array.getElem?_extract, Array.getElem?_extract, hsize]
  split
  · next hi' => exact h (lo + i) (Nat.le_add_right _ _) (by omega)
  · rfl

theorem Share.slice {lo hi : Nat} (h : Share a b (2 + lo) (2 + hi)) (hsize : b.size = a.size) :
    LaneStack.slice ⟨b⟩ lo hi = LaneStack.slice ⟨a⟩ lo hi := by
  have hextract : b.extract (LaneStack.headerWords + lo) (LaneStack.headerWords + hi)
      = a.extract (LaneStack.headerWords + lo) (LaneStack.headerWords + hi) := h.extract hsize
  rw [LaneStack.slice, LaneStack.slice, LaneStack.capacity, LaneStack.capacity, hsize, hextract]

/-- The number of a block is not that of a host function. -/
theorem Runs.lookup? (hlinked : Linked p frames out) {id : BlockId} {f : Shader.Function}
    (h : Runs out id f) : out.hosts.lookup? id = none := by
  obtain ⟨info, hinfo, rfl, -⟩ := h
  cases hhost : out.hosts.lookup? info.id with
  | none => rfl
  | some func =>
      have hblock := hlinked.blocks info hinfo
      have habove := hlinked.hosts _ _ hhost
      omega

/-- With a host function's number on top the stacks share the arguments, and below them a number awaits
its results. -/
structure Requests (frames : List Frames) (out : Compiled) (a b : Array UInt32) (V H : Nat)
    (func : HostFunc) : Prop where
  height : H + out.layout.sizeOf func.params + 1 = V
  small : out.layout.sizeOf func.results + 2 < 2 ^ 32
  awaited : Awaited frames out a b (out.layout.sizeOf func.results) H
  shared : Share a b H V

theorem OnTop.requests (hlinked : Linked p frames out) (h : OnTop frames out a b V) {w : UInt32}
    (hne : V ≠ 2) (hw : a[V - 1]? = some w) {func : HostFunc}
    (hfunc : out.hosts.lookup? ⟨w⟩ = some func) : ∃ H, Requests frames out a b V H func := by
  have hnot {id : BlockId} {f : Shader.Function} (hid : a[V - 1]? = some id.val)
      (hruns : Runs out id f) : False := by
    rw [hw] at hid
    cases hid
    rw [hruns.lookup? hlinked] at hfunc
    cases hfunc
  cases h with
  | empty => exact absurd rfl hne
  | @block fr k H hfr hk _ _ hid =>
      obtain ⟨f, -, -, hruns⟩ := (hlinked.machined fr hfr).emitted k _ (List.getElem?_eq_getElem hk)
      exact (hnot (by rw [Payload.frameWords]; exact hid) hruns).elim
  | exit hexit _ hid =>
      obtain ⟨name, hruns⟩ := hexit
      exact (hnot hid hruns).elim
  | @host h H hhost hsmall hawaited hshared hid =>
      rw [show H + out.layout.sizeOf h.params + 1 - 1 = H + out.layout.sizeOf h.params from rfl,
        hid] at hw
      cases hw
      rw [hhost] at hfunc
      cases hfunc
      exact ⟨H, rfl, hsmall, hawaited, hshared⟩

theorem sp_of_header (hheader : a[0]? = some (V.toUInt32 - 2)) (htwo : 2 ≤ V) (hV : V < 2 ^ 32) :
    (LaneStack.sp ⟨a⟩).toNat = V - 2 := by
  have hsp : LaneStack.sp ⟨a⟩ = V.toUInt32 - 2 := by
    rw [LaneStack.sp, Array.getD_eq_getD_getElem?, hheader, Option.getD_some]
  have htwo' : (2 : UInt32).toNat = 2 := rfl
  rw [hsp, UInt32.toNat_sub, toNat_toUInt32 hV, htwo']
  omega

/-- The same request is read off both stacks. -/
theorem Shaped.pending (hlinked : Linked p frames out) (h : Shaped frames out a b)
    (hsmall : a.size < 2 ^ 32) (hsize : b.size = a.size) (hheader : b[0]? = a[0]?) :
    out.hosts.pending ⟨b⟩ = out.hosts.pending ⟨a⟩ := by
  obtain ⟨V, htop, hV, hsp⟩ := h
  have htwo := htop.two_le
  have hheight := sp_of_header hsp htwo (by omega)
  have hheight' := sp_of_header (hheader.trans hsp) htwo (by omega)
  unfold HostTable.pending
  dsimp only
  rw [hheight, hheight']
  split
  · rfl
  · next hne =>
    have hplace : LaneStack.headerWords + (V - 2) - 1 = V - 1 := by
      rw [LaneStack.headerWords]
      omega
    have htopWord : LaneStack.top ⟨b⟩ = LaneStack.top ⟨a⟩ := by
      rw [LaneStack.top, LaneStack.top, hheight, hheight', hplace]
      dsimp only
      rw [htop.shared_top (by omega)]
    rw [htopWord]
    cases hid : LaneStack.top ⟨a⟩ with
    | error e => rfl
    | ok id =>
        have hw : a[V - 1]? = some id.val := by
          rw [LaneStack.top, hheight, hplace] at hid
          split at hid
          · next w hw =>
            cases hid
            exact hw
          · cases hid
        rw [bind_eq_of_ok rfl, bind_eq_of_ok rfl]
        cases hfunc : out.hosts.lookup? id with
        | none => rfl
        | some func =>
            obtain ⟨H, hrequests⟩ := htop.requests hlinked (by omega) hw hfunc
            have hslice : LaneStack.slice ⟨b⟩ (V - 2 - 1 - out.hosts.argWords func) (V - 2 - 1)
                = LaneStack.slice ⟨a⟩ (V - 2 - 1 - out.hosts.argWords func) (V - 2 - 1) := by
              have hheight := hrequests.height
              have hwords : out.hosts.argWords func = out.layout.sizeOf func.params := by
                rw [HostTable.argWords, hlinked.hostLayout]
              refine (hrequests.shared.mono ?_ ?_).slice hsize <;> omega
            dsimp only
            rw [hslice]

/-! ## Answers -/

theorem writeAt_eq_written (ws : Array UInt32) (place : Nat) (vs : List UInt32) :
    LaneStack.writeAt ws place vs = written ws ((List.range' place vs.length).zip vs) := by
  induction vs generalizing ws place with
  | nil => rfl
  | cons v vs ih =>
      rw [LaneStack.writeAt, ih, List.length_cons, List.range'_succ, List.zip_cons_cons, written_cons]

/-- The words behind the answer to a request: what it asked is gone, and the results are in the room
below. -/
def answered (a : Array UInt32) (H : Nat) (vs : List UInt32) : Array UInt32 :=
  written a ((0, H.toUInt32 - 2) :: (List.range' (H - 1 - vs.length) vs.length).zip vs)

theorem size_answered (a : Array UInt32) (H : Nat) (vs : List UInt32) :
    (answered a H vs).size = a.size := size_written ..

theorem Requests.answered {H : Nat} {func : HostFunc} (h : Requests frames out a b V H func)
    (hV : V ≤ a.size) (hsmall : a.size + 1 < 2 ^ 32) (hsize : b.size = a.size) {vs : List UInt32}
    (hvs : vs.length = out.layout.sizeOf func.results) (hroom : vs.length + 1 ≤ H - 2) :
    Shaped frames out (answered a H vs) (answered b H vs) := by
  have hheight := h.height
  have hplaces : ((0, H.toUInt32 - 2) :: (List.range' (H - 1 - vs.length) vs.length).zip vs).map
      (·.1) = 0 :: List.range' (H - 1 - vs.length) vs.length := by
    rw [List.map_cons, List.map_fst_zip (Nat.le_of_eq List.length_range')]
  have hkept (i : Nat) (hi : i ≠ 0) (hout : i < H - 1 - vs.length ∨ H - 1 ≤ i) :
      (Execution.answered a H vs)[i]? = a[i]? ∧ (Execution.answered b H vs)[i]? = b[i]? := by
    have hnot : i ∉ ((0, H.toUInt32 - 2)
        :: (List.range' (H - 1 - vs.length) vs.length).zip vs).map (·.1) := by
      rw [hplaces, List.mem_cons, List.mem_range'_1]
      omega
    exact ⟨getElem?_written_of_not_mem hnot, getElem?_written_of_not_mem hnot⟩
  have hend : H - 1 - vs.length + out.layout.sizeOf func.results + 1 = H := by omega
  refine ⟨H, h.awaited.filled (by omega) hend
    (fun i hi hi' => hkept i (by omega) (.inl hi')) (fun i hi _ => hkept i (by omega) (.inr (by omega)))
    fun i hi hi' => getElem?_written hsize (.inl ?_), by rw [size_answered]; omega, ?_⟩
  · rw [hplaces, List.mem_cons, List.mem_range'_1]
    omega
  · have hzero : 0 ∉ ((List.range' (H - 1 - vs.length) vs.length).zip vs).map (·.1) := by
      rw [List.map_fst_zip (Nat.le_of_eq List.length_range'), List.mem_range'_1]
      omega
    rw [Execution.answered, written_cons, getElem?_written_of_not_mem hzero,
      Array.getElem?_setIfInBounds_self_of_lt (by omega)]

theorem requests_of_pending (hlinked : Linked p frames out) (h : OnTop frames out a b V)
    (hV : V ≤ a.size) (hsmall : a.size < 2 ^ 32) (hheader : a[0]? = some (V.toUInt32 - 2))
    {request : Pending} (hrequest : out.hosts.pending ⟨a⟩ = .ok (some request)) :
    ∃ H, Requests frames out a b V H request.func := by
  have htwo := h.two_le
  have hheight := sp_of_header hheader htwo (by omega)
  unfold HostTable.pending at hrequest
  dsimp only at hrequest
  rw [hheight] at hrequest
  split at hrequest
  · cases hrequest
  · next hne =>
    obtain ⟨id, htop, hrequest⟩ := Program.bind_eq_ok hrequest
    split at hrequest
    · cases hrequest
    · next func hfunc =>
      obtain ⟨-, -, hrequest⟩ := Program.bind_eq_ok hrequest
      split at hrequest
      · cases hrequest
      · obtain ⟨ws, -, hrequest⟩ := Program.bind_eq_ok hrequest
        obtain ⟨args, -, hrequest⟩ := Program.bind_eq_ok hrequest
        cases hrequest
        unfold LaneStack.top at htop
        split at htop
        · next w hw =>
          cases htop
          rw [hheight, show LaneStack.headerWords + (V - 2) - 1 = V - 1 by
            rw [LaneStack.headerWords]; omega] at hw
          exact h.requests hlinked (by omega) hw hfunc
        · cases htop

end Requests

/-! ## What an answer does -/

section Answers

variable {t : HostTable} {V size : Nat}

theorem sp_setSp {a : Array UInt32} (ha : 0 < a.size) (v : UInt32) :
    (LaneStack.setSp ⟨a⟩ v).sp = v := by
  rw [LaneStack.sp, LaneStack.setSp, Array.getD_eq_getD_getElem?,
    Array.getElem?_setIfInBounds_self_of_lt ha, Option.getD_some]

/-- Words are taken off stacks of one size with as many words in use alike. -/
theorem pop_uniform (n : Nat) (htwo : 2 ≤ V) (hV : V ≤ size) (hsize : size < 2 ^ 32) :
    (∃ e, ∀ a : Array UInt32, a.size = size → a[0]? = some (V.toUInt32 - 2) →
      LaneStack.pop ⟨a⟩ n = .error e)
    ∨ n ≤ V - 2 ∧ ∀ a : Array UInt32, a.size = size → a[0]? = some (V.toUInt32 - 2) →
      ∃ ws, LaneStack.pop ⟨a⟩ n = .ok (ws, LaneStack.setSp ⟨a⟩ (V - 2 - n).toUInt32) := by
  by_cases hn : V - 2 < n
  · left
    apply Exists.intro
    intro a ha hheader
    unfold LaneStack.pop
    dsimp only
    rw [sp_of_header hheader htwo (by omega), if_pos hn]
    rfl
  · refine .inr ⟨Nat.not_lt.mp hn, fun a ha hheader => ?_⟩
    have hslice : LaneStack.slice ⟨a⟩ (V - 2 - n) (V - 2)
        = .ok (a.extract (LaneStack.headerWords + (V - 2 - n))
          (LaneStack.headerWords + (V - 2))).toList := by
      refine if_pos ?_
      rw [Bool.and_eq_true, decide_eq_true_eq, decide_eq_true_eq, LaneStack.capacity, ha,
        LaneStack.headerWords]
      omega
    unfold LaneStack.pop
    dsimp only
    rw [sp_of_header hheader htwo (by omega), if_neg hn, bind_eq_of_ok hslice]
    exact ⟨_, rfl⟩

/-- An answer that is refused leaves the stack as it is. -/
theorem complete_of_refused {request : Pending} {results : List Value} {e : Failure}
    (h : HostTable.checkResults request.func results = .error e) (s : LaneStack) :
    t.complete request results s = (.error (.failed e), s) := by
  rw [HostTable.complete, h]

/-- What an answer does to a stack, it does to every stack of that size and with as many words in
use. -/
theorem complete_uniform (t : HostTable) (request : Pending) (results : List Value) (htwo : 2 ≤ V)
    (hV : V ≤ size) (hsize : size < 2 ^ 32) :
    ∃ (r : Except Abort Unit) (g : Array UInt32 → Array UInt32),
      (∀ a : Array UInt32, a.size = size → a[0]? = some (V.toUInt32 - 2) →
        t.complete request results ⟨a⟩ = (r, ⟨g a⟩) ∧ (g a).size = size)
      ∧ (r = .ok () → ∃ H vs, H + t.argWords request.func + 1 = V
        ∧ vs.length = t.resultWords request.func ∧ vs.length + 1 ≤ H - 2
        ∧ g = fun a => answered a H vs) := by
  have hfails (e : Abort) (g : Array UInt32 → Array UInt32)
      (h : ∀ a : Array UInt32, a.size = size → a[0]? = some (V.toUInt32 - 2) →
        t.complete request results ⟨a⟩ = (.error e, ⟨g a⟩) ∧ (g a).size = size) :
      ∃ (r : Except Abort Unit) (g : Array UInt32 → Array UInt32),
        (∀ a : Array UInt32, a.size = size → a[0]? = some (V.toUInt32 - 2) →
          t.complete request results ⟨a⟩ = (r, ⟨g a⟩) ∧ (g a).size = size)
        ∧ (r = .ok () → ∃ H vs, H + t.argWords request.func + 1 = V
          ∧ vs.length = t.resultWords request.func ∧ vs.length + 1 ≤ H - 2
          ∧ g = fun a => answered a H vs) := ⟨.error e, g, h, fun hok => by cases hok⟩
  cases hcheck : HostTable.checkResults request.func results with
  | error e => exact hfails _ id fun a ha _ => ⟨complete_of_refused hcheck _, ha⟩
  | ok u =>
  cases hknown : Layout.requireKnown request.func.params with
  | error e =>
      refine hfails e id fun a ha _ => ⟨?_, ha⟩
      rw [HostTable.complete, hcheck, hknown]
      rfl
  | ok u =>
  rcases pop_uniform (t.argWords request.func + 1) htwo hV hsize with ⟨e, hpop⟩ | ⟨hn, hpop⟩
  · refine hfails e id fun a ha hheader => ⟨?_, ha⟩
    rw [HostTable.complete, hcheck, hknown]
    dsimp only
    rw [hpop a ha hheader]
    rfl
  cases hencode : t.layout.encodeAll results with
  | error e =>
      refine hfails e (·.setIfInBounds 0 (V - 2 - (t.argWords request.func + 1)).toUInt32)
        fun a ha hheader => ⟨?_, (Array.size_setIfInBounds ..).trans ha⟩
      obtain ⟨ws, hws⟩ := hpop a ha hheader
      rw [HostTable.complete, hcheck, hknown]
      dsimp only
      rw [hws, hencode]
      rfl
  | ok vs =>
  have hsp (a : Array UInt32) (ha : a.size = size) :
      (LaneStack.setSp ⟨a⟩ (V - 2 - (t.argWords request.func + 1)).toUInt32).sp.toNat
        = V - 2 - (t.argWords request.func + 1) := by
    rw [sp_setSp (by omega), toNat_toUInt32 (by omega)]
  by_cases hroom : V - 2 - (t.argWords request.func + 1) < vs.length + 1
  · refine hfails (.failed (HostTable.hostFailure
      ("no room reserved for " ++ toString vs.length ++ " result words"))) (·.setIfInBounds 0 (V - 2 - (t.argWords request.func + 1)).toUInt32)
      fun a ha hheader => ⟨?_, (Array.size_setIfInBounds ..).trans ha⟩
    obtain ⟨ws, hws⟩ := hpop a ha hheader
    rw [HostTable.complete, hcheck, hknown]
    dsimp only
    rw [hws, hencode]
    dsimp only
    rw [hsp a ha, if_pos hroom]
    rfl
  obtain ⟨H, hH⟩ : ∃ H, H + t.argWords request.func + 1 = V :=
    ⟨V - (t.argWords request.func + 1), by omega⟩
  refine ⟨.ok (), fun a => answered a H vs, fun a ha hheader => ⟨?_, (size_answered ..).trans ha⟩,
    fun _ => ⟨H, vs, hH, ?_, by omega, rfl⟩⟩
  · obtain ⟨ws, hws⟩ := hpop a ha hheader
    have hplace : LaneStack.headerWords + (V - 2 - (t.argWords request.func + 1) - 1 - vs.length)
        = H - 1 - vs.length := by
      rw [LaneStack.headerWords]
      omega
    have hword : (V - 2 - (t.argWords request.func + 1)).toUInt32 = H.toUInt32 - 2 := by
      have hheight : V - 2 - (t.argWords request.func + 1) + 2 = H := by omega
      rw [← hheight, Emit.toUInt32_add]
      exact (UInt32.add_sub_cancel _ _).symm
    rw [HostTable.complete, hcheck, hknown]
    dsimp only
    rw [hws, hencode]
    dsimp only
    rw [hsp a ha, if_neg hroom, hplace, writeAt_eq_written, hword]
    rfl
  · obtain ⟨_, -, hvs⟩ := Program.bind_eq_ok hencode
    cases hvs
    exact HostTable.length_encode_of_types (p := request)
      (HostTable.checkResults_eq_ok_iff.mp hcheck)

end Answers

/-! ## Operations on lanes in step -/

section Operations

variable {p : Program} {frames : List Frames} {out : Compiled} {a b : Lane} {env : Env}

theorem Lane.EqOffStack.withStack (h : a.EqOffStack b) {ws us : Array UInt32}
    (hsize : us.size = ws.size) :
    ({ a with stack := ⟨ws⟩ } : Lane).EqOffStack { b with stack := ⟨us⟩ } := { h with size := hsize }

theorem Lane.InStep.abandon (h : a.InStep frames out b) : a.abandon.InStep frames out b.abandon :=
  { h with entry := rfl, region := h.region, shaped := h.shaped }

/-- Behind the code of an invocation both lanes come to the same. -/
theorem Lane.InStep.settle (hlinked : Linked p frames out) (hlimit : out.stackWords.toNat < 2 ^ 31)
    (h : a.InStep frames out b) :
    SameEnd frames out (a.settle out.toExecutable) (b.settle out.toExecutable) := by
  have hsmall : a.stack.words.size < 2 ^ 32 := by
    rw [h.region, regionSize, LaneStack.headerWords]
    omega
  have htrap : b.stack.trap = a.stack.trap := by
    rw [LaneStack.trap, LaneStack.trap, Array.getD_eq_getD_getElem?, Array.getD_eq_getD_getElem?,
      h.header _ (by decide)]
  have hpending : out.hosts.pending b.stack = out.hosts.pending a.stack :=
    h.shaped.pending hlinked hsmall h.size (h.header 0 (by decide))
  unfold Lane.settle
  rw [htrap, hpending, h.entry, h.io, h.steps, h.trapFailure]
  split
  · exact h.toEqOffStack.failWith _
  · split
    · exact h.toEqOffStack.failWith _
    · exact ⟨rfl, h.toEqOffStack, fun _ _ => h⟩
    · split
      · exact .of_error h.toEqOffStack
      · split
        · exact h.toEqOffStack.failWith _
        · exact ⟨rfl, h.abandon.toEqOffStack, fun _ _ => h.abandon⟩

/-- The code of an entry point came to the same on two lanes: a request, if there is one, is what the
lanes wait for. -/
structure SameStop (frames : List Frames) (out : Compiled) (y y' : Except Abort Outcome × Lane) : Prop
    extends SameEnd frames out y y' where
  waits : ∀ request steps, y.1 = .ok (.yielded request steps) →
    out.hosts.pending y.2.stack = .ok (some request)

theorem SameStop.of_error {e : Abort} (h : a.EqOffStack b) :
    SameStop frames out (.error e, a) (.error e, b) :=
  ⟨.of_error h, fun _ _ hy => by cases hy⟩

theorem Lane.EqOffStack.stopWith (h : a.EqOffStack b) (e : Stop) :
    Option.Rel (SameStop frames out) (a.stopWith e) (b.stopWith e) := by
  cases e with
  | trap code =>
      rw [Lane.stopWith, Lane.stopWith, h.trapFailure]
      exact .some (.of_error h.abandon)
  | abort cause =>
      cases cause with
      | failed e => exact .some (.of_error h.abandon)
      | crashed message => exact .some (.of_error h)
  | outOfFuel => exact .none

/-- What a lane is, to the code that runs on it. -/
def Lane.pair (x : Executable) (ln : Lane) : Pair :=
  { index := ln.index, index' := ln.index, entry := ln.entry, size := regionSize x }

theorem Lane.placed (hexe : env.exe = out.toExecutable) (hlimit : out.stackWords.toNat < 2 ^ 31)
    (ln : Lane) : Placed out (ln.pair out.toExecutable) env := ⟨hexe, rfl, hlimit⟩

theorem enter_same (hlinked : Linked p frames out) (hexe : env.exe = out.toExecutable)
    (hlimit : out.stackWords.toNat < 2 ^ 31) {name : String} {f : Shader.Function}
    (hf : out.module.function? name = some f) (ln : Lane) {n : Nat}
    (h : Together (fun _ => InShape frames out (ln.pair out.toExecutable))
      (Exec.outcome (Exec.call env n f []) a.entering)
      (Exec.outcome (Exec.call env n f []) b.entering)) :
    Option.Rel (SameStop frames out) (a.enter env n name) (b.enter env n name) := by
  have hx : Runnable env.exe := by
    rw [hexe]
    exact hlinked.runnable
  have hf' : env.exe.module.function? name = some f := by rw [hexe, hf]
  rw [Lane.enter_eq hx hf', Lane.enter_eq hx hf']
  refine Option.Rel.bind h ?_
  rintro _ _ (⟨x, y, hshaped, hfound⟩ | hlanes)
  · have hstep : Lane.InStep frames out _ _ :=
      { hfound.lanes with
        region := hfound.size
        shaped := by rw [hfound.own, hfound.other]; exact hshaped }
    rw [hexe]
    refine .some ⟨hstep.settle hlinked hlimit, fun request steps hy => ?_⟩
    obtain ⟨hlane, -, hpending, -⟩ := settle_yielded (Prod.ext hy rfl)
    exact (congrArg (fun ln : Lane => out.hosts.pending ln.stack) hlane).trans hpending
  · exact hlanes.stopWith _

/-- A suspended invocation goes on alike on lanes in step. -/
theorem Lane.InStep.resume (hlinked : Linked p frames out) (hexe : env.exe = out.toExecutable)
    (hlimit : out.stackWords.toNat < 2 ^ 31) (h : a.InStep frames out b) (n : Nat) :
    Option.Rel (SameStop frames out) (a.resume env n) (b.resume env n) := by
  have hsuspended : b.isSuspended = a.isSuspended := by
    rw [Lane.isSuspended, Lane.isSuspended, h.entry, LaneStack.sp, LaneStack.sp,
      Array.getD_eq_getD_getElem?, Array.getD_eq_getD_getElem?, h.header 0 (by decide)]
  unfold Lane.resume
  rw [hsuspended, h.index]
  split
  · cases hf : out.module.function? resumeName with
    | none =>
        have hf' : env.exe.module.function? resumeName = none := by rw [hexe, hf]
        rw [Lane.enter, Lane.enter, hf']
        exact .some (.of_error h.toEqOffStack)
    | some f =>
        obtain rfl := hlinked.runnable.resume f hf
        exact enter_same hlinked hexe hlimit hf a
          (resume_together hlinked (a.placed hexe hlimit) h.toAbreast h.shaped rfl h.region n)
  · exact .some (.of_error h.toEqOffStack)

/-- A request that the lanes wait for is answered alike. -/
theorem Lane.InStep.complete (hlinked : Linked p frames out)
    (hlimit : out.stackWords.toNat < 2 ^ 31) (h : a.InStep frames out b) {request : Pending}
    (hrequest : out.hosts.pending a.stack = .ok (some request)) (results : List Value) :
    SameEnd frames out (a.complete out.toExecutable request results)
      (b.complete out.toExecutable request results) := by
  obtain ⟨V, htop, hV, hheader⟩ := h.shaped
  have hsmall : a.stack.words.size + 1 < 2 ^ 32 := by
    rw [h.region, regionSize, LaneStack.headerWords]
    omega
  obtain ⟨r, g, hall, hok⟩ := complete_uniform out.hosts request results htop.two_le hV (by omega)
  obtain ⟨hown, hsize⟩ := hall a.stack.words rfl hheader
  obtain ⟨hother, hsize'⟩ := hall b.stack.words h.size
    ((h.header 0 (by decide)).trans hheader)
  have hlanes := h.toEqOffStack.withStack (hsize'.trans hsize.symm)
  have hown' : a.complete out.toExecutable request results
      = (r, { a with stack := ⟨g a.stack.words⟩ }) := by
    rw [Lane.complete]
    exact congrArg (fun y : Except Abort Unit × LaneStack => (y.1, { a with stack := y.2 })) hown
  have hother' : b.complete out.toExecutable request results
      = (r, { b with stack := ⟨g b.stack.words⟩ }) := by
    rw [Lane.complete]
    exact congrArg (fun y : Except Abort Unit × LaneStack => (y.1, { b with stack := y.2 })) hother
  rw [hown', hother']
  refine ⟨rfl, hlanes, fun u hu => ?_⟩
  obtain ⟨H, vs, hheight, hvs, hroom, rfl⟩ := hok hu
  obtain ⟨H', hrequests⟩ := requests_of_pending hlinked htop hV (by omega) hheader hrequest
  have hargs : out.hosts.argWords request.func = out.layout.sizeOf request.func.params := by
    rw [HostTable.argWords, hlinked.hostLayout]
  have hresults : out.hosts.resultWords request.func = out.layout.sizeOf request.func.results := by
    rw [HostTable.resultWords, hlinked.hostLayout]
  have hheight' := hrequests.height
  obtain rfl : H = H' := by omega
  rw [hresults] at hvs
  exact
    { hlanes with
      header := fun q hq => getElem?_written h.size (.inr (h.header q hq))
      region := hsize.trans h.region
      shaped := hrequests.answered hV hsmall h.size hvs hroom }

end Operations

end Execution

end WasmShader
