import WasmShader.Proofs.DispatcherRuns
import WasmShader.Proofs.HostAnswer
import WasmShader.Proofs.LayoutAgreement
import WasmShader.Proofs.RunMeanings

/-!
# Lanes that have stopped

A lane that has stopped at a situation tells its caller what the situation waits with: a request with
the arguments of the host function (`Situation.Rests.settle`), or the results of all (`settle_leave`). The
answer to the request leaves it at the situation that the answer leads to (`Situation.Rests.answer`).
-/

namespace WasmShader

open Execution (Datum FitsAll storedAll)

/-- The values that are carried. -/
def Layout.valuesOf (l : Layout) (types : List ValueType) (data : List Datum) : List Value :=
  (types.zip data).map fun (t, d) => d.toValue l t

/-- Values are read back from their words. -/
theorem Layout.decodeValues_stored (l : Layout) {types : List ValueType} {data : List Datum}
    (hlen : types.length = data.length) (back : List UInt32) :
    l.decodeValues types (storedAll l types data ++ back) = l.valuesOf types data := by
  induction types generalizing data with
  | nil => rfl
  | cons t types ih =>
      cases data with
      | nil => cases hlen
      | cons d data =>
          have hd := d.length_stored l t
          rw [Layout.decodeValues, Execution.storedAll_cons, List.append_assoc, ← l.decode_take,
            ← hd, List.take_left, List.drop_left, ih (Nat.succ.inj hlen), ← Datum.toValue_eq]
          rfl

theorem Layout.types_valuesOf (l : Layout) {types : List ValueType} {data : List Datum}
    (hlen : types.length = data.length) : (l.valuesOf types data).map (·.type) = types := by
  rw [valuesOf, List.map_map]
  refine Eq.trans (List.map_congr_left fun x _ => ?_) (List.map_fst_zip hlen.le)
  exact x.2.type_toValue l x.1

/-! ## Requests -/

namespace HostTable

variable {t : HostTable} {s : LaneStack} {trap : UInt32} {below back : List UInt32}

/-- With a request on top, a lane asks for it. -/
theorem pending_of_holds {func : HostFunc} {args : List Datum}
    (hs : s.Holds trap (below ++ (storedAll t.layout func.params args ++ [func.id.val])) back)
    (hsmall : (below ++ (storedAll t.layout func.params args ++ [func.id.val])).length < 2 ^ 32)
    (hfunc : t.lookup? func.id = some func) (hknown : AllKnown func.params)
    (hlen : func.params.length = args.length) :
    t.pending s = .ok (some ⟨func, t.layout.valuesOf func.params args⟩) := by
  have hargs := Execution.length_storedAll (l := t.layout) hlen
  have hsize := hs.size
  have hsp := hs.sp
  have hwords : s.words.toList
      = s.sp :: trap :: below ++ storedAll t.layout func.params args ++ (func.id.val :: back) := by
    rw [hs, hsp]
    simp only [List.append_assoc, List.cons_append, List.nil_append]
  have hlength : s.sp.toNat = below.length + t.layout.sizeOf func.params + 1 := by
    rw [hsp, Execution.toNat_toUInt32 hsmall, List.length_append, List.length_append, hargs]
    rfl
  rw [List.length_append, List.length_append, hargs, List.length_singleton] at hsize
  have htop : s.top = .ok func.id := by
    rw [LaneStack.top, ← Array.getElem?_toList, hwords, List.getElem?_append_right (by
      simp only [List.length_append, List.length_cons, hargs, LaneStack.headerWords]
      omega)]
    have hzero : LaneStack.headerWords + s.sp.toNat - 1
        - (s.sp :: trap :: below ++ storedAll t.layout func.params args).length = 0 := by
      simp only [List.length_append, List.length_cons, hargs, LaneStack.headerWords]
      omega
    rw [hzero]
    rfl
  have hslice : s.slice below.length (below.length + t.layout.sizeOf func.params)
      = .ok (storedAll t.layout func.params args) := by
    rw [LaneStack.slice, LaneStack.capacity, hsize, if_pos (by
      rw [Bool.and_eq_true, decide_eq_true_eq, decide_eq_true_eq]
      omega), Array.toList_extract, hwords, List.extract_eq_take_drop, List.append_assoc,
      show LaneStack.headerWords + below.length = (s.sp :: trap :: below).length from by
        rw [LaneStack.headerWords, List.length_cons, List.length_cons]
        omega,
      List.drop_left, List.length_cons, List.length_cons, LaneStack.headerWords,
      show 2 + (below.length + t.layout.sizeOf func.params) - (below.length + 1 + 1)
        = t.layout.sizeOf func.params by omega, ← hargs, List.take_left]
  have hdecode := t.layout.decodeValues_stored hlen []
  rw [List.append_nil] at hdecode
  unfold pending
  dsimp only
  rw [hlength, if_neg (Nat.succ_ne_zero _), htop]
  dsimp only [bind, Except.bind]
  rw [hfunc]
  dsimp only
  rw [Layout.requireKnown_eq_ok hknown, argWords, if_neg (by omega), Nat.add_sub_cancel,
    Nat.add_sub_cancel, hslice]
  dsimp only
  rw [Layout.decodeAll_eq_ok hknown (by rw [hargs]), hdecode]
  rfl

end HostTable

namespace Structured

open Compile Emit
open Execution (Lane Outcome)

variable {σ : Type}

/-! ## What a lane tells -/

section Settling

variable {frames : List Frames} {out : Compiled} {env : Execution.Env} {oracle : Oracle σ}
  {exit : BlockId} {finals : List ValueType} {waiting : List Activation} {func : HostFunc}
  {args : List Datum} {shared : Shared σ} {ln : Lane} {words : List UInt32}

theorem holds_of_inUse (h : InUse (ln.words .stack) words) : ∃ back, ln.stack.Holds 0 words back := h

theorem trap_of_inUse (h : InUse (ln.words .stack) words) : ln.stack.trap = .none := by
  obtain ⟨back, hwords⟩ := h
  have hword : ln.stack.words[LaneStack.trapWord]? = some 0 := by
    rw [← Array.getElem?_toList, show ln.stack.words.toList = _ from hwords]
    rfl
  rw [LaneStack.trap, Array.getD_eq_getD_getElem?, hword]
  rfl

theorem Situation.Rests.exists_words {s : Situation σ} (h : Runner frames out env oracle)
    (hrests : s.Rests out exit finals ln) : ∃ words, s.Words out exit finals words
      ∧ InUse (ln.words .stack) words ∧ words.length < 2 ^ 31 := by
  obtain ⟨words, hwords, hinUse⟩ := hrests.words
  refine ⟨words, hwords, hinUse, ?_⟩
  obtain ⟨back, hback⟩ := hinUse
  have hsize := hrests.size
  have hlimit := h.limit
  rw [← Array.length_toList, hback, List.length_cons, List.length_cons, List.length_append] at hsize
  change _ = 2 + _ at hsize
  omega

/-- What the host is asked for has types that are known. -/
theorem known_of_lookup? (hhosts : out.hosts.Sound out.program)
    (hfunc : out.hosts.lookup? func.id = some func) :
    AllKnown func.params ∧ AllKnown func.results := by
  have hmem : func ∈ out.hosts.funcs := by
    unfold HostTable.lookup? at hfunc
    split at hfunc
    · exact List.mem_of_getElem? hfunc
    · cases hfunc
  obtain ⟨sig, htakes⟩ := hhosts.takes func hmem
  obtain ⟨-, hparams, hresults⟩ := htakes.host func rfl
  rw [hparams, hresults]
  exact ⟨htakes.known.params, htakes.known.results⟩

/-- Where the host is asked, the lane yields. -/
theorem settle_ask (h : Runner frames out env oracle) (hhosts : out.hosts.Sound out.program)
    (hs : Situation.Possible frames out finals (⟨waiting, .ask func args, shared⟩ : Situation σ))
    (hrests : Situation.Rests out exit finals (⟨waiting, .ask func args, shared⟩ : Situation σ) ln) :
    ln.settle out.toExecutable
      = (.ok (.yielded ⟨func, out.layout.valuesOf func.params args⟩ ln.steps), ln) := by
  obtain ⟨words, hwords, hinUse, hsmall⟩ := hrests.exists_words h
  have htrap := trap_of_inUse hinUse
  obtain ⟨back, hholds⟩ := holds_of_inUse hinUse
  have hlayout : out.hosts.layout = out.layout := h.linked.hostLayout
  cases hs with
  | ask hasked _ hargs _ _ =>
      cases hwords with
      | @ask _ _ _ _ below hbelow =>
          rw [← hlayout] at hholds hsmall
          have hpending := HostTable.pending_of_holds hholds (by omega) hasked
            (known_of_lookup? hhosts hasked).1 hargs.length_eq
          rw [Lane.settle, if_neg (not_not_intro htrap), hpending, hlayout]

/-- Where all calls have come back, the lane ends with their results. -/
theorem settle_leave {e : Entry} {results : List Datum} (hentry : ln.entry = some e)
    (hknown : AllKnown e.sig.results) (hlen : e.sig.results.length = results.length)
    (hempty : InUse (ln.words .stack) [])
    (hio : ln.io.toList.take (out.layout.sizeOf e.sig.results)
      = storedAll out.layout e.sig.results results) :
    ln.settle out.toExecutable
      = (.ok (.finished (out.layout.valuesOf e.sig.results results) ln.steps), ln.abandon) := by
  have htrap := trap_of_inUse hempty
  obtain ⟨back, hholds⟩ := holds_of_inUse hempty
  have hpending : out.hosts.pending ln.stack = .ok none := by
    unfold HostTable.pending
    dsimp only
    rw [hholds.sp]
    rfl
  have hlength := congrArg List.length hio
  rw [List.length_take, Execution.length_storedAll hlen] at hlength
  have hwords := List.take_append_drop (out.layout.sizeOf e.sig.results) ln.io.toList
  rw [hio] at hwords
  have hdecode : out.layout.decodeAll e.sig.results ln.io.toList
      = .ok (out.layout.valuesOf e.sig.results results) := by
    rw [Layout.decodeAll_eq_ok hknown (by omega), ← hwords, out.layout.decodeValues_stored hlen]
  rw [Lane.settle, if_neg (not_not_intro htrap), hpending]
  dsimp only
  rw [hentry]
  dsimp only
  rw [hdecode]

/-- An answer of the declared types leaves the lane at the situation that it leads to, still
suspended. -/
theorem Situation.Rests.answer (h : Runner frames out env oracle)
    (hhosts : out.hosts.Sound out.program)
    (hs : Situation.Possible frames out finals (⟨waiting, .ask func args, shared⟩ : Situation σ))
    (hrests : Situation.Rests out exit finals (⟨waiting, .ask func args, shared⟩ : Situation σ) ln)
    {results : List Value} (htypes : results.map (·.type) = func.results) (values : List Value)
    (host : σ) :
    ∃ ln', ln.complete out.toExecutable ⟨func, values⟩ results = (.ok (), ln') ∧ ln.Kin ln'
      ∧ (Situation.back waiting (results.map (.ofValue out.layout)) { shared with host }).Rests out
        exit finals ln' ∧ ln'.stack.sp ≠ 0 := by
  obtain ⟨words, hwords, hinUse, hsmall⟩ := hrests.exists_words h
  obtain ⟨back, hholds⟩ := holds_of_inUse hinUse
  have hlayout : out.hosts.layout = out.layout := h.linked.hostLayout
  cases hs with
  | ask hasked _ hargs hwaits _ =>
      obtain ⟨hparams, hresults⟩ := known_of_lookup? hhosts hasked
      cases hwords with
      | @ask _ _ _ _ below hbelow =>
          obtain ⟨low, room, id, rfl, hroom, hback⟩ := hbelow.back (σ := σ) h.machinery hwaits
          have hcall : (storedAll out.layout func.params args ++ [func.id.val]).length
              = out.hosts.argWords func + 1 := by
            rw [List.length_append, Execution.length_storedAll hargs.length_eq, HostTable.argWords,
              hlayout]
            rfl
          obtain ⟨s', hrun, hs'⟩ := HostTable.complete_writes (t := out.hosts) ⟨func, values⟩ htypes
            hparams hresults (by rw [hlayout]; exact hroom) hcall hholds (by omega)
          rw [hlayout] at hs'
          have hlen : (storedAll out.layout func.results (results.map (.ofValue out.layout))).length
              = room.length := by
            rw [hroom]
            exact Execution.length_storedAll (by rw [← htypes, List.length_map, List.length_map])
          have hsize : s'.words.size = ln.stack.words.size := by
            rw [hs'.size, hholds.size]
            simp only [List.length_append, hlen]
            omega
          refine ⟨{ ln with stack := s' }, ?_, ⟨rfl, rfl, fun r => ?_⟩,
            ⟨⟨_, hback _ { shared with host }, _, hs'⟩, hsize.trans hrests.size, ?_⟩, ?_⟩
          · rw [Lane.complete, hrun]
          · cases r with
            | stack => exact hsize
            | io => rfl
            | globals => rfl
          · have hshared : (Situation.back waiting (results.map (.ofValue out.layout))
                { shared with host }).shared = { shared with host } := by cases waiting <;> rfl
            rw [hshared]
            exact hrests.globals
          · intro hsp
            have hcount := congrArg UInt32.toNat (hs'.sp.symm.trans hsp)
            rw [Execution.toNat_toUInt32 (by
              simp only [List.length_append, hlen] at hsmall ⊢
              omega), List.length_append] at hcount
            simp at hcount

end Settling

end Structured

end WasmShader
