import WasmShader.Proofs.EntriesAbreast
import WasmShader.Proofs.DispatcherRuns

/-!
# The first frame

An entry point finds the regions of its lane (`stmtMeaning_setup`). One that runs the dispatcher then
clears the header, and pushes what a call of its function starts with: room for the results below the
number of the exit block, and the arguments, which it reads from the io words, below the number of the
first block (`meaning_beginning`).
-/

namespace WasmShader

open Compile Emit
open Execution (Datum Env FitsAll Lane storedAll meaning stmtMeaning regionSize firstPush beginning
  body_machineEntry)

namespace Emit

/-! ## Finding the regions -/

/-- Once the regions have been found, the bases are there. -/
theorem stmtMeaning_setup {env : Env} (hx : Execution.Runnable env.exe) {ln : Lane}
    (hsized : ln.Sized env.exe) (haddressable : ∀ r, ln.Addressable r) (vars : Execution.Vars) :
    ∃ privates, stmtMeaning env (callOnly setupName) ⟨ln, vars, Execution.unset⟩
        = some (.ok .next, ⟨ln, vars, privates⟩) ∧ Based ⟨ln, vars, privates⟩ := by
  have hfound := Execution.outcome_setup hx rfl 7 ⟨ln, vars, Execution.unset⟩
  rw [if_neg (Nat.lt_irrefl 7)] at hfound
  refine ⟨_, (Execution.Exec.limit_eq_some_iff (Execution.Exec.growing_stmt env _)).mpr ⟨7, hfound⟩, ?_⟩
  have hstack : (regionSize env.exe .stack).toUInt32 = 2 + env.exe.stackWords := by
    rw [regionSize, toUInt32_add]
    exact congrArg (2 + ·) UInt32.ofNat_toNat
  have hio : (regionSize env.exe .io).toUInt32 = env.exe.ioWords := UInt32.ofNat_toNat
  have hglobals : (regionSize env.exe .globals).toUInt32 = env.exe.globalWords := UInt32.ofNat_toNat
  have hbase (r : Execution.Region) :
      ln.base r = ln.index.toUInt32 * (regionSize env.exe r).toUInt32 := by
    rw [Lane.base, hsized]
  have hbase₁ := hbase .stack
  have hbase₂ := hbase .io
  have hbase₃ := hbase .globals
  rw [hstack] at hbase₁
  rw [hio] at hbase₂
  rw [hglobals] at hbase₃
  refine ⟨?_, ?_, ?_, ?_, haddressable⟩
  · rw [hbase₁]
    rfl
  · rw [hbase₁]
    rfl
  · rw [hbase₂]
    rfl
  · rw [hbase₃]
    rfl

/-- The bases are there, and no variable hides them. -/
structure Grounded (s : Execution.State) : Prop extends Based s where
  hidden : ∀ v ∈ privates, s.vars.lookup v.name = none

theorem Framed.grounded {s : Execution.State} {n : Nat} (h : Framed s n) : Grounded s :=
  ⟨h.toBased, h.hidden⟩

theorem Grounded.withWords {s : Execution.State} (h : Grounded s) {r : Execution.Region}
    {ws : Array UInt32} (hsize : ws.size = (s.lane.words r).size) : Grounded (s.withWords r ws) :=
  ⟨h.toBased.of_sizes rfl (Execution.Lane.index_withWords ..) (size_withWords hsize), h.hidden⟩

/-! ## Arguments -/

section Arguments

variable {env : Env} {s : Execution.State} {n : Nat} {p : Push} {ws : List UInt32}

/-- A value is read from the io words. -/
theorem eval_ioStored {l : Layout} (hs : Grounded s) {t : ValueType} (ht : t.isKnown = true)
    {d : Datum} (hd : d.Fits l t) {start : Nat} {front back : List UInt32}
    (hwords : (s.lane.words .io).toList = front ++ d.stored l t ++ back)
    (hfront : front.length = start) :
    Execution.eval l s (loadValue l ioBuffer (baseWord ioBase start) t) = .ok d := by
  have hlen := Datum.length_stored l t d
  have hsize : (s.lane.words .io).size = front.length + l.words t + back.length := by
    rw [← Array.length_toList, hwords, List.length_append, List.length_append, hlen]
  have hplaces : Execution.PlacesAt l s ioBuffer .io (baseWord ioBase start) start (l.words t) :=
    Execution.placesAt_baseWord (hs.hidden ⟨ioBase, .u32⟩ (by decide)) hs.io (hs.addressable .io) rfl
      (by omega)
  rw [Execution.eval_loadValue ht hplaces, Execution.wordsFrom_of_append hwords hfront hlen]
  exact congrArg Except.ok hd

/-- Reads of values that are stored one after the other in the io words. -/
def ioArgsFrom (l : Layout) (start : Nat) (types : List ValueType) : List (ValueType × Shader.Expr) :=
  (types.zip (l.offsetsFrom start types)).map fun (t, off) =>
    (t, loadValue l ioBuffer (baseWord ioBase off) t)

/-- Values in the io words are pushed. -/
theorem Push.Writes.ioArgs (h : p.Writes env s n ws) (hs : Framed s n) {types : List ValueType}
    {data : List Datum} (hknown : AllKnown types) (hfits : FitsAll env.exe.layout types data)
    {start : Nat} {front back : List UInt32}
    (hwords : (s.lane.words .io).toList = front ++ storedAll env.exe.layout types data ++ back)
    (hfront : front.length = start)
    (hfit : LaneStack.headerWords + n + p.size + env.exe.layout.sizeOf types
      ≤ (s.lane.words .stack).size) :
    Writes env s n ((ioArgsFrom env.exe.layout start types).foldl
      (fun p (t, x) => p.value env.exe.layout x t) p) (ws ++ storedAll env.exe.layout types data) := by
  induction hfits generalizing p ws start front with
  | nil => exact (List.append_nil ws).symm ▸ h
  | @cons t d types data hd _ ih =>
      rw [Layout.sizeOf_cons] at hfit
      rw [Execution.storedAll_cons, ← List.append_assoc, List.append_assoc] at hwords
      have hval := h.value hs (hknown t (List.mem_cons_self ..)) (by omega)
        (v := loadValue env.exe.layout ioBuffer (baseWord ioBase start) t) (d := d) fun us hus =>
          eval_ioStored (hs.withWords hus).grounded (hknown t (List.mem_cons_self ..)) hd hwords hfront
      have hwords' : (s.lane.words .io).toList = front ++ d.stored env.exe.layout t
          ++ storedAll env.exe.layout types data ++ back := by
        rw [hwords]
        simp only [List.append_assoc]
      have hrest := ih hval (fun u hu => hknown u (List.mem_cons_of_mem _ hu)) hwords'
        (by rw [List.length_append, hfront, Datum.length_stored]) (by
          change _ + (p.size + env.exe.layout.words t) + _ ≤ _
          omega)
      rw [Execution.storedAll_cons, ← List.append_assoc]
      exact hrest

/-- The words of the first frame. -/
theorem firstPush_writes (hs : Framed s n) {sig : Signature} (hknown : AllKnown sig.params)
    {first exit : BlockId} {data : List Datum} (hfits : FitsAll env.exe.layout sig.params data)
    {back : List UInt32}
    (hwords : (s.lane.words .io).toList = storedAll env.exe.layout sig.params data ++ back)
    (hfit : LaneStack.headerWords + n + (firstPush env.exe.layout sig first exit).size
      ≤ (s.lane.words .stack).size) :
    ∃ room, room.length = env.exe.layout.sizeOf sig.results
      ∧ (firstPush env.exe.layout sig first exit).Writes env s n
        (room ++ [exit.val] ++ storedAll env.exe.layout sig.params data ++ [first.val]) := by
  obtain ⟨-, -, -, hsize⟩ := Execution.firstPush_lays env.exe.layout sig hknown first exit
  rw [hsize] at hfit
  have hreserve := (Push.Writes.empty env s n).reserve (k := env.exe.layout.sizeOf sig.results) (by
    change _ + 0 + _ ≤ _
    omega)
  have hreserved : (Push.reserve {} (env.exe.layout.sizeOf sig.results)).size
      = env.exe.layout.sizeOf sig.results := Nat.zero_add _
  have hexit := hreserve.blockId hs (by rw [hreserved]; omega) exit
  have hbelow : ((Push.reserve {} (env.exe.layout.sizeOf sig.results)).blockId exit).size
      = env.exe.layout.sizeOf sig.results + 1 := congrArg (· + 1) hreserved
  have hargs := hexit.ioArgs hs hknown hfits ((List.nil_append _).symm ▸ hwords) List.length_nil (by
    rw [hbelow]
    omega)
  have hsized : ((ioArgsFrom env.exe.layout 0 sig.params).foldl
      (fun p (t, x) => p.value env.exe.layout x t)
        ((Push.reserve {} (env.exe.layout.sizeOf sig.results)).blockId exit)).size
      = env.exe.layout.sizeOf sig.results + 1 + env.exe.layout.sizeOf sig.params := by
    rw [← hargs.size]
    simp only [List.length_append, List.length_nil, List.length_singleton, Nat.zero_add,
      Execution.length_wordsFrom, Execution.length_storedAll hfits.length_eq]
  have hfirst := hargs.blockId hs (by rw [hsized]; omega) first
  exact ⟨_, Execution.length_wordsFrom .., hfirst⟩

end Arguments

/-! ## The beginning of a run -/

section Beginning

variable {env : Env} {s : Execution.State} {n : Nat}

/-- The header is cleared. -/
theorem meaning_clearHeader (env : Execution.Env) (hs : Grounded s) {x y : UInt32} {back : List UInt32}
    (hwords : (s.lane.words .stack).toList = x :: y :: back) (rest : List Shader.Stmt) :
    ∃ ws : Array UInt32, ws.toList = 0 :: 0 :: back ∧
      meaning env (.store stackBuffer (.var headerBase) (.u32 0)
        :: .store stackBuffer trapPlace (.u32 0) :: rest) s = meaning env rest (s.withWords .stack ws) := by
  have hsize : (s.lane.words .stack).size = back.length + 2 := by
    rw [← Array.length_toList, hwords]
    rfl
  have hzero (s : Execution.State) : Execution.eval env.exe.layout s (.u32 0) = .ok (.ofU32 0) := rfl
  have hs₁ : Grounded (s.withWords .stack ((s.lane.words .stack).setIfInBounds 0 0)) :=
    hs.withWords Array.size_setIfInBounds
  have hheader {s : Execution.State} (hs : Grounded s) : Execution.eval env.exe.layout s
      (.var headerBase) = .ok (.ofU32 (s.lane.base .stack)) :=
    Execution.State.lookup_of_privates (hs.hidden ⟨headerBase, .u32⟩ (by decide)) hs.header
  have hplace := Execution.eval_offset (hheader hs₁) LaneStack.trapWord.toUInt32
  have hbuffer : Execution.Region.ofBuffer? stackBuffer = some .stack := rfl
  have hat := Execution.Lane.locate_eq (hs₁.addressable .stack) hbuffer (j := 1) (by
    rw [Execution.State.lane_withWords, Execution.Lane.words_withWords, Array.size_setIfInBounds]
    omega) rfl
  refine ⟨((s.lane.words .stack).setIfInBounds 0 0).setIfInBounds 1 0, ?_, ?_⟩
  · rw [Array.toList_setIfInBounds, Array.toList_setIfInBounds, hwords]
    rfl
  · have hfirst := Execution.stmtMeaning_store (hheader hs) (hzero s)
      (Execution.Lane.locate_eq (hs.addressable .stack) hbuffer (j := 0) (by omega)
        (UInt32.add_zero _).symm)
    rw [Execution.Lane.setWord_eq] at hfirst
    have hsecond := Execution.stmtMeaning_store hplace (hzero _) hat
    rw [Execution.Lane.setWord_eq, Execution.State.lane_withWords, Execution.Lane.words_withWords]
      at hsecond
    rw [Execution.meaning_cons_next hfirst]
    exact Execution.meaning_cons_next hsecond

variable {out : Compiled} {sig : Signature} {first exit : BlockId} {data : List Datum}
  {stored : List UInt32}

/-- The words of the first frame. -/
def firstSize (l : Layout) (sig : Signature) : Nat := l.sizeOf sig.results + 1 + l.sizeOf sig.params + 1

theorem exists_header {words : Array UInt32} {capacity : Nat}
    (h : words.size = LaneStack.headerWords + capacity) :
    ∃ x y back, words.toList = x :: y :: back := by
  rw [← Array.length_toList] at h
  change _ = 2 + capacity at h
  generalize words.toList = ws at h
  cases ws with
  | nil => rw [List.length_nil] at h; omega
  | cons x ws =>
      cases ws with
      | nil => rw [List.length_singleton] at h; omega
      | cons y back => exact ⟨x, y, back, rfl⟩

/-- In front of the first frame, the header is cleared. -/
theorem meaning_cleared (hs : Framed s 0) {x y : UInt32} {back : List UInt32}
    (hwords : (s.lane.words .stack).toList = x :: y :: back) :
    ∃ (ws : Array UInt32) (vars : Execution.Vars), ws.toList = 0 :: 0 :: back
      ∧ Framed { s.withWords .stack ws with vars } 0
      ∧ meaning env (beginning out sig first exit) s
        = meaning env ((firstPush out.layout sig first exit).finish out.stackWords ++ [writeSp])
          { s.withWords .stack ws with vars } := by
  obtain ⟨ws, hws, hclear⟩ := meaning_clearHeader env hs.grounded hwords (.assign spVar (.u32 0)
    :: ((firstPush out.layout sig first exit).finish out.stackWords ++ [writeSp]))
  have hsize : ws.size = (s.lane.words .stack).size := by
    rw [← Array.length_toList, ← Array.length_toList, hws, hwords]
    rfl
  obtain ⟨vars, hassign, hframed, -⟩ := (hs.withWords (r := .stack) hsize).assign_sp env (m := 0)
    (e := .u32 0) rfl
  refine ⟨ws, vars, hws, hframed, hclear.trans ?_⟩
  exact Execution.meaning_append_next hassign

/-- If there is room for it, the first frame is on the stack. -/
theorem meaning_beginning (hlayout : env.exe.layout = out.layout) (hs : Framed s 0)
    (hknown : AllKnown sig.params) (hfits : FitsAll out.layout sig.params data)
    (hio : (s.lane.words .io).toList = storedAll out.layout sig.params data ++ stored)
    (hsize : (s.lane.words .stack).size = LaneStack.headerWords + out.stackWords.toNat)
    (hfit : firstSize out.layout sig ≤ out.stackWords.toNat) :
    ∃ (room : List UInt32) (ws : Array UInt32) (vars : Execution.Vars),
      room.length = out.layout.sizeOf sig.results ∧ ws.size = (s.lane.words .stack).size
      ∧ InUse ws (room ++ [exit.val] ++ storedAll out.layout sig.params data ++ [first.val])
      ∧ meaning env (beginning out sig first exit) s
        = some (.ok .next, { s.withWords .stack ws with vars }) := by
  obtain ⟨x, y, back, hwords⟩ := exists_header hsize
  obtain ⟨ws₁, vars₁, hws₁, hframed₁, hrun₁⟩ := meaning_cleared hs hwords
  have hsize₁ : ws₁.size = (s.lane.words .stack).size := by
    rw [← Array.length_toList, ← Array.length_toList, hws₁, hwords]
    rfl
  obtain ⟨-, -, -, hpushed⟩ := Execution.firstPush_lays out.layout sig hknown first exit
  rw [hrun₁]
  rw [← hlayout] at hpushed hfits hio hfit ⊢
  obtain ⟨room, hroom, hwrites⟩ := firstPush_writes
    hframed₁ hknown hfits hio (by
      change 2 + 0 + _ ≤ ws₁.size
      rw [hpushed, hsize₁, hsize]
      change 2 + 0 + firstSize env.exe.layout sig ≤ 2 + _
      omega)
  obtain ⟨vars₂, hfinish, hframed₂, -⟩ := hwrites.finish hframed₁ (by
    rw [hpushed, Nat.zero_add]
    exact hfit)
  have hwrite := meaning_writeSp hframed₂ env (by
    change 0 < (LaneStack.writeAt ws₁ _ _).size
    rw [Execution.size_writeAt, hsize₁, hsize]
    exact Nat.lt_of_lt_of_le Nat.zero_lt_two (Nat.le_add_right _ _))
  refine ⟨room, (LaneStack.writeAt ws₁ (LaneStack.headerWords + 0) _).setIfInBounds 0
    (0 + (firstPush env.exe.layout sig first exit).size).toUInt32, vars₂, hroom, ?_, ?_,
    (Execution.meaning_append_next hfinish).trans hwrite⟩
  · rw [Array.size_setIfInBounds, Execution.size_writeAt, hsize₁]
  · have hlen := hwrites.size
    refine ⟨back.drop (firstPush env.exe.layout sig first exit).size, ?_⟩
    rw [Array.toList_setIfInBounds, Execution.toList_writeAt (by
      rw [hlen, hpushed, hsize₁, hsize]
      change 2 + 0 + firstSize env.exe.layout sig ≤ 2 + _
      omega), hws₁, hlen, Nat.zero_add]
    have hdrop : (0 :: 0 :: back : List UInt32).drop (LaneStack.headerWords + 0
        + (firstPush env.exe.layout sig first exit).size)
        = back.drop (firstPush env.exe.layout sig first exit).size := by
      rw [show LaneStack.headerWords + 0 + (firstPush env.exe.layout sig first exit).size
        = (firstPush env.exe.layout sig first exit).size + 1 + 1 by
          change 2 + 0 + _ = _
          omega]
      rfl
    rw [hdrop]
    rfl

/-- If there is none, the entry point traps. -/
theorem meaning_beginning_overflow (hs : Framed s 0) (hknown : AllKnown sig.params)
    (hsize : (s.lane.words .stack).size = LaneStack.headerWords + out.stackWords.toNat)
    (hover : out.stackWords.toNat < firstSize out.layout sig)
    (hsmall : firstSize out.layout sig < 2 ^ 32) :
    ∃ t, meaning env (beginning out sig first exit) s = some (.error (.trap .stackOverflow), t)
      ∧ s.lane.Kin t.lane := by
  obtain ⟨x, y, back, hwords⟩ := exists_header hsize
  obtain ⟨ws, vars, hws, hframed, hrun⟩ := meaning_cleared hs hwords
  have hsize₁ : ws.size = (s.lane.words .stack).size := by
    rw [← Array.length_toList, ← Array.length_toList, hws, hwords]
    rfl
  obtain ⟨-, -, -, hpushed⟩ := Execution.firstPush_lays out.layout sig hknown first exit
  have htrap {t : Execution.State} (ht : Framed t 0) : meaning env
      ((firstPush out.layout sig first exit).finish out.stackWords) t
        = some (.error (.trap .stackOverflow), t.trapped .stackOverflow) :=
    meaning_finish_overflow ht (by rw [hpushed, Nat.zero_add]; exact hover)
      (by rw [hpushed, Nat.zero_add]; exact hsmall)
  refine ⟨_, by rw [hrun, Execution.meaning_append, htrap hframed]; rfl, ?_⟩
  exact ((Lane.Kin.refl s.lane).withWords (r := .stack) hsize₁).trapped .stackOverflow

end Beginning

end Emit

end WasmShader
