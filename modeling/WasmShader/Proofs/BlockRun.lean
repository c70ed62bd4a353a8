import WasmShader.Proofs.BlockCode

/-!
# Runs of blocks

The function of a block starts with the block's frame on top of the lane's stack. What is
saved there is put back into the variables of the locals and operands, and then the code of
the block and of its terminator run. So the function as a whole does what `evalBlock` does,
from the locals that the frame saves, all others being zero.
-/

namespace WasmShader

open Execution (Datum Env FitsAll meaning callMeaning storedAll)
open Structured (Oracle Store Shared Exit)

/-- The locals of a function when only some are saved: the others are zero. -/
def spreadLocals (l : Layout) (types : List ValueType) (is : List Nat) (saved : List Datum) :
    List Datum :=
  types.mapIdx fun i t => ((is.zip saved).lookup i).getD (.zero (Shader.Ty.carrier l t))

theorem lookup_zip {is : List Nat} {saved : List Datum} (hnodup : is.Nodup) {k i : Nat} {d : Datum}
    (hi : is[k]? = some i) (hd : saved[k]? = some d) : (is.zip saved).lookup i = some d := by
  induction is generalizing saved k with
  | nil => cases hi
  | cons j is ih =>
      cases saved with
      | nil => cases hd
      | cons e saved =>
          rw [List.zip_cons_cons, List.lookup_cons]
          cases k with
          | zero =>
              cases hi
              cases hd
              rw [beq_self_eq_true]
          | succ k =>
              have hne : i ≠ j := by
                rintro rfl
                exact (List.nodup_cons.mp hnodup).1 (List.mem_of_getElem? hi)
              rw [beq_false_of_ne hne]
              exact ih (List.nodup_cons.mp hnodup).2 hi hd

theorem lookup_zip_none {is : List Nat} {i : Nat} (h : i ∉ is) (saved : List Datum) :
    (is.zip saved).lookup i = none := by
  rw [List.lookup_eq_none_iff]
  rintro ⟨j, d⟩ hmem
  have hne : i ≠ j := by
    rintro rfl
    exact h (List.of_mem_zip hmem).1
  simpa using hne

theorem length_spreadLocals (l : Layout) (types : List ValueType) (is : List Nat)
    (saved : List Datum) : (spreadLocals l types is saved).length = types.length :=
  List.length_mapIdx

theorem spreadLocals_saved {l : Layout} {types : List ValueType} {is : List Nat}
    {saved : List Datum} (hnodup : is.Nodup) {k i : Nat} {d : Datum} (hi : is[k]? = some i)
    (hd : saved[k]? = some d) (hlt : i < types.length) :
    (spreadLocals l types is saved)[i]? = some d := by
  rw [spreadLocals, List.getElem?_mapIdx, List.getElem?_eq_getElem hlt, Option.map_some,
    lookup_zip hnodup hi hd]
  rfl

theorem spreadLocals_zero {l : Layout} {types : List ValueType} {is : List Nat} {i : Nat}
    {t : ValueType} (h : i ∉ is) (ht : types[i]? = some t) (saved : List Datum) :
    (spreadLocals l types is saved)[i]? = some (.zero (Shader.Ty.carrier l t)) := by
  rw [spreadLocals, List.getElem?_mapIdx, ht, Option.map_some, lookup_zip_none h]
  rfl

/-- What is spread has the types of the locals. -/
theorem spreadLocals_fits {l : Layout} {types ts : List ValueType} {is : List Nat}
    {saved : List Datum} (hnodup : is.Nodup)
    (hts : List.Forall₂ (fun i t => types[i]? = some t) is ts) (hfits : FitsAll l ts saved) :
    FitsAll l types (spreadLocals l types is saved) := by
  refine List.forall₂_iff_get.mpr ⟨(length_spreadLocals ..).symm, fun i hi hi' => ?_⟩
  have hget : (spreadLocals l types is saved)[i]? = some ((spreadLocals l types is saved).get ⟨i, hi'⟩) :=
    List.getElem?_eq_getElem hi'
  by_cases hmem : i ∈ is
  · obtain ⟨k, hk⟩ := List.mem_iff_getElem?.mp hmem
    have hlt := (List.getElem?_eq_some_iff.mp hk).1
    have hlt' : k < saved.length := by rw [← hfits.length_eq, ← hts.length_eq]; exact hlt
    have hd : saved[k]? = some saved[k] := List.getElem?_eq_getElem hlt'
    rw [spreadLocals_saved hnodup hk hd hi, Option.some.injEq] at hget
    rw [← hget]
    have htypes := (List.forall₂_iff_get.mp hts).2 k hlt (by rw [← hts.length_eq]; exact hlt)
    have hfit := (List.forall₂_iff_get.mp hfits).2 k (by rw [← hts.length_eq]; exact hlt) hlt'
    obtain ⟨_, hi₂⟩ := List.getElem?_eq_some_iff.mp hk
    simp only [List.get_eq_getElem, hi₂] at htypes
    rw [List.getElem?_eq_getElem hi, Option.some.injEq] at htypes
    simp only [List.get_eq_getElem] at hfit ⊢
    rw [htypes]
    exact hfit
  · have ht : types[i]? = some (types.get ⟨i, hi⟩) := List.getElem?_eq_getElem hi
    rw [spreadLocals_zero hmem ht, Option.some.injEq] at hget
    rw [← hget]
    exact Datum.fits_zero _ _

namespace Emit

variable {σ : Type} {bc : BlockContext} {kept : Nat → Prop} {env : Env} {oracle : Oracle σ}
  {b : Block}

/-! ## Emission of blocks -/

/-- The variables that a frame is popped into. -/
def popNames (pl : Payload) (operands : List ValueType) : List String :=
  pl.locals.map localName ++ slotNames 0 operands

theorem localVars_declares {is : List Nat} {saved : List ValueType}
    (h : List.Forall₂ (fun i t => bc.func.locals[i]? = some t) is saved) (es : State) :
    Declares bc.toContext bc.func (is.mapM (Emitter.localVar bc.toContext bc.func)) es fun vars es' =>
      vars = is.map localName ∧ ∀ x ∈ vars, x ∈ es'.names := by
  induction h generalizing es with
  | nil => exact .pure ⟨rfl, nofun⟩
  | @cons i t is saved ht _ ih =>
      rw [List.mapM_cons]
      refine .bind (localVar_declares ht es) ?_
      rintro _ es₁ - ⟨rfl, hname⟩
      refine .bind (ih es₁) ?_
      rintro _ es₂ hgrows ⟨rfl, hnames⟩
      refine .pure ⟨rfl, fun x hx => ?_⟩
      rcases List.mem_cons.mp hx with rfl | hx
      · exact hgrows.names hname
      · exact hnames x hx

theorem slotVars_declares {types : List ValueType} (hknown : AllKnown types) (front : Array String)
    (es : State) (hfront : ∀ x ∈ front.toList, x ∈ es.names) :
    Declares bc.toContext bc.func
      (List.mapIdxM.go (fun i t => Emitter.slot bc.toContext i t) types front) es fun vars es' =>
      vars = front.toList ++ slotNames front.size types ∧ ∀ x ∈ vars, x ∈ es'.names := by
  induction types generalizing front es with
  | nil => exact .pure ⟨by rw [slotNames, List.append_nil], hfront⟩
  | cons t types ih =>
      obtain ⟨ht, hts⟩ := List.forall_mem_cons.mp hknown
      rw [List.mapIdxM.go]
      refine .bind (slot_declares ht front.size es) ?_
      rintro _ es₁ hgrows₁ ⟨rfl, hname⟩
      refine (ih hts (front.push (slotName front.size t)) es₁ fun x hx => ?_).mono ?_
      · rw [Array.toList_push, List.mem_append, List.mem_singleton] at hx
        rcases hx with hx | rfl
        · exact hgrows₁.names (hfront x hx)
        · exact hname
      · rintro _ es₂ - ⟨rfl, hnames⟩
        refine ⟨?_, hnames⟩
        rw [Array.toList_push, Array.size_push, List.append_assoc, slotNames]
        rfl

theorem frameVars_declares {l : Layout} {pl : Payload} (hpl : pl.Formed l bc.func b.entry)
    (es : State) :
    Declares bc.toContext bc.func (bc.frameVars b pl) es fun vars es' =>
      vars = popNames pl b.entry ∧ ∀ x ∈ vars, x ∈ es'.names := by
  obtain ⟨saved, hsaved, -⟩ := hpl.types
  unfold BlockContext.frameVars
  refine .bind (localVars_declares hsaved es) ?_
  rintro _ es₁ - ⟨rfl, hlocals⟩
  refine .bind (slotVars_declares hpl.operands_known #[] es₁ nofun) ?_
  rintro _ es₂ hgrows ⟨rfl, hslots⟩
  refine .pure ⟨rfl, fun x hx => ?_⟩
  rcases List.mem_append.mp hx with hx | hx
  · exact hgrows.names (hlocals x hx)
  · exact hslots x hx

/-- The parts of the code of a block. -/
structure BlockParts (bc : BlockContext) (env : Env) (oracle : Oracle σ) (b : Block)
    (code : List Shader.Stmt) (es : State) : Prop where
  inner : ∃ inner, code = readSp :: popFrame bc.layout (bc.frames.payload b.index)
        (popNames (bc.frames.payload b.index) b.entry) ++ inner ++ exitCode bc b.stack b.term
      ++ [writeSp]
    ∧ Simulates bc.program bc.func env [] [] b.entry (some b.stack) es inner
      (Structured.evalSeq bc.program env.exe.layout oracle b.body)
  popped : ∀ x ∈ popNames (bc.frames.payload b.index) b.entry, x ∈ es.names
  saves : ∀ target ∈ b.term.successors, Saves bc target es
  sp : (⟨spVar, .u32⟩ : Shader.Variable) ∈ es.declared
  declared : ∀ v ∈ es.declared, v = ⟨spVar, .u32⟩ ∨ WorkVar bc.toContext bc.func v

theorem emitBlockBody_spec (hset : Setting bc.toContext kept bc.func env oracle)
    (hframes : bc.frames.Formed) {i : Nat} (hi : bc.frames.machine.blocks[i]? = some b)
    (hb : b.Typed bc.program bc.analysis kept bc.frames.machine) (hids : Numbered bc b.term)
    (hlocals : AllKnown bc.func.locals) :
    ∃ code es, bc.emitBlockBody b {} = .ok (code, es) ∧ BlockParts bc env oracle b code es := by
  have hentry : bc.frames.machine.entryTypes? b.index = some b.entry := by
    rw [hframes.index i b hi, Machine.entryTypes?, hi]
    rfl
  have hpl : (bc.frames.payload b.index).Formed bc.frames.layout bc.func b.entry :=
    hframes.payload_of_entry hentry
  let es₀ : State := { declared := [⟨spVar, .u32⟩] }
  let rest : Emitter (List Shader.Stmt) := do
    let payload ← entry bc.frames.payloads b.index
    let vars ← bc.frameVars b payload
    setStack b.entry
    let inner ← emitSeq bc.toContext bc.func [] b.body
    let last ← bc.emitTerminator b
    return readSp :: popFrame bc.layout payload vars ++ inner ++ last ++ [writeSp]
  have hemits : Emits bc.toContext bc.func rest es₀ fun code es =>
      (∃ inner, code = readSp :: popFrame bc.layout (bc.frames.payload b.index)
          (popNames (bc.frames.payload b.index) b.entry) ++ inner ++ exitCode bc b.stack b.term
        ++ [writeSp]
      ∧ Simulates bc.program bc.func env [] [] b.entry (some b.stack) es inner
        (Structured.evalSeq bc.program env.exe.layout oracle b.body))
      ∧ (∀ x ∈ popNames (bc.frames.payload b.index) b.entry, x ∈ es.names)
      ∧ ∀ target ∈ b.term.successors, Saves bc target es := by
    refine .bind (payload_declares hframes hentry es₀).emits ?_
    rintro _ _ - ⟨⟨rfl, rfl⟩, -⟩
    refine .bind (frameVars_declares hpl es₀).emits ?_
    rintro _ es₁ - ⟨⟨rfl, hnames⟩, -⟩
    refine .bind (setStack_emits hpl.operands_known es₁) ?_
    rintro _ es₂ - rfl
    have hlabels (count : Nat) : LabelsFit [] [] 0 count := ⟨rfl, nofun, nofun⟩
    have hstack : State.stack { es₁ with stack := b.entry } = [] ++ b.entry := rfl
    refine .bind (emitSeq_emits hset b.body hb.direct (hlabels _) hb.body hstack) ?_
    intro inner es₃ hgrows₃ hinner
    refine .bind (emitTerminator_declares hframes hb.known hb.term hids es₃).emits ?_
    rintro _ es₄ hgrows₄ ⟨⟨rfl, hsaves⟩, -⟩
    refine .pure ⟨⟨inner, rfl, fun below data st s hready hholds hfits hst => ?_⟩, fun x hx => ?_,
      hsaves⟩
    · exact hinner below data st s (hready.of_grows hgrows₄) hholds hfits hst
    · exact hgrows₄.names (hgrows₃.names (hnames x hx))
  obtain ⟨code, es, hrun, hgrows, -, hinner, hpopped, hsaves⟩ := hemits hlocals nofun
  obtain ⟨new, hnew, hwork⟩ := hgrows.declared
  refine ⟨code, es, ?_, hinner, hpopped, hsaves, ?_, fun v hv => ?_⟩
  · exact hrun
  · rw [hnew]
    exact List.mem_append_left _ (List.mem_singleton.mpr rfl)
  · rw [hnew] at hv
    rcases List.mem_append.mp hv with hv | hv
    · exact .inl (List.mem_singleton.mp hv)
    · exact .inr (hwork v hv)

/-! ## The state that a block starts in -/

section Start

variable {fn : Shader.Function} {code : List Shader.Stmt} {es : State} {s : Execution.State}

/-- A variable that the function of a block starts with is declared, and zero. -/
theorem of_lookup_blockStart (hfn : fn.params = []) {name : String} {d : Datum}
    (h : (Execution.Exec.frame fn []).lookup name = some d) :
    ∃ v ∈ fn.locals, v.name = name ∧ d = .zero v.type := by
  rcases Execution.of_lookup_frame h with ⟨i, hi, -⟩ | hlocal
  · rw [hfn] at hi
    cases hi
  · exact hlocal

theorem BlockParts.not_declared (hparts : BlockParts bc env oracle b code es)
    (hfn : fn.params = []) (hlocals : fn.locals = es.declared) {v : Shader.Variable}
    (hv : v ∈ privates) : (Execution.Exec.frame fn []).lookup v.name = none := by
  rw [← Option.not_isSome_iff_eq_none]
  intro hsome
  obtain ⟨d, hd⟩ := Option.isSome_iff_exists.mp hsome
  obtain ⟨u, hu, hname, -⟩ := of_lookup_blockStart hfn hd
  rcases hparts.declared u (hlocals ▸ hu) with rfl | hwork
  · exact (by decide : ∀ v ∈ privates, spVar ≠ v.name) v hv hname
  · exact not_isWork_of_mem_privates hv (hname ▸ hwork.isWork)

theorem BlockParts.lookup_sp (hparts : BlockParts bc env oracle b code es)
    (hfn : fn.params = []) (hlocals : fn.locals = es.declared) :
    (Execution.Exec.frame fn []).lookup spVar = some (.ofU32 0) := by
  have hmem : (⟨spVar, .u32⟩ : Shader.Variable) ∈ fn.locals := hlocals ▸ hparts.sp
  obtain ⟨d, hd⟩ := Option.isSome_iff_exists.mp (Execution.lookup_frame_local [] hmem)
  obtain ⟨u, hu, hname, rfl⟩ := of_lookup_blockStart hfn hd
  rcases hparts.declared u (hlocals ▸ hu) with rfl | hwork
  · exact hd
  · have hsp : IsWork spVar := by
      rw [← show u.name = spVar from hname]
      exact hwork.isWork
    exact absurd hsp not_isWork_spVar

theorem BlockParts.framed (hparts : BlockParts bc env oracle b code es) (hfn : fn.params = [])
    (hlocals : fn.locals = es.declared) (hs : Based s) :
    Framed { s with vars := Execution.Exec.frame fn [] } 0 :=
  ⟨⟨hs.header, hs.data, hs.io, hs.globals, hs.addressable⟩,
    fun _ hv => hparts.not_declared hfn hlocals hv, hparts.lookup_sp hfn hlocals⟩

theorem BlockParts.present (fn : Shader.Function) (hlocals : fn.locals = es.declared) {x : String}
    (hx : x ∈ es.names) : ((Execution.Exec.frame fn []).lookup x).isSome = true := by
  obtain ⟨v, hv, rfl⟩ := List.mem_map.mp hx
  exact Execution.lookup_frame_local [] (hlocals ▸ hv)

/-- A local that is not saved starts with zero. -/
theorem BlockParts.lookup_local (hparts : BlockParts bc env oracle b code es)
    (hfn : fn.params = []) (hlocals : fn.locals = es.declared) {i : Nat} {d : Datum}
    (h : (Execution.Exec.frame fn []).lookup (localName i) = some d) :
    ∃ t, bc.func.locals[i]? = some t ∧ d = .zero (Shader.Ty.carrier bc.layout t) := by
  obtain ⟨u, hu, hname, rfl⟩ := of_lookup_blockStart hfn h
  rcases hparts.declared u (hlocals ▸ hu) with rfl | hwork
  · have hsp : IsWork spVar := by
      rw [show spVar = localName i from hname]
      exact isWork_localName i
    exact absurd hsp not_isWork_spVar
  · cases hwork with
    | slot k t => exact absurd hname.symm (localName_ne_slotName i k t)
    | localVar ht =>
        obtain rfl := localName_inj hname
        exact ⟨_, ht, rfl⟩

end Start

/-! ## Popping a frame -/

theorem nodup_slotNames (start : Nat) (types : List ValueType) : (slotNames start types).Nodup := by
  induction types generalizing start with
  | nil => exact List.nodup_nil
  | cons t types ih =>
      refine List.nodup_cons.mpr ⟨fun hmem => ?_, ih (start + 1)⟩
      obtain ⟨k, u, hname, hle, -⟩ := mem_slotNames hmem
      have := place_eq_of_slotName hname
      omega

theorem nodup_popNames {pl : Payload} (h : pl.locals.Nodup) (operands : List ValueType) :
    (popNames pl operands).Nodup := by
  refine List.nodup_append.mpr ⟨?_, nodup_slotNames 0 operands, ?_⟩
  · exact List.Pairwise.map localName (fun _ _ hne heq => hne (localName_inj heq)) h
  · rintro x hx y hy rfl
    obtain ⟨i, -, rfl⟩ := List.mem_map.mp hx
    obtain ⟨k, t, hname, -⟩ := mem_slotNames hy
    exact localName_ne_slotName i k t hname

theorem isWork_popNames {pl : Payload} {operands : List ValueType} {x : String}
    (hx : x ∈ popNames pl operands) : IsWork x := by
  rcases List.mem_append.mp hx with hx | hx
  · obtain ⟨i, -, rfl⟩ := List.mem_map.mp hx
    exact isWork_localName i
  · obtain ⟨k, t, rfl, -⟩ := mem_slotNames hx
    exact isWork_slotName k t

section Pop

variable {fn : Shader.Function} {code : List Shader.Stmt} {es : State} {s : Execution.State}
  {pl : Payload} {saved operands : List Datum} {below back : List UInt32} {id : UInt32}

theorem popFrame_eq {l : Layout} (hpl : pl.Formed l bc.func b.entry) (names : List String) :
    popFrame l pl names = lowerSp pl.frameWords :: loadCode l 0 names pl.types := by
  rw [popFrame, hpl.offsets, loadCode]

/-- The frame below the stack pointer is popped into the variables of the block. -/
theorem meaning_popFrame (env : Env) (hpl : pl.Formed env.exe.layout bc.func b.entry) {n : Nat}
    (hs : Framed s (n + pl.frameWords))
    (hpresent : ∀ x ∈ popNames pl b.entry, (s.vars.lookup x).isSome = true) {front : List UInt32}
    {data : List Datum} (hwords : (s.lane.words .stack).toList
      = front ++ storedAll env.exe.layout pl.types data ++ back)
    (hfront : front.length = LaneStack.headerWords + n)
    (hfits : FitsAll env.exe.layout pl.types data) :
    ∃ vars, meaning env (popFrame env.exe.layout pl (popNames pl b.entry)) s
        = some (.ok .next, { s with vars })
      ∧ Framed { s with vars } n
      ∧ (∀ x, x ≠ spVar → x ∉ popNames pl b.entry → vars.lookup x = s.vars.lookup x)
      ∧ (∀ x, (s.vars.lookup x).isSome = true → (vars.lookup x).isSome = true)
      ∧ Stand { s with vars } (popNames pl b.entry) data := by
  obtain ⟨vars₁, hlower, hframed₁, hvars₁⟩ := meaning_lowerSp hs env
  have hkept : ∀ x, (s.vars.lookup x).isSome = true → (vars₁.lookup x).isSome = true := by
    intro x hx
    by_cases heq : x = spVar
    · rw [heq, hframed₁.sp]; rfl
    · rw [hvars₁ x heq]; exact hx
  have hnames : (popNames pl b.entry).length = pl.types.length := by
    obtain ⟨ts, hts, htypes⟩ := hpl.types
    rw [popNames, List.length_append, List.length_map, length_slotNames, htypes,
      List.length_append, hts.length_eq]
  obtain ⟨vars₂, hload, hbeside, hother, hstand⟩ := meaning_loadCode env hframed₁ hpl.known hfits
    hnames (nodup_popNames hpl.nodup _) (fun _ hx => isWork_popNames hx)
    (fun x hx => hkept x (hpresent x hx)) hwords
    (show _ = LaneStack.headerWords + n + 0 from hfront)
  refine ⟨vars₂, ?_, hframed₁.beside hbeside, fun x hsp hx => ?_, fun x hx => ?_, hstand⟩
  · rw [popFrame_eq hpl, ← List.singleton_append, Execution.meaning_append_next hlower]
    exact hload
  · rw [hother x hx, hvars₁ x hsp]
  · exact (hbeside.present x).trans (hkept x hx)

/-- The frame on top of the stack is popped into the variables of the block. -/
theorem meaning_pop (env : Env) (hpl : pl.Formed env.exe.layout bc.func b.entry)
    (hs : Framed s 0)
    (hpresent : ∀ x ∈ popNames pl b.entry, (s.vars.lookup x).isSome = true)
    (hwords : (s.lane.words .stack).toList
      = (below ++ storedAll env.exe.layout pl.types (saved ++ operands) ++ [id]).length.toUInt32
        :: 0 :: (below ++ storedAll env.exe.layout pl.types (saved ++ operands) ++ [id] ++ back))
    (hfits : FitsAll env.exe.layout pl.types (saved ++ operands)) :
    ∃ vars, meaning env (readSp :: popFrame env.exe.layout pl (popNames pl b.entry)) s
        = some (.ok .next, { s with vars })
      ∧ Framed { s with vars } below.length
      ∧ (∀ x, x ≠ spVar → x ∉ popNames pl b.entry → vars.lookup x = s.vars.lookup x)
      ∧ (∀ x, (s.vars.lookup x).isSome = true → (vars.lookup x).isSome = true)
      ∧ Stand { s with vars } (popNames pl b.entry) (saved ++ operands) := by
  have hlength : (below ++ storedAll env.exe.layout pl.types (saved ++ operands) ++ [id]).length
      = below.length + pl.frameWords := by
    rw [List.length_append, List.length_append, Execution.length_storedAll hfits.length_eq,
      List.length_singleton, Payload.frameWords, hpl.words, Nat.add_assoc]
  obtain ⟨vars₁, hread, hframed₁, hvars₁⟩ := meaning_readSp hs env hwords
  rw [hlength] at hframed₁
  have hkept : ∀ x, (s.vars.lookup x).isSome = true → (vars₁.lookup x).isSome = true := by
    intro x hx
    by_cases heq : x = spVar
    · rw [heq, hframed₁.sp]; rfl
    · rw [hvars₁ x heq]; exact hx
  have hparts : (s.lane.words .stack).toList
      = ((below.length + pl.frameWords).toUInt32 :: 0 :: below)
        ++ storedAll env.exe.layout pl.types (saved ++ operands) ++ (id :: back) := by
    rw [hwords, hlength]
    simp only [List.append_assoc, List.cons_append, List.nil_append]
  obtain ⟨vars₂, hpop, hframed₂, hother, hpresent₂, hstand⟩ := meaning_popFrame env hpl hframed₁
    (fun x hx => hkept x (hpresent x hx)) hparts
    (by rw [List.length_cons, List.length_cons, LaneStack.headerWords]; omega) hfits
  refine ⟨vars₂, ?_, hframed₂, fun x hsp hx => ?_, fun x hx => hpresent₂ x (hkept x hx), hstand⟩
  · rw [← List.singleton_append, Execution.meaning_append_next hread]
    exact hpop
  · rw [hother x hsp hx, hvars₁ x hsp]

end Pop

/-! ## The whole block -/

/-- The frame of a block, with what it saves, on top of the words in use below it. -/
structure FrameOnTop (bc : BlockContext) (l : Layout) (b : Block) (s : Execution.State)
    (below : List UInt32) (saved operands : List Datum) (shared : Shared σ) : Prop where
  based : Based s
  size : (s.lane.words .stack).size = LaneStack.headerWords + bc.stackWords.toNat
  frame : ∃ id, InUse (s.lane.words .stack)
    (below ++ storedAll l (bc.frames.payload b.index).types (saved ++ operands) ++ [id])
  fits : FitsAll l (bc.frames.payload b.index).types (saved ++ operands)
  operands : FitsAll l b.entry operands
  globalsFit : bc.program.GlobalsFit l shared.globals
  globals : s.lane.globals.toList = bc.program.globalWords l shared.globals
  room : ∃ low room id, below = low ++ room ++ [id]
    ∧ room.length = l.sizeOf bc.func.type.results

/-- The function of a block ends as the block does, or with a push that does not fit. -/
def BlockEnds (bc : BlockContext) (l : Layout) (below : List UInt32) (s : Execution.State) :
    Execution.Ending (List Datum) → Structured.Ending (Store σ) Exit → Prop
  | (.ok results, s'), (.ok exit, st) =>
    results = [] ∧ ∃ data gs ws, Leaves bc st.locals below exit data ∧ InUse ws data
      ∧ ws.size = (s.lane.words .stack).size ∧ gs.size = s.lane.globals.size
      ∧ gs.toList = bc.program.globalWords l st.shared.globals
      ∧ s' = (s.withWords .globals gs).withWords .stack ws
  | (.error (.trap c), s'), (.ok exit, st) =>
    (∃ ws, Pushes bc st.locals exit ws ∧ bc.stackWords.toNat < below.length + ws.length)
      ∧ c = .stackOverflow ∧ TrapsIn bc.program l s c st.shared s'
  | (.error (.trap c), s'), (.error (.trap c'), st) =>
    c = c' ∧ TrapsIn bc.program l s c st.shared s'
  | _, _ => False

section Whole

variable {fn : Shader.Function} {es : State} {s : Execution.State} {below : List UInt32}
  {saved operands : List Datum} {shared : Shared σ}

/-- The locals that a block starts with. -/
def BlockContext.startLocals (bc : BlockContext) (l : Layout) (index : Nat)
    (saved : List Datum) : List Datum :=
  spreadLocals l bc.func.locals (bc.frames.payload index).locals saved

theorem exit_ends {s' : Execution.State} {gs : Array UInt32} {st₀ : Store σ}
    (hgsize : gs.size = s.lane.globals.size) (hlane : s'.lane = s.lane.withWords .globals gs)
    (hprivates : s'.privates = s.privates)
    (hglobals : s'.lane.globals.toList = bc.program.globalWords env.exe.layout st₀.shared.globals)
    (hfn : fn.results = []) {a : Execution.Ending Execution.Flow}
    {e : Structured.Ending (Store σ) Exit} (h : ExitEnds bc below s' a e) (hst : e.2 = st₀) :
    Option.Rel (BlockEnds bc env.exe.layout below s)
      (Execution.andThen (fun flow s' =>
        Execution.Exec.outcome (Execution.Exec.resultsOf fn flow) { s' with vars := s.vars }) a)
      (some e) := by
  have hgs : gs.toList = bc.program.globalWords env.exe.layout st₀.shared.globals := by
    rw [← hglobals, hlane]
    rfl
  match a, e, h with
  | (.ok flow, s''), (.ok exit, st), ⟨hflow, data, ws, hleaves, huse, hwsize, hlane', hprivates'⟩ =>
      subst hflow
      cases hst
      have hresults : Execution.Exec.resultsOf fn .next = Pure.pure [] := by
        rw [Execution.Exec.resultsOf, hfn]
        rfl
      rw [Execution.andThen, hresults, Execution.Exec.outcome_pure]
      refine .some ⟨rfl, data, gs, ws, hleaves, huse, ?_, hgsize, hgs, ?_⟩
      · rw [hwsize, hlane, Execution.Lane.words_withWords_ne (by decide)]
      · rw [hlane', hlane, hprivates', hprivates]
        rfl
  | (.error (.trap c), s''), (.ok exit, st), ⟨hover, hc, hlane'⟩ =>
      cases hst
      refine .some ⟨hover, hc, gs, hgs, hlane'.trans ?_⟩
      change (Execution.State.trapped ⟨s'.lane, s.vars, s.privates⟩ c).lane = _
      rw [hlane]
      rfl
  | (.error (.trap c), s''), (.error (.trap c'), st), ⟨hc, hlane'⟩ =>
      cases hst
      refine .some ⟨hc, gs, hgs, hlane'.trans ?_⟩
      change (Execution.State.trapped ⟨s'.lane, s.vars, s.privates⟩ c).lane = _
      rw [hlane]
      rfl

/-- Behind the code of a block: its terminator. -/
theorem blockBody_rel (fn : Shader.Function) (hfit : Fitted bc env)
    (hb : b.Typed bc.program bc.analysis kept bc.frames.machine) (hpush : PushFits bc b.term)
    (hknown : AllKnown bc.func.type.results) {s₁ : Execution.State}
    (hs₁ : Framed s₁ below.length) (hlane : s₁.lane = s.lane) (hprivates : s₁.privates = s.privates)
    (hsize : (s.lane.words .stack).size = LaneStack.headerWords + bc.stackWords.toNat)
    (hwords : ∃ h₀ back, (s.lane.words .stack).toList = h₀ :: 0 :: (below ++ back))
    (hpresent : ∀ target ∈ b.term.successors, ∀ i ∈ (bc.frames.payload target).locals,
      (s₁.vars.lookup (localName i)).isSome = true)
    (hroom : ∃ low room id, below = low ++ room ++ [id]
      ∧ room.length = env.exe.layout.sizeOf bc.func.type.results)
    (hfn : fn.results = []) {a : Execution.Ending Execution.Flow}
    {e : Structured.Ending (Store σ) Structured.Flow}
    (h : Ends bc.program env.exe.layout bc.func [] [] [] (some b.stack) s₁ a e)
    (hfits : Structured.FlowFits bc.program env.exe.layout bc.func [] (some b.stack) e.1 e.2)
    (hret : ∀ stack, e.1 ≠ .ok (.ret stack)) :
    Option.Rel (BlockEnds bc env.exe.layout below s)
      (((Execution.andThen (Execution.onNext
          (meaning env (exitCode bc b.stack b.term ++ [writeSp]))) a)).bind
        (Execution.andThen fun flow s' =>
          Execution.Exec.outcome (Execution.Exec.resultsOf fn flow) { s' with vars := s.vars }))
      (Structured.atTerminator b.term e) := by
  match a, e, h with
  | (.ok flow, s'), (.ok (.next stack), st), ⟨hflow, hbeside, types, htypes, hholds⟩ =>
      cases htypes
      subst hflow
      obtain ⟨⟨types, htypes, hstack⟩, hst⟩ := hfits
      cases htypes
      obtain ⟨gs, hgsize, hgs⟩ := hbeside.lane
      obtain ⟨low, room, id, hbelow, hlen⟩ := hroom
      have hwords' : s'.lane.words .stack = s.lane.words .stack := by
        rw [hgs, Execution.Lane.words_withWords_ne (by decide), hlane]
      have hexit : AtExit bc env b.term b.stack stack st s' below :=
        ⟨hholds, hs₁.beside hbeside, by rw [hwords']; exact hsize, by rw [hwords']; exact hwords,
          fun target ht i hi => (hbeside.present _).trans (hpresent target ht i hi)⟩
      have hrel := exit_rel hfit hb.term hpush hexit hstack hknown hbelow hlen
      rw [Structured.atTerminator, ← Option.bind_fun_some (Structured.exitBy stack b.term st)]
      exact (hrel.and_right fun _ => Structured.exitBy_store).bind fun a e hends =>
        exit_ends (by rw [hgsize, hlane]) (by rw [hgs, hlane]) (hbeside.privates.trans hprivates)
          hholds.globals hfn hends.1 hends.2
  | (.ok flow, s'), (.ok (.branch depth stack), st), ⟨hb, lab, hlab, hreached⟩ => cases hlab
  | (.ok flow, s'), (.ok (.ret stack), st), _ => exact absurd rfl (hret stack)
  | (.error (.trap c), s'), (.error (.trap c'), st), ⟨hc, htraps⟩ =>
      obtain ⟨ws, hws, hlane'⟩ := htraps
      refine .some ⟨hc, ws, hws, hlane'.trans ?_⟩
      change _ = (Execution.State.trapped ⟨s.lane.withWords .globals ws, s.vars, s.privates⟩ c).lane
      rw [← hlane]
      rfl

/-- What a frame saves, in the variables that it is popped into. -/
theorem holds_popped {code : List Shader.Stmt} (hset : Setting bc.toContext kept bc.func env oracle)
    (hparts : BlockParts bc env oracle b code es)
    (hfn : fn.params = []) (hlocals : fn.locals = es.declared)
    (hpl : (bc.frames.payload b.index).Formed env.exe.layout bc.func b.entry)
    (hs : FrameOnTop bc env.exe.layout b s below saved operands shared) {vars : Execution.Vars}
    (hother : ∀ x, x ≠ spVar → x ∉ popNames (bc.frames.payload b.index) b.entry →
      vars.lookup x = (Execution.Exec.frame fn []).lookup x)
    (hstand : Stand { s with vars } (popNames (bc.frames.payload b.index) b.entry)
      (saved ++ operands)) :
    Holds bc.program env.exe.layout b.entry operands
      ⟨bc.startLocals env.exe.layout b.index saved, shared⟩ { s with vars } := by
  obtain ⟨ts, hts, htypes⟩ := hpl.types
  have hlen : (bc.frames.payload b.index).locals.length = saved.length := by
    have htotal := hs.fits.length_eq
    rw [htypes, List.length_append, List.length_append, hs.operands.length_eq] at htotal
    rw [hts.length_eq]
    omega
  obtain ⟨hsaved, hslots⟩ := hstand.of_append (by rw [List.length_map, hlen])
  refine ⟨hslots, fun i d hd => ?_, hs.globals⟩
  by_cases hmem : i ∈ (bc.frames.payload b.index).locals
  · obtain ⟨k, hk⟩ := List.mem_iff_getElem?.mp hmem
    have hlt := (List.getElem?_eq_some_iff.mp hk).1
    have hi : i < bc.func.locals.length := by
      have htype := (List.forall₂_iff_get.mp hts).2 k hlt (by rw [← hts.length_eq]; exact hlt)
      rw [List.get_eq_getElem, (List.getElem?_eq_some_iff.mp hk).2] at htype
      exact (List.getElem?_eq_some_iff.mp htype).1
    have hlt' : k < saved.length := by rw [← hlen]; exact hlt
    have hvalue := (List.forall₂_iff_get.mp hsaved).2 k (by rw [List.length_map]; exact hlt) hlt'
    rw [List.get_eq_getElem, List.getElem_map, (List.getElem?_eq_some_iff.mp hk).2, hd,
      Option.some.injEq] at hvalue
    refine spreadLocals_saved hpl.nodup hk ?_ hi
    rw [hvalue, List.get_eq_getElem]
    exact List.getElem?_eq_getElem hlt'
  · have hnot : localName i ∉ popNames (bc.frames.payload b.index) b.entry := by
      intro hpop
      rcases List.mem_append.mp hpop with hpop | hpop
      · obtain ⟨j, hj, hname⟩ := List.mem_map.mp hpop
        exact hmem (localName_inj hname ▸ hj)
      · obtain ⟨k, t, hname, -⟩ := mem_slotNames hpop
        exact localName_ne_slotName i k t hname
    have hne : localName i ≠ spVar := fun h => not_isWork_spVar (h ▸ isWork_localName i)
    change vars.lookup (localName i) = some d at hd
    rw [hother _ hne hnot] at hd
    obtain ⟨t, ht, rfl⟩ := hparts.lookup_local hfn hlocals hd
    rw [hset.layout]
    exact spreadLocals_zero hmem ht saved

/-- The locals that a block starts with fit the function. -/
theorem startLocals_fits (hpl : (bc.frames.payload b.index).Formed env.exe.layout bc.func b.entry)
    (hs : FrameOnTop bc env.exe.layout b s below saved operands shared) :
    Store.Fits bc.program env.exe.layout bc.func
      ⟨bc.startLocals env.exe.layout b.index saved, shared⟩ := by
  obtain ⟨ts, hts, htypes⟩ := hpl.types
  have hfits := hs.fits
  rw [htypes] at hfits
  have hlen : ts.length = saved.length := by
    have htotal := hfits.length_eq
    rw [List.length_append, List.length_append, hs.operands.length_eq] at htotal
    omega
  refine ⟨spreadLocals_fits hpl.nodup hts ?_, hs.globalsFit⟩
  obtain ⟨as, bs, heq, has, -⟩ := hfits.of_append
  obtain ⟨rfl, -⟩ := List.append_inj heq (by rw [← has.length_eq, hlen])
  exact has

/-- The function of a block does what the block does. -/
theorem blockFunction_spec (hset : Setting bc.toContext kept bc.func env oracle)
    (hfit : Fitted bc env) {i : Nat} (hi : bc.frames.machine.blocks[i]? = some b)
    (hb : b.Typed bc.program bc.analysis kept bc.frames.machine) (hids : Numbered bc b.term)
    (hpush : PushFits bc b.term) (hknown : AllKnown bc.func.type.results) :
    ∃ fn, bc.blockFunction b = .ok fn ∧ fn.name = blockName (bc.numberOf i) ∧ fn.params = []
      ∧ ∀ (s : Execution.State) below saved operands (shared : Shared σ),
        FrameOnTop bc env.exe.layout b s below saved operands shared →
        Option.Rel (BlockEnds bc env.exe.layout below s) (callMeaning env fn [] s)
          (Structured.evalBlock bc.program env.exe.layout oracle b operands
            ⟨bc.startLocals env.exe.layout i saved, shared⟩) := by
  have hindex := hfit.frames.index i b hi
  obtain ⟨code, es, hemit, hparts⟩ := emitBlockBody_spec hset hfit.frames hi hb hids
    hfit.locals
  have hentry : bc.frames.machine.entryTypes? i = some b.entry := by rw [Machine.entryTypes?, hi]; rfl
  let fn : Shader.Function :=
    { name := blockName (bc.numberOf i), locals := es.declared, body := code }
  refine ⟨fn, ?_, rfl, rfl, fun s below saved operands shared hs => ?_⟩
  · rw [BlockContext.blockFunction]
    change (bc.emitBlockBody b {} >>= fun r => _) = _
    rw [hemit, hindex, eq_ok_of_isOk (hids.blocks i _ hentry)]
    rfl
  · have hpl : (bc.frames.payload b.index).Formed env.exe.layout bc.func b.entry := by
      have h := hfit.frames.payload_of_entry hentry
      rw [hfit.framesLayout] at h
      rw [hindex]
      exact h
    obtain ⟨id, back, hwords⟩ := hs.frame
    obtain ⟨inner, hcode, hsim⟩ := hparts.inner
    let s₀ : Execution.State := { s with vars := Execution.Exec.frame fn [] }
    have hframed₀ : Framed s₀ 0 := hparts.framed rfl rfl hs.based
    obtain ⟨vars, hpop, hframed, hother, hpresent, hstand⟩ := meaning_pop env hpl hframed₀
      (fun x hx => BlockParts.present fn rfl (hparts.popped x hx)) hwords hs.fits
    have hholds := holds_popped hset hparts rfl rfl hpl hs hother hstand
    have hnames : ∀ x ∈ es.names, (vars.lookup x).isSome = true := fun x hx =>
      hpresent x (BlockParts.present fn rfl hx)
    have hready : Ready es { s with vars } :=
      ⟨hframed.toBased.addressed, hnames, hframed.hidden ⟨globalBase, .u32⟩ (by decide)⟩
    have hst := startLocals_fits hpl hs
    have hrel := hsim [] operands _ { s with vars } hready hholds hs.operands hst
    rw [hindex] at hrel hst
    have hflow := hrel.and_right fun r hr => And.intro
      (Structured.evalSeq_fits hset.formed hset.sound b.body hb.body hs.operands hst r.1 r.2 hr)
      (Structured.evalSeq_stays b.body hb.stays operands _ r.1 r.2 hr)
    have hmeaning : meaning env fn.body s₀ = (meaning env inner { s with vars }).bind
        (Execution.andThen (Execution.onNext
          (meaning env (exitCode bc b.stack b.term ++ [writeSp])))) := by
      change meaning env code s₀ = _
      rw [hcode, List.append_assoc, List.append_assoc, hset.layout,
        Execution.meaning_append_next hpop, Execution.meaning_append]
    rw [Execution.callMeaning_eq rfl, Structured.evalBlock_eq]
    change Option.Rel _ ((meaning env fn.body s₀).bind _) _
    rw [hmeaning, Option.bind_assoc]
    refine hflow.bind fun a e hae => ?_
    exact blockBody_rel (s := s) fn hfit hb hpush hknown hframed rfl rfl hs.size
      ⟨_, _, by rw [hwords, List.append_assoc, List.append_assoc]⟩
      (fun target ht j hj => hnames _ (hparts.saves target ht j hj)) hs.room rfl hae.1 hae.2.1
      hae.2.2

end Whole

end Emit

end WasmShader
