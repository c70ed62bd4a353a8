import WasmShader.Proofs.FramePassing
import WasmShader.Proofs.FrameWords
import WasmShader.Proofs.Returnless

/-!
# What a block makes of the stacks

The function of a block pops its frame, which lanes abreast share, and does what its terminator says.
What is pushed is the same on both stacks, but for room that is left for results: there each keeps the
words that it had. Results that are returned are the same on both. So it is told where the two stacks
have the same words behind a block from where they had them in front of it (`block_leads`).

That a push fits is checked by the code, in words of 32 bits, and that no push alone is larger than the
stack was checked when the frames were laid out. Results are written wherever the room for them should
be, and if this is not in the region of the lane, the store stops both runs.
-/

namespace WasmShader.Execution

open Shader (Expr Stmt StmtsApart)
open Emit (BlockContext Agreeing stackBuffer spVar headerBase)

/-! ## Places in a region -/

/-- A push that passes the check of the code fits the region. -/
theorem fits_of_check {H n : Nat} {limit : UInt32} (hH : H ≤ limit.toNat + 2)
    (hsmall : n ≤ limit.toNat) (hlimit : limit.toNat < 2 ^ 31)
    (h : ¬limit < H.toUInt32 - 2 + n.toUInt32) : H + n ≤ limit.toNat + 2 := by
  rw [UInt32.lt_iff_toNat_lt, UInt32.toNat_add, UInt32.toNat_sub, toNat_toUInt32 (by omega),
    toNat_toUInt32 (by omega)] at h
  have h2 : (2 : UInt32).toNat = 2 := rfl
  omega

/-- Places one after the other that all are in a region do not go beyond its end. -/
theorem within_of_all {x : UInt32} {n size : Nat} (hsize : size < 2 ^ 32) (hn : 0 < n)
    (h : ∀ k < n, (x + k.toUInt32).toNat < size) : x.toNat + n ≤ size := by
  induction n with
  | zero => cases hn
  | succ n ih =>
      have hlast := h n (Nat.lt_succ_self n)
      rcases Nat.eq_zero_or_pos n with rfl | hpos
      · rw [show (0 : Nat).toUInt32 = 0 from rfl, UInt32.add_zero] at hlast
        omega
      · have hfirst := ih hpos fun k hk => h k (Nat.lt_succ_of_lt hk)
        rw [UInt32.toNat_add, toNat_toUInt32 (by omega)] at hlast
        omega

/-- The stacks have the same words from one place up to another. -/
def Share (a b : Array UInt32) (lo hi : Nat) : Prop := ∀ i, lo ≤ i → i < hi → b[i]? = a[i]?

/-- The words below a height are as they were, on both stacks. -/
def Below (H : Nat) (a b a' b' : Array UInt32) : Prop := ∀ i < H, a'[i]? = a[i]? ∧ b'[i]? = b[i]?

section Cells

variable {d : Pair} {H : Nat} {x : UInt32} {cs ds : List (Nat × Expr)} {cells : List (Nat × UInt32)}
  {a b : Array UInt32}

theorem places_of_cells (h : List.Forall₂ (Cell d x) cs cells) :
    cells.map (·.1) = cs.map fun c => (x + c.1.toUInt32).toNat := by
  induction h with
  | nil => rfl
  | cons hc _ ih => rw [List.map_cons, List.map_cons, ih, hc.place]

/-- Whatever has been written is in the region. -/
theorem within_of_cells (h : List.Forall₂ (Cell d x) cs cells) :
    ∀ c ∈ cs, (x + c.1.toUInt32).toNat < d.size .stack := by
  induction h with
  | nil => exact List.forall_mem_nil _
  | cons hc _ ih => exact List.forall_mem_cons.mpr ⟨hc.place ▸ hc.within, ih⟩

/-- Above a height that the region has, words are where their places are counted from it. -/
theorem places_above (h : List.Forall₂ (Cell d H.toUInt32) cs cells)
    (hcs : ∀ c ∈ cs, H + c.1 < 2 ^ 32) : cells.map (·.1) = cs.map fun c => H + c.1 := by
  rw [places_of_cells h]
  exact List.map_congr_left fun c hc => by
    rw [← Emit.toUInt32_add, toNat_toUInt32 (hcs c hc)]

/-- A word that is given is there, if none is written over it. -/
theorem getElem?_of_cells {k : Nat} {w : UInt32}
    (h : List.Forall₂ (Cell d x) (cs ++ (k, .u32 w) :: ds) cells) (ha : a.size = d.size .stack)
    (hds : ∀ c ∈ ds, (x + c.1.toUInt32).toNat ≠ (x + k.toUInt32).toNat) :
    (written a cells)[(x + k.toUInt32).toNat]? = some w := by
  induction cs generalizing a cells with
  | nil =>
      cases h with
      | @cons _ cell _ cells hcell hcells =>
          have hnot : cell.1 ∉ cells.map (·.1) := by
            rw [places_of_cells hcells, hcell.place]
            intro hmem
            obtain ⟨c, hc, heq⟩ := List.mem_map.mp hmem
            exact hds c hc heq
          rw [written_cons, ← hcell.place, getElem?_written_of_not_mem hnot,
            Array.getElem?_setIfInBounds_self_of_lt (ha ▸ hcell.within), hcell.word w rfl]
  | cons c cs ih =>
      cases h with
      | cons hcell hcells =>
          rw [written_cons]
          exact ih hcells ((Array.size_setIfInBounds ..).trans ha)

end Cells

/-! ## Pushes -/

section Pushes

variable {env : Env} {bc : BlockContext} {d : Pair} {H : Nat} {a b : Array UInt32}

/-- The region of the lane is that of the stack that the code is made for. -/
structure Suits (bc : BlockContext) (d : Pair) : Prop where
  size : d.size .stack = bc.stackWords.toNat + 2
  limit : bc.stackWords.toNat < 2 ^ 31

theorem Suits.small (h : Suits bc d) : d.size .stack < 2 ^ 32 := by
  have hsize := h.size
  have hlimit := h.limit
  omega

/-- Behind a push the words up to `V` are shared, but for those of a room. The numbers are there that
are listed with their places. -/
structure Pushed (H V : Nat) (room : Nat → Prop) (numbers : List (Nat × BlockId))
    (a b a' b' : Array UInt32) : Prop where
  below : Below H a b a' b'
  shared : ∀ i, H ≤ i → i < V → ¬room i → b'[i]? = a'[i]?
  numbers : ∀ n ∈ numbers, a'[n.1]? = some n.2.val

/-- A push writes its words above a height, wherever it has any. -/
theorem finish_pushes (hd : Suits bc d) (hH : H ≤ d.size .stack) {p : Emit.Push}
    {cs : List (Nat × Expr)} (hp : Lays above p.stmts cs) (hsmall : p.size ≤ bc.stackWords.toNat)
    (hwithin : ∀ c ∈ cs, c.1 < p.size) (hnodup : (cs.map (·.1)).Nodup)
    (numbers : List (Nat × BlockId))
    (hnumbers : ∀ n ∈ numbers, ∃ k, n.1 = H + k ∧ (k, Expr.u32 n.2.val) ∈ cs) :
    Leads env (p.finish bc.stackWords) (Level d H a b) (Onto fun s t => ∃ a' b',
      Pushed H (H + p.size) (fun i => i - H ∉ cs.map (·.1)) numbers a b a' b'
        ∧ H + p.size ≤ d.size .stack ∧ Level d (H + p.size) a' b' s t) := by
  intro n s t h
  have hsizes : b.size = a.size := by rw [h.size_own, h.size_other]
  have ha := h.size_own
  refine (finish_leads hd.small hp bc.stackWords n s t h).mono ?_
  rintro flow s' t' ⟨rfl, hcheck, cells, hcells, h'⟩
  have hfits := fits_of_check (by rw [← hd.size]; exact hH) hsmall hd.limit hcheck
  rw [← hd.size] at hfits
  have hsize := hd.small
  have hplaces := places_above hcells fun c hc => by
    have := hwithin c hc
    omega
  refine ⟨rfl, _, _, ⟨fun i hi => ?_, fun i hi hi' hroom => ?_, fun n hn => ?_⟩, hfits, h'⟩
  · have hnot : i ∉ cells.map (·.1) := by
      rw [hplaces]
      intro hmem
      obtain ⟨c, -, rfl⟩ := List.mem_map.mp hmem
      omega
    exact ⟨getElem?_written_of_not_mem hnot, getElem?_written_of_not_mem hnot⟩
  · refine getElem?_written hsizes (.inl ?_)
    obtain ⟨c, hc, heq⟩ := List.mem_map.mp (not_not.mp hroom)
    rw [hplaces]
    exact List.mem_map.mpr ⟨c, hc, by omega⟩
  · obtain ⟨k, hk, hmem⟩ := hnumbers n hn
    obtain ⟨front, back, rfl⟩ := List.mem_iff_append.mp hmem
    have hkth : (H.toUInt32 + k.toUInt32).toNat = H + k := by
      have := hwithin _ hmem
      rw [← Emit.toUInt32_add, toNat_toUInt32 (by omega)]
    rw [hk, ← hkth]
    refine getElem?_of_cells hcells ha fun c hc => ?_
    have hcth : (H.toUInt32 + c.1.toUInt32).toNat = H + c.1 := by
      have := hwithin c (List.mem_append_right _ (List.mem_cons_of_mem _ hc))
      rw [← Emit.toUInt32_add, toNat_toUInt32 (by omega)]
    rw [hkth, hcth]
    intro heq
    rw [List.map_append, List.map_cons] at hnodup
    have hback := (List.nodup_cons.mp (List.nodup_append.mp hnodup).2.1).1
    exact hback (List.mem_map.mpr ⟨c, hc, by omega⟩)

/-- How the stacks look behind a terminator in front of which the stack pointer was at a height. -/
inductive Exits (bc : BlockContext) (H : Nat) (a b : Array UInt32) (t : Terminator) :
    Nat → Array UInt32 → Array UInt32 → Prop
  | edge {e : Edge} {types : List ValueType} {a' b' : Array UInt32} : e ∈ t.edges →
      bc.frames.machine.entryTypes? e.target = some types → Below H a b a' b' →
      Share a' b' H (H + (bc.frames.payload e.target).frameWords) →
      a'[H + (bc.frames.payload e.target).words]? = some (bc.numberOf e.target).val →
      Exits bc H a b t (H + (bc.frames.payload e.target).frameWords) a' b'
  | transfer {callee : Callee} {sig : Signature} {next m : Nat} {rest : List ValueType}
      {a' b' : Array UInt32} : t.transfer? = some (callee, sig, next) →
      bc.frames.machine.entryTypes? next = some (rest ++ sig.results) →
      m + bc.layout.sizeOf sig.results = (bc.frames.payload next).words → Below H a b a' b' →
      Share a' b' H (H + m) →
      Share a' b' (H + (bc.frames.payload next).words)
        (H + (bc.frames.payload next).frameWords + bc.layout.sizeOf sig.params + 1) →
      a'[H + (bc.frames.payload next).words]? = some (bc.numberOf next).val →
      a'[H + (bc.frames.payload next).frameWords + bc.layout.sizeOf sig.params]?
        = some (bc.calleeNumber callee).val →
      Exits bc H a b t
        (H + (bc.frames.payload next).frameWords + bc.layout.sizeOf sig.params + 1) a' b'
  | ret {results : List ValueType} {room : Nat} {a' b' : Array UInt32} : t = .ret results →
      room + bc.layout.sizeOf results + 1 = H →
      (∀ i, i < room ∨ room + bc.layout.sizeOf results ≤ i →
        a'[i]? = a[i]? ∧ b'[i]? = b[i]?) →
      Share a' b' room (room + bc.layout.sizeOf results) → Exits bc H a b t H a' b'

theorem edge_exits (hagree : Agreeing bc env) (hd : Suits bc d) (hH : H ≤ d.size .stack)
    {t : Terminator} {e : Edge} (hmem : e ∈ t.edges) {types : TypeStack}
    (he : e.Typed bc.frames.machine types)
    (hsmall : (bc.frames.payload e.target).frameWords ≤ bc.stackWords.toNat) :
    Leads env (Emit.edgeCode bc e types) (Level d H a b) (Onto fun s t' => ∃ V a' b',
      Exits bc H a b t V a' b' ∧ V ≤ d.size .stack ∧ Level d V a' b' s t') := by
  have hpl := hagree.frames.payload_of_entry he.target
  rw [hagree.framesLayout, ← hagree.layout] at hpl
  obtain ⟨saved, hsaved, htypes⟩ := hpl.types
  have hvars : (Emit.edgeVars bc e types).map (·.2) = (bc.frames.payload e.target).types := by
    rw [Emit.edgeVars, List.map_append, List.map_append, Emit.types_slotVars, Emit.types_slotVars,
      Emit.types_savedVars hsaved htypes, htypes]
    rfl
  obtain ⟨cs, hcs, hplaces⟩ := (Lays.nil above).variables (p := {})
    (Emit.known_of_types hpl.known hvars)
  have hsize := Emit.Push.size_values bc.layout {} (Emit.edgeVars bc e types)
  rw [hvars, ← hpl.words, Nat.zero_add] at hsize
  have hpush := hcs.blockId (bc.numberOf e.target)
  rw [hsize, List.nil_append] at hpush
  have hall : (cs ++ [((bc.frames.payload e.target).words,
      Expr.u32 (bc.numberOf e.target).val)]).map (·.1)
        = List.range' 0 (bc.frames.payload e.target).frameWords := by
    rw [List.map_append, hplaces, hvars, ← hpl.words, Payload.frameWords, List.range'_1_concat,
      Nat.zero_add]
    rfl
  have htotal : (((Emit.Push.values bc.layout {} (Emit.edgeVars bc e types)).blockId
      (bc.numberOf e.target)).size) = (bc.frames.payload e.target).frameWords :=
    congrArg (· + 1) hsize
  have hrun : Leads env _ (Level d H a b) _ := finish_pushes hd hH hpush (by rw [htotal]; exact hsmall)
    (fun c hc => by
      have hplace := List.mem_map_of_mem (f := (·.1)) hc
      rw [hall, List.mem_range'_1] at hplace
      rw [htotal]
      omega)
    (by rw [hall]; exact List.nodup_range')
    [(H + (bc.frames.payload e.target).words, bc.numberOf e.target)]
    (List.forall_mem_singleton.mpr ⟨_, rfl, List.mem_append_right _ List.mem_cons_self⟩)
  rw [htotal, hall] at hrun
  refine hrun.mono (fun _ _ => id) ?_
  rintro flow s t' ⟨rfl, a', b', hpushed, hfits, h⟩
  refine ⟨rfl, _, a', b', .edge hmem he.target hpushed.below (fun i hi hi' => ?_) ?_, hfits, h⟩
  · refine hpushed.shared i hi hi' (not_not.mpr ?_)
    rw [List.mem_range'_1]
    omega
  · exact hpushed.numbers _ List.mem_cons_self

theorem transfer_exits (hagree : Agreeing bc env) (hd : Suits bc d) (hH : H ≤ d.size .stack)
    {t : Terminator} {callee : Callee} {sig : Signature} {next : Nat} {rest : TypeStack}
    (ht : t.transfer? = some (callee, sig, next)) (hknown : AllKnown sig.params)
    (hnext : bc.frames.machine.entryTypes? next = some (rest ++ sig.results))
    (hsmall : (bc.frames.payload next).frameWords + bc.layout.sizeOf sig.params + 1
      ≤ bc.stackWords.toNat) :
    Leads env (Emit.transferCode bc (rest ++ sig.params) sig.params.length sig.results next
        (bc.calleeNumber callee)) (Level d H a b)
      (Onto fun s t' => ∃ V a' b',
        Exits bc H a b t V a' b' ∧ V ≤ d.size .stack ∧ Level d V a' b' s t') := by
  have hpl := hagree.frames.payload_of_entry hnext
  rw [hagree.framesLayout, ← hagree.layout] at hpl
  obtain ⟨saved, hsaved, htypes⟩ := hpl.types
  rw [Payload.frameWords] at hsmall
  generalize hw : (bc.frames.payload next).words = w at hsmall
  let xs := Emit.savedVars (bc.frames.payload next) ++ Emit.slotVars 0 rest
  have hxs : xs.map (·.2) = saved ++ rest := by
    rw [List.map_append, Emit.types_slotVars, Emit.types_savedVars hsaved htypes]
  have htypes' : (bc.frames.payload next).types = (saved ++ rest) ++ sig.results := by
    rw [htypes, List.append_assoc]
  generalize hm : bc.layout.sizeOf (saved ++ rest) = m
  have hwords : m + bc.layout.sizeOf sig.results = w := by
    rw [← hw, hpl.words, htypes', Layout.sizeOf_append, hm]
  -- the frame to come back to, with room for the results
  obtain ⟨cs, hcs, hplaces⟩ := (Lays.nil above).variables (l := bc.layout) (p := {})
    (Emit.known_of_types (fun u hu => hpl.known u (by
      rw [htypes']; exact List.mem_append_left _ hu)) hxs)
  have hsize := Emit.Push.size_values bc.layout {} xs
  rw [hxs, hm, Nat.zero_add] at hsize
  rw [hxs, hm] at hplaces
  let frame := ((Emit.Push.values bc.layout {} xs).reserve (bc.layout.sizeOf sig.results)).blockId
    (bc.numberOf next)
  have hroom : ((Emit.Push.values bc.layout {} xs).reserve (bc.layout.sizeOf sig.results)).size
      = w := by
    rw [← hwords, ← hsize]
    rfl
  have hframe := Lays.blockId (p := (Emit.Push.values bc.layout {} xs).reserve
    (bc.layout.sizeOf sig.results)) hcs (bc.numberOf next)
  rw [hroom, List.nil_append] at hframe
  have hframeSize : frame.size = w + 1 := congrArg (· + 1) hroom
  -- the arguments on top of it, and the number of what is called
  obtain ⟨ds, hds, hplaces'⟩ := hframe.variables (l := bc.layout)
    (Emit.known_of_types hknown (Emit.types_slotVars rest.length _))
  have hargs := Emit.Push.size_values bc.layout frame (Emit.slotVars rest.length sig.params)
  rw [Emit.types_slotVars, hframeSize] at hargs
  rw [Emit.types_slotVars, hframeSize] at hplaces'
  have hpush := hds.blockId (bc.calleeNumber callee)
  rw [hargs] at hpush
  generalize hA : bc.layout.sizeOf sig.params = A at hsmall hargs hplaces' hpush
  generalize hcode : (frame.values bc.layout (Emit.slotVars rest.length sig.params)).blockId
    (bc.calleeNumber callee) = push at hpush
  have htotal : push.size = w + 1 + A + 1 := by
    rw [← hcode]
    exact congrArg (· + 1) hargs
  generalize hlaid : cs ++ [(w, Expr.u32 (bc.numberOf next).val)] ++ ds
    ++ [(w + 1 + A, Expr.u32 (bc.calleeNumber callee).val)] = laid at hpush
  have hall : laid.map (·.1) = List.range' 0 m ++ List.range' w (A + 2) := by
    rw [← hlaid, List.map_append, List.map_append, List.map_append, hplaces, hplaces',
      List.append_assoc, List.append_assoc, List.range'_succ, List.range'_1_concat]
    rfl
  have hmem (i : Nat) : i ∈ laid.map (·.1) ↔ i < m ∨ w ≤ i ∧ i < w + 1 + A + 1 := by
    rw [hall, List.mem_append, List.mem_range'_1, List.mem_range'_1]
    omega
  have hrun : Leads env _ (Level d H a b) _ := finish_pushes hd hH hpush (by omega)
    (fun c hc => by
      have hplace := (hmem c.1).mp (List.mem_map_of_mem (f := (·.1)) hc)
      omega)
    (by
      rw [hall, List.nodup_append]
      refine ⟨List.nodup_range', List.nodup_range', fun i hi j hj heq => ?_⟩
      rw [List.mem_range'_1] at hi hj
      omega)
    [(H + w, bc.numberOf next), (H + (w + 1 + A), bc.calleeNumber callee)]
    (by
      rw [← hlaid]
      simp)
  rw [htotal] at hrun
  have hcode' : Emit.transferCode bc (rest ++ sig.params) sig.params.length sig.results next
      (bc.calleeNumber callee) = push.finish bc.stackWords := by
    rw [Emit.transferCode, Emit.stack_below_append rest rfl, Emit.stack_top_append rest rfl,
      List.length_append, Nat.add_sub_cancel, ← hcode]
  rw [hcode']
  refine hrun.mono (fun _ _ => id) ?_
  rintro flow s t' ⟨rfl, a', b', hpushed, hfits, h⟩
  have hexits := Exits.transfer ht hnext (hwords.trans hw.symm) hpushed.below
  rw [hw, Payload.frameWords, hw, hA, ← Nat.add_assoc] at hexits
  refine ⟨rfl, _, a', b', hexits (fun i hi hi' => ?_) (fun i hi hi' => ?_) ?_ ?_, by omega, ?_⟩
  · refine hpushed.shared i hi (by omega) (not_not.mpr ((hmem _).mpr ?_))
    omega
  · refine hpushed.shared i (by omega) (by omega) (not_not.mpr ((hmem _).mpr ?_))
    omega
  · exact hpushed.numbers _ List.mem_cons_self
  · have := hpushed.numbers _ (List.mem_cons_of_mem _ List.mem_cons_self)
    simpa only [← Nat.add_assoc] using this
  · simpa only [← Nat.add_assoc] using h

/-- Results are written where the room for them should be. If that is not in the region, both runs
stop. -/
theorem ret_exits (hd : Suits bc d) (hH : 0 < H)
    (hbound : H ≤ d.size .stack) {results : List ValueType} (hknown : AllKnown results) (start : Nat) :
    Leads env (Emit.resultCode bc.layout (bc.layout.sizeOf results) start 0 results) (Level d H a b)
      (Onto fun s t' => ∃ V a' b',
        Exits bc H a b (.ret results) V a' b' ∧ V ≤ d.size .stack ∧ Level d V a' b' s t') := by
  intro n s t h
  have hsizes : b.size = a.size := by rw [h.size_own, h.size_other]
  generalize hR : bc.layout.sizeOf results = R
  obtain ⟨cs, hcs, hplaces⟩ := resultCode_lays bc.layout R start 0 hknown
  rw [hR] at hplaces
  have hrun : Leads env _ (Level d H a b) _ := storesAt_leads hd.small
    (behind_resultWord env.exe.layout d H R) hcs.apart
  rw [← hcs.code] at hrun
  refine (hrun n s t h).mono ?_
  rintro flow s' t' ⟨rfl, cells, hcells, h'⟩
  have hall := places_of_cells hcells
  have hin := within_of_cells hcells
  have hmem (k : Nat) (hk : k < R) : ∃ c ∈ cs, c.1 = k := by
    have hk' : k ∈ cs.map (·.1) := by
      rw [hplaces, List.mem_range'_1]
      omega
    exact List.mem_map.mp hk'
  have hlt (c : Nat × Expr) (hc : c ∈ cs) : c.1 < R := by
    have hplace := List.mem_map_of_mem (f := (·.1)) hc
    rw [hplaces, List.mem_range'_1] at hplace
    omega
  -- the room is below the number on top, as all of it is in the region
  obtain ⟨hroom, hstart⟩ : R + 1 ≤ H ∧ (0 < R → (H.toUInt32 - (1 + R).toUInt32).toNat = H - 1 - R) := by
    rcases Nat.eq_zero_or_pos R with rfl | hpos
    · exact ⟨hH, fun h => absurd h (Nat.lt_irrefl 0)⟩
    · have hwithin := within_of_all (x := H.toUInt32 - (1 + R).toUInt32) hd.small hpos fun k hk => by
        obtain ⟨c, hc, rfl⟩ := hmem k hk
        exact hin c hc
      have hsize := hd.size
      have hlimit := hd.limit
      have hR : (1 + R).toUInt32.toNat = 1 + R := toNat_toUInt32 (by omega)
      have hheight : H.toUInt32.toNat = H := toNat_toUInt32 (by omega)
      rw [UInt32.toNat_sub, hR, hheight] at hwithin ⊢
      omega
  have hplace (c : Nat × Expr) (hc : c ∈ cs) :
      (H.toUInt32 - (1 + R).toUInt32 + c.1.toUInt32).toNat = H - 1 - R + c.1 := by
    have hck := hlt c hc
    have hsize := hd.small
    rw [UInt32.toNat_add, hstart (by omega), toNat_toUInt32 (by omega)]
    omega
  have hend : H - 1 - R + bc.layout.sizeOf results + 1 = H := by omega
  refine ⟨rfl, H, _, _, .ret rfl hend (fun i hi => ?_) (fun i hi hi' => ?_), hbound, h'⟩
  · have hnot : i ∉ cells.map (·.1) := by
      rw [hall]
      intro hmem
      obtain ⟨c, hc, heq⟩ := List.mem_map.mp hmem
      have hck := hlt c hc
      rw [hplace c hc] at heq
      omega
    exact ⟨getElem?_written_of_not_mem hnot, getElem?_written_of_not_mem hnot⟩
  · obtain ⟨c, hc, hck⟩ := hmem (i - (H - 1 - R)) (by omega)
    refine getElem?_written hsizes (.inl ?_)
    rw [hall]
    refine List.mem_map.mpr ⟨c, hc, ?_⟩
    rw [hplace c hc]
    omega

theorem body_mem_of_numberedCases {bodies : List (List Stmt)} {i : Nat} {c : Shader.Case}
    (h : c ∈ Emit.numberedCases i bodies) : c.body ∈ bodies := by
  induction bodies generalizing i with
  | nil => cases h
  | cons body bodies ih =>
      rcases List.mem_cons.mp h with rfl | h
      · exact List.mem_cons_self
      · exact List.mem_cons_of_mem _ (ih h)

/-- The code of a terminator, behind that of its block. -/
theorem exitCode_leads (hfit : bc.frames.Fit bc.frames.machine bc.layout bc.stackWords.toNat)
    (henv : env.exe.layout = bc.layout) (hd : Suits bc d) (hH : 0 < H) (hbound : H ≤ d.size .stack)
    (hlocals : AllKnown bc.func.locals) {b : Block} (hb : b ∈ bc.frames.machine.blocks)
    {p : Program} (hterm : b.term.Typed p bc.frames.machine b.stack)
    (hresults : AllKnown bc.frames.machine.func.type.results) {x y : Array UInt32} :
    Leads env (Emit.exitCode bc b.stack b.term) (Level d H x y) (Onto fun s t => ∃ V x' y',
      Exits bc H x y b.term V x' y' ∧ V ≤ d.size .stack ∧ Level d V x' y' s t) := by
  have hagree := Emit.agreeing_of_fit hfit hlocals henv
  have hpushes := hfit.pushes b hb
  have hedge {e : Edge} (he : e ∈ b.term.edges) {types : TypeStack}
      (hty : e.Typed bc.frames.machine types) : Leads env _ (Level d H x y) _ :=
    edge_exits hagree hd hbound he hty
      (Nat.le_trans (Frames.frameWords_le he) hpushes)
  have htransfer {callee : Callee} {sig : Signature} {next : Nat}
      (ht : b.term.transfer? = some (callee, sig, next)) :
      Leads env (Emit.exitCode bc b.stack b.term) (Level d H x y) (Onto fun s t => ∃ V x' y',
        Exits bc H x y b.term V x' y' ∧ V ≤ d.size .stack ∧ Level d V x' y' s t) := by
    obtain ⟨rest, hstack, htakes, hnext⟩ := hterm.of_transfer ht
    obtain ⟨hwords, -⟩ := Frames.pushWords_transfer bc.frames ht
    rw [hfit.layout] at hwords
    rw [(Emit.exitCode_transfer bc ht b.stack).1, hstack]
    exact transfer_exits hagree hd hbound ht htakes.known.params hnext (hwords ▸ hpushes)
  generalize b.stack = stack at hterm htransfer ⊢
  generalize b.term = term at hterm hedge htransfer ⊢
  cases hterm with
  | goto he => exact hedge List.mem_cons_self he
  | @branch rest taken notTaken ht hf =>
      rw [Emit.exitCode, Emit.below_one]
      refine .singleton (.ifElse (fun s t h => ⟨h.toAbreast, h.offStack.eval _ _
        (Emit.apart_isNonzero (Emit.apart_var _))⟩) ?_ ?_)
      · exact (hedge List.mem_cons_self ht).mono (fun _ _ h => h.1) fun _ _ _ => id
      · exact (hedge (List.mem_cons_of_mem _ List.mem_cons_self) hf).mono (fun _ _ h => h.1)
          fun _ _ _ => id
  | @switch rest cases fallback hcases hfallback =>
      rw [Emit.exitCode, Emit.below_one]
      refine .singleton (.switch (fun s t h => ⟨h.toAbreast, h.offStack.eval _ _
        (Emit.apart_var _)⟩) (fun c hc => ?_) ?_)
      · obtain ⟨e, he, hbody⟩ := List.mem_map.mp (body_mem_of_numberedCases hc)
        rw [← hbody]
        exact (hedge (List.mem_append_left _ he) (hcases e he)).mono (fun _ _ h => h.1)
          fun _ _ _ => id
      · exact hedge (List.mem_append_right _ List.mem_cons_self) hfallback
  | call => exact htransfer rfl
  | host => exact htransfer rfl
  | ret => exact ret_exits hd hH hbound hresults _
  | trap => exact .singleton (.trap fun s t h => h.toAbreast)

end Pushes

/-! ## Blocks -/

theorem Returns.of_declares {α : Type} {ctx : Emit.Context} {f : WasmShader.Function}
    {x : Emit.Emitter α} {Q : α → Emit.State → Prop} (hlocals : AllKnown f.locals)
    (h : ∀ es, Emit.Declares ctx f x es Q) : Emit.Returns x fun a => ∃ es, Q a es := by
  intro es a es' hx
  obtain ⟨a', es'', hx', -, -, hQ⟩ := h es hlocals
  rw [hx] at hx'
  cases hx'
  exact ⟨es', hQ⟩

theorem Returns.and {α : Type} {x : Emit.Emitter α} {Q R : α → Prop} (hQ : Emit.Returns x Q)
    (hR : Emit.Returns x R) : Emit.Returns x fun a => Q a ∧ R a :=
  fun es a es' hx => ⟨hQ es a es' hx, hR es a es' hx⟩

/-- What is known of the run on the first lane alone. -/
theorem Together.own {α : Type} {Q : α → State → State → Prop} {R : α → State → Prop}
    {x y : Option (Ending α)} (h : Together Q x y) (hR : ∀ a s, x = some (.ok a, s) → R a s) :
    Together (fun a s t => R a s ∧ Q a s t) x y := by
  cases h with
  | none => exact .none
  | some hmeets =>
      cases hmeets with
      | value hQ => exact .some (.value ⟨hR _ _ rfl, hQ⟩)
      | stop hlanes => exact .some (.stop hlanes)

section Blocks

variable {env : Env} {bc : BlockContext} {d : Pair} {b : Block} {p : Program} {i H : Nat}
  {x y : Array UInt32}

/-- The function of a block pops its frame, runs code that leaves the stack alone and does not return,
and does what its terminator says. -/
theorem blockFunction_body (hframes : bc.frames.Formed) (hlocals : AllKnown bc.func.locals)
    (hi : bc.frames.machine.blocks[i]? = some b) (hstack : AllKnown b.stack)
    (hterm : b.term.Typed p bc.frames.machine b.stack)
    (hstays : ∀ i ∈ Body.instrs b.body, i.operation ≠ .ret) (hids : Emit.Numbered bc b.term)
    {sf : Shader.Function} (h : bc.blockFunction b = .ok sf) :
    ∃ inner, StmtsApart inner ∧ Shader.Returnless inner ∧ sf.body = Emit.readSp
      :: Emit.popFrame bc.layout (bc.frames.payload i) (Emit.popNames (bc.frames.payload i) b.entry)
      ++ inner ++ Emit.exitCode bc b.stack b.term ++ [Emit.writeSp] := by
  have hpl := hframes.payload i b hi
  obtain ⟨⟨code, es⟩, hrun, h⟩ := Program.bind_eq_ok h
  obtain ⟨id, -, h⟩ := Program.bind_eq_ok h
  cases h
  have hreturns : Emit.Returns (bc.emitBlockBody b) fun code => ∃ inner, StmtsApart inner
      ∧ Shader.Returnless inner ∧ code = Emit.readSp
        :: Emit.popFrame bc.layout (bc.frames.payload i) (Emit.popNames (bc.frames.payload i) b.entry)
        ++ inner ++ Emit.exitCode bc b.stack b.term ++ [Emit.writeSp] := by
    have hentry : bc.frames.machine.entryTypes? b.index = some b.entry := by
      rw [hframes.index i b hi, Machine.entryTypes?, hi]
      rfl
    refine .skip fun _ => ?_
    refine .bind (Returns.of_declares hlocals fun es =>
      (Emit.payload_declares hframes hentry es).mono fun _ _ _ h => h.1) fun payload hpayload => ?_
    obtain ⟨-, rfl⟩ := hpayload
    refine .bind (Returns.of_declares hlocals fun es =>
      Emit.frameVars_declares (b := b) (hframes.index i b hi ▸ hpl) es) fun vars hvars => ?_
    obtain ⟨-, hvars, -⟩ := hvars
    refine .skip fun _ => ?_
    refine .bind (Returns.and (Emit.emitSeq_returns b.body)
      (Emit.emitSeq_returnless b.body (List.forall_mem_nil _) hstays)) fun inner hinner => ?_
    refine .bind (Returns.of_declares hlocals fun es =>
      Emit.emitTerminator_declares hframes hstack hterm hids es) fun last hlast => .pure ?_
    obtain ⟨-, hlast, -⟩ := hlast
    exact ⟨inner, hinner.1, hinner.2, by rw [hlast, hvars, hframes.index i b hi]⟩
  exact hreturns _ _ _ hrun

/-- A block whose frame the stacks share. Where it is left in front of its terminator, nothing has been
written, and the flow is no return. -/
theorem block_leads (hfit : bc.frames.Fit bc.frames.machine bc.layout bc.stackWords.toNat)
    (henv : env.exe.layout = bc.layout) (hd : Suits bc d)
    (hlocals : AllKnown bc.func.locals) (hi : bc.frames.machine.blocks[i]? = some b)
    (hstack : AllKnown b.stack) (hterm : b.term.Typed p bc.frames.machine b.stack)
    (hstays : ∀ i ∈ Body.instrs b.body, i.operation ≠ .ret) (hids : Emit.Numbered bc b.term)
    (hresults : AllKnown bc.frames.machine.func.type.results) {sf : Shader.Function}
    (hsf : bc.blockFunction b = .ok sf) {P : Shader.CallSite → Prop} {W : String → Prop}
    (hcode : Shader.StmtsLawful P W sf.body) (hlawful : Lawful env.exe.module P W)
    (hcalls : Steady.Calls env.exe.module P) (hH : 0 < H)
    (hbound : H + (bc.frames.payload i).frameWords ≤ d.size .stack)
    (hheader : x[0]? = some ((H + (bc.frames.payload i).frameWords).toUInt32 - 2))
    (hshared : Share x y H (H + (bc.frames.payload i).words)) :
    Leads env sf.body (Found d x y) fun flow s t => (flow ≠ .next ∧ flow.Stays ∧ Found d x y s t)
      ∨ flow = .next ∧ ∃ V x' y', Exits bc H x y b.term V x' y' ∧ V ≤ d.size .stack
        ∧ Found d (written x' [(0, V.toUInt32 - 2)]) (written y' [(0, V.toUInt32 - 2)]) s t := by
  obtain ⟨inner, hinner, hreturnless, hbody⟩ :=
    blockFunction_body hfit.formed hlocals hi hstack hterm hstays hids hsf
  have hpl := hfit.formed.payload i b hi
  rw [hfit.layout, ← henv] at hpl
  rw [hbody] at hcode ⊢
  rw [Shader.stmtsLawful_append, Shader.stmtsLawful_append, Shader.stmtsLawful_append] at hcode
  have hmem : b ∈ bc.frames.machine.blocks := List.mem_of_getElem? hi
  rw [Payload.frameWords] at hbound
  have hpop : Leads env (Emit.popFrame env.exe.layout (bc.frames.payload i)
      (Emit.popNames (bc.frames.payload i) b.entry)) (Level d _ x y) _ :=
    popFrame_leads hd.small hpl (fun _ => Emit.isWork_popNames)
    (by omega) hshared
  rw [henv] at hpop
  have hleave : Leads env _ (Level d H x y) _ :=
    exitCode_leads hfit henv hd hH (by omega) hlocals hmem hterm hresults
  have hwrite : Leads env [Emit.writeSp]
      (fun s t => ∃ V x' y', Exits bc H x y b.term V x' y' ∧ V ≤ d.size .stack ∧ Level d V x' y' s t)
      fun flow s t => (flow ≠ .next ∧ flow.Stays ∧ Found d x y s t)
        ∨ flow = .next ∧ ∃ V x' y', Exits bc H x y b.term V x' y' ∧ V ≤ d.size .stack
          ∧ Found d (written x' [(0, V.toUInt32 - 2)]) (written y' [(0, V.toUInt32 - 2)]) s t :=
    .of_exists fun V => .of_exists fun x' => .of_exists fun y' => .of_and fun hexits =>
      .of_and fun hV => (Leads.singleton (writeSp_leads hd.small)).mono (fun _ _ => id)
        fun _ _ _ h => .inr ⟨h.1, V, x', y', hexits, hV, h.2.toFound⟩
  have hinnerLeads : Leads env inner (Level d H x y) fun flow s t => flow.Stays ∧ Level d H x y s t :=
    fun n s t h => (h.steady (Steady.run hlawful hcalls hcode.1.1.2 hinner n)).own
      fun flow s' hown => remains_stmts env n hreturnless s flow s' hown
  rw [List.append_assoc, List.append_assoc]
  refine (Leads.cons_next (readSp_leads hheader hd.small) hpop).append_next ?_
  exact hinnerLeads.append ((hleave.append_next hwrite).mono (fun _ _ h => h.2) fun _ _ _ => id)
    fun _ _ _ hne h => .inl ⟨hne, h.1, h.2.toFound⟩

end Blocks

end WasmShader.Execution
