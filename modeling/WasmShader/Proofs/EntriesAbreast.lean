import WasmShader.Proofs.DispatchAbreast

/-!
# Entry points on lanes abreast

An entry point starts on lanes that may differ in any word of their stacks, those of the header
included. It clears the header. What a direct form does then reads no word of the stack. Otherwise the
first frame is written, which the stacks share from then on, but for the room for the results, and the
dispatcher takes over (`entry_together`).

Places are counted in words of 32 bits. Where the results take so many words that the first frame
comes around the end of the address space, the room below it is not what its number awaits; but then no
result is ever written (`Awaited.void`).
-/

namespace WasmShader.Execution

open Compile Emit
open Shader (Stmt Expr StmtsApart AllApart)

/-! ## The header -/

/-- Shaders on lanes that have all in common but the words of their stacks, with the regions found. -/
structure Opened (d : Pair) (s t : State) : Prop extends EqOffStack s t, Anchored d s

/-- The first words of the stacks have been cleared. -/
structure Cleared (d : Pair) (k : Nat) (s t : State) : Prop extends Opened d s t where
  own : ∀ p < k, s.lane.stack.words[p]? = some 0
  other : ∀ p < k, t.lane.stack.words[p]? = some 0

section Header

variable {env : Env} {d : Pair} {s t : State} {a b : Array UInt32} {rest : List Stmt}
  {Q : Flow → State → State → Prop}

theorem clear_next {ws : Array UInt32} {k : Nat} (hk : k < ws.size) (h : ∀ p < k, ws[p]? = some 0) :
    ∀ p < k + 1, (ws.setIfInBounds k 0)[p]? = some 0 := by
  intro p hp
  by_cases heq : k = p
  · rw [← heq, Array.getElem?_setIfInBounds_self_of_lt hk]
  · rw [Array.getElem?_setIfInBounds_ne heq, h p (by omega)]

/-- The next word is cleared on both stacks. -/
theorem clearWord_leads (hsize : d.size .stack < 2 ^ 32) {place : Expr} {o : UInt32}
    (hapart : place.Apart) (hplace : ∀ s, Anchored d s →
      Execution.eval env.exe.layout s place = .ok (.ofU32 (d.base d.index .stack + o))) :
    StmtLeads env (.store stackBuffer place (.u32 0)) (Cleared d o.toNat)
      (Onto (Cleared d (o.toNat + 1))) := by
  refine .of_succ fun n s t h => ?_
  rw [Exec.stmt]
  refine (h.toEqOffStack.value env (h.toEqOffStack.eval _ place hapart)).bind ?_
  rintro i s t ⟨hi, rfl, rfl⟩
  rw [hplace s h.toAnchored] at hi
  cases hi
  refine (h.toEqOffStack.value env (h.toEqOffStack.eval _ _ (apart_u32 0))).bind ?_
  rintro v s t ⟨hv, rfl, rfl⟩
  rw [Expr.u32, Execution.eval] at hv
  cases hv
  refine (h.toEqOffStack.store stackBuffer _ 0).bind ?_
  rintro _ _ _ ⟨r, i, hlocate, rfl, rfl⟩
  obtain ⟨rfl, rfl, hlt⟩ := h.toAnchored.of_locate hsize hlocate
  have hown : o.toNat < s.lane.stack.words.size := h.size ▸ hlt
  exact .some (.value ⟨rfl,
    { lanes := h.lanes.setWord .stack _ 0
      vars := h.vars
      privates := h.privates
      index := h.index
      size := (Array.size_setIfInBounds ..).trans h.size
      bases := h.bases
      clear := h.clear
      own := clear_next hown h.own
      other := clear_next (h.lanes.size ▸ hown) h.other }⟩)

theorem Cleared.found (h : Cleared d 2 s t) :
    Found d s.lane.stack.words t.lane.stack.words s t where
  lanes := { h.lanes with header := fun p hp => by rw [h.own p hp, h.other p hp] }
  vars := h.vars
  privates := h.privates
  index := h.index
  size := h.size
  bases := h.bases
  clear := h.clear
  own := rfl
  other := rfl

/-- Behind the start of an entry point the lanes are abreast. -/
theorem clearHeader_leads (hsize : d.size .stack < 2 ^ 32)
    (hrest : ∀ a b, a[0]? = some 0 → Leads env rest (Found d a b) Q) :
    Leads env (.store stackBuffer (.var headerBase) (.u32 0)
      :: .store stackBuffer trapPlace (.u32 0) :: rest) (Opened d) Q := by
  have hlast : Leads env rest (Cleared d 2) Q :=
    (Leads.of_exists fun a => .of_exists fun b => .of_and (hrest a b)).mono
      (fun s t h => ⟨_, _, h.own 0 (by decide), h.found⟩) fun _ _ _ => id
  have hfirst : StmtLeads env _ (Cleared d _) _ :=
    clearWord_leads (o := 0) hsize (apart_var headerBase) fun s hs => hs.eval_header
  have hsecond : StmtLeads env (.store stackBuffer trapPlace _) (Cleared d _) _ :=
    clearWord_leads (o := 1) hsize (apart_offset (apart_var headerBase) _) fun s hs => by
      have hbase := hs.eval_header (l := env.exe.layout)
      rw [UInt32.add_zero] at hbase
      exact eval_offset hbase _
  exact Leads.mono (.cons_next hfirst (.cons_next hsecond hlast))
    (fun s t h => ⟨h, fun p hp => absurd hp (Nat.not_lt_zero p),
      fun p hp => absurd hp (Nat.not_lt_zero p)⟩) fun _ _ _ => id

end Header

/-! ## The first frame -/

section FirstFrame

variable {env : Env} {out : Compiled} {d : Pair} {a b : Array UInt32}

theorem types_ioArgs (l : Layout) (params : List ValueType) :
    (ioArgs l params).map (·.1) = params := by
  rw [ioArgs, List.map_map]
  exact List.map_fst_zip (Nat.le_of_eq (length_offsetsFrom ..).symm)

theorem apart_ioArgs (l : Layout) (params : List ValueType) : ∀ x ∈ ioArgs l params, x.2.Apart := by
  intro x hx
  obtain ⟨⟨t, off⟩, -, rfl⟩ := List.mem_map.mp hx
  exact apart_loadValue l (by decide) (fun k => apart_baseWord ioBase off k) t

/-- What a machine entry pushes: the number of the exit block above the room for the results, and the
arguments with the number of the first block. -/
def firstPush (l : Layout) (sig : Signature) (first exit : BlockId) : Push :=
  ((ioArgs l sig.params).foldl (fun p (t, x) => p.value l x t)
    ((Push.reserve {} (l.sizeOf sig.results)).blockId exit)).blockId first

/-- Words are written to consecutive places behind the room for the results. -/
theorem firstPush_lays (l : Layout) (sig : Signature) (hknown : AllKnown sig.params)
    (first exit : BlockId) :
    ∃ args, Lays above (firstPush l sig first exit).stmts
        ((l.sizeOf sig.results, .u32 exit.val) :: args
          ++ [(l.sizeOf sig.results + 1 + l.sizeOf sig.params, .u32 first.val)])
      ∧ args.map (·.1) = List.range' (l.sizeOf sig.results + 1) (l.sizeOf sig.params)
      ∧ (firstPush l sig first exit).size
        = l.sizeOf sig.results + 1 + l.sizeOf sig.params + 1 := by
  have hreserve : (Push.reserve {} (l.sizeOf sig.results)).size = l.sizeOf sig.results :=
    Nat.zero_add _
  have hexit := Lays.blockId (p := Push.reserve {} (l.sizeOf sig.results)) (Lays.nil above) exit
  rw [hreserve, List.nil_append] at hexit
  obtain ⟨args, hargs, hplaces, hsize⟩ := hexit.values (l := l) (ioArgs l sig.params) fun x hx =>
    ⟨hknown _ (by rw [← types_ioArgs l sig.params]; exact List.mem_map_of_mem hx),
      apart_ioArgs l sig.params x hx⟩
  have hbelow : ((Push.reserve {} (l.sizeOf sig.results)).blockId exit).size
      = l.sizeOf sig.results + 1 := congrArg (· + 1) hreserve
  rw [types_ioArgs, hbelow] at hplaces hsize
  have hfirst := hargs.blockId first
  rw [hsize] at hfirst
  exact ⟨args, hfirst, hplaces, congrArg (· + 1) hsize⟩

/-- The first frame is on both stacks, above the number of the exit block at the height `x`: results
take `R` words, and arguments `A`. -/
structure Begun (R A : Nat) (first exit : BlockId) (x : Nat) (a b : Array UInt32) : Prop where
  room : 2 + R < 2 ^ 32 → x = 2 + R
  shared : Share a b x (x + (A + 2))
  exit : a[x]? = some exit.val
  first : a[x + (A + 1)]? = some first.val

theorem Level.of_eq {H H' : Nat} {s t : State} (h : Level d H a b s t)
    (heq : H.toUInt32 = H'.toUInt32) : Level d H' a b s t := ⟨h.toFound, heq ▸ h.sp⟩

/-- Words for consecutive places, with a number first and a number last, are where they should be if
all places are in the region. -/
theorem begun_of_cells (hsize : d.size .stack < 2 ^ 32) (ha : a.size = d.size .stack)
    (hb : b.size = a.size) {R A : Nat} {first exit : BlockId} {args : List (Nat × Expr)}
    (hargs : args.map (·.1) = List.range' (R + 1) A) {cells : List (Nat × UInt32)}
    (hcells : List.Forall₂ (Cell d (2 : Nat).toUInt32)
      ((R, .u32 exit.val) :: args ++ [(R + 1 + A, .u32 first.val)]) cells) :
    Begun R A first exit (2 + R).toUInt32.toNat (written a cells) (written b cells)
      ∧ (2 + R).toUInt32.toNat + (A + 2) ≤ d.size .stack := by
  have hplaces : ((R, Expr.u32 exit.val) :: args ++ [(R + 1 + A, Expr.u32 first.val)]).map (·.1)
      = List.range' R (A + 2) := by
    rw [List.map_append, List.map_cons, hargs, List.range'_succ, List.range'_1_concat]
    rfl
  have hat (k : Nat) : (2 : Nat).toUInt32 + (R + k).toUInt32 = (2 + R).toUInt32 + k.toUInt32 := by
    rw [← Emit.toUInt32_add, ← Emit.toUInt32_add, Nat.add_assoc]
  have hmem (k : Nat) (hk : k < A + 2) : ∃ c ∈ (R, Expr.u32 exit.val) :: args
      ++ [(R + 1 + A, Expr.u32 first.val)], c.1 = R + k := by
    refine List.mem_map.mp ?_
    rw [hplaces, List.mem_range'_1]
    omega
  have hwithin : (2 + R).toUInt32.toNat + (A + 2) ≤ d.size .stack :=
    within_of_all hsize (by omega) fun k hk => by
      obtain ⟨c, hc, hck⟩ := hmem k hk
      have hin := within_of_cells hcells c hc
      rwa [hck, hat] at hin
  have hkth (k : Nat) (hk : k < A + 2) :
      ((2 : Nat).toUInt32 + (R + k).toUInt32).toNat = (2 + R).toUInt32.toNat + k := by
    rw [hat, UInt32.toNat_add, toNat_toUInt32 (n := k) (by omega)]
    exact Nat.mod_eq_of_lt (by omega)
  have hzero : ((2 : Nat).toUInt32 + R.toUInt32).toNat = (2 + R).toUInt32.toNat :=
    hkth 0 (by omega)
  have hother (c : Nat × Expr) (hc : c ∈ args ++ [(R + 1 + A, Expr.u32 first.val)]) :
      ((2 : Nat).toUInt32 + c.1.toUInt32).toNat ≠ ((2 : Nat).toUInt32 + R.toUInt32).toNat := by
    have hplace : c.1 ∈ (args ++ [(R + 1 + A, Expr.u32 first.val)]).map (·.1) :=
      List.mem_map_of_mem hc
    rw [List.map_append, hargs, List.mem_append, List.mem_range'_1, List.map_singleton,
      List.mem_singleton] at hplace
    obtain ⟨k, hk⟩ := Nat.exists_eq_add_of_le (show R ≤ c.1 by omega)
    rw [hk, hkth k (by omega), hzero]
    omega
  refine ⟨⟨fun hR => toNat_toUInt32 hR, fun i hi hi' => ?_, ?_, ?_⟩, hwithin⟩
  · refine getElem?_written hb (.inl ?_)
    obtain ⟨k, rfl⟩ := Nat.exists_eq_add_of_le hi
    obtain ⟨c, hc, hck⟩ := hmem k (by omega)
    rw [places_of_cells hcells]
    exact List.mem_map.mpr ⟨c, hc, by rw [hck, hkth k (by omega)]⟩
  · rw [List.cons_append] at hcells
    rw [← List.nil_append ((R, Expr.u32 exit.val) :: _)] at hcells
    have hword := getElem?_of_cells hcells ha hother
    rwa [hzero] at hword
  · have hword := getElem?_of_cells hcells ha (List.forall_mem_nil _)
    rwa [show R + 1 + A = R + (A + 1) by omega, hkth (A + 1) (by omega)] at hword

/-- The first frame is written, wherever the room below it ends. -/
theorem firstPush_leads (hsize : d.size .stack < 2 ^ 32) {sig : Signature}
    (hknown : AllKnown sig.params) (first exit : BlockId) (limit : UInt32) :
    Leads env ((firstPush env.exe.layout sig first exit).finish limit) (Level d 2 a b)
      (Onto fun s t => ∃ x a' b', Begun (env.exe.layout.sizeOf sig.results)
          (env.exe.layout.sizeOf sig.params) first exit x a' b'
        ∧ x + (env.exe.layout.sizeOf sig.params + 2) ≤ d.size .stack
        ∧ Level d (x + (env.exe.layout.sizeOf sig.params + 2)) a' b' s t) := by
  intro n s t h
  have hsizes : b.size = a.size := by rw [h.size_own, h.size_other]
  obtain ⟨args, hlays, hargs, htotal⟩ := firstPush_lays env.exe.layout sig hknown first exit
  refine (finish_leads hsize hlays limit n s t h).mono ?_
  rintro flow s' t' ⟨rfl, -, cells, hcells, h'⟩
  obtain ⟨hbegun, hwithin⟩ := begun_of_cells hsize h.size_own hsizes hargs hcells
  refine ⟨rfl, _, _, _, hbegun, hwithin, h'.of_eq ?_⟩
  rw [htotal, Emit.toUInt32_add (2 + env.exe.layout.sizeOf sig.results).toUInt32.toNat,
    show (2 + env.exe.layout.sizeOf sig.results).toUInt32.toNat.toUInt32
      = (2 + env.exe.layout.sizeOf sig.results).toUInt32 from UInt32.ofNat_toNat,
    ← Emit.toUInt32_add]
  congr 1
  omega

end FirstFrame

/-! ## Entry points -/

section Entries

open Exec

variable {env : Env} {p : Program} {frames : List Frames} {out : Compiled} {d : Pair} {s t : State}
  {a b : Array UInt32} {f : Shader.Function} {rest : List Stmt} {P : State → State → Prop}

/-- Stacks that have been left empty. -/
theorem shaped_empty (htwo : 2 ≤ a.size) (hheader : a[0]? = some 0) : Shaped frames out a b :=
  ⟨2, .empty, htwo, hheader⟩

/-- On the number of the first block the dispatcher takes over with stacks that are described. -/
theorem Begun.shaped (hlinked : Linked p frames out) {fr : Frames} (hfr : fr ∈ frames)
    {exit : BlockId} (hexit : IsExit out exit fr.machine.func.type.results) {x : Nat}
    (h : Begun (out.layout.sizeOf fr.machine.func.type.results)
      (out.layout.sizeOf fr.machine.func.type.params) ((out.blockContext fr).numberOf 0) exit x a b) :
    OnTop frames out a b (x + (out.layout.sizeOf fr.machine.func.type.params + 2)) := by
  obtain ⟨hblock, hwords⟩ := (hlinked.machined fr hfr).first
  have hframe : (fr.payload 0).frameWords = out.layout.sizeOf fr.machine.func.type.params + 1 :=
    congrArg (· + 1) hwords
  have hawaited : Awaited frames out a b (out.layout.sizeOf fr.machine.func.type.results) (x + 1) := by
    by_cases hroom : 2 + out.layout.sizeOf fr.machine.func.type.results < 2 ^ 32
    · obtain rfl := h.room hroom
      exact .exit hexit (by omega) h.exit (h.shared.mono (Nat.le_refl _) (by omega))
    · exact .void (by omega) (Nat.succ_pos x)
  have htop := OnTop.block hfr hblock hawaited
    (h.shared.mono (by omega) (by rw [hframe]; omega))
    (by rw [hwords, Nat.add_assoc, Nat.add_comm 1]; exact h.first)
  rw [hframe] at htop
  rwa [show x + (out.layout.sizeOf fr.machine.func.type.params + 2)
    = x + 1 + (out.layout.sizeOf fr.machine.func.type.params + 1) by omega]

/-- What a machine entry does behind its start and in front of the dispatcher: it clears the header and
writes the first frame. -/
def beginning (out : Compiled) (sig : Signature) (first exit : BlockId) : List Stmt :=
  .store stackBuffer (.var headerBase) (.u32 0) :: .store stackBuffer trapPlace (.u32 0)
    :: .assign spVar (.u32 0)
    :: ((firstPush out.layout sig first exit).finish out.stackWords ++ [writeSp])

theorem body_machineEntry (out : Compiled) (name : String) (sig : Signature) (first exit : BlockId) :
    (machineEntry out.layout name sig first exit out.stackWords).body
      = callOnly setupName :: (beginning out sig first exit ++ [callOnly dispatcherName]) := by
  simp only [machineEntry, entryStart, beginning, firstPush, List.cons_append, List.nil_append,
    List.append_assoc]

/-- The first frame is on both stacks, and their headers count it. -/
theorem beginning_leads (hplaced : Placed out d env) {sig : Signature} (hknown : AllKnown sig.params)
    (first exit : BlockId) :
    Leads env (beginning out sig first exit) (Opened d) (Onto fun s t => ∃ x a b,
      Begun (out.layout.sizeOf sig.results) (out.layout.sizeOf sig.params) first exit x a b
        ∧ x + (out.layout.sizeOf sig.params + 2) ≤ d.size .stack
        ∧ Found d (written a [(0, (x + (out.layout.sizeOf sig.params + 2)).toUInt32 - 2)])
          (written b [(0, (x + (out.layout.sizeOf sig.params + 2)).toUInt32 - 2)]) s t) := by
  obtain ⟨-, hsmall⟩ := hplaced.bounds
  have hsize : d.size .stack < 2 ^ 32 := by omega
  have hlayout : env.exe.layout = out.layout := by rw [hplaced.exe]
  refine clearHeader_leads hsize fun a b _ => .cons_next (R := Level d 2 a b) ?_ ?_
  · exact .assign_sp fun s t h => ⟨h, fun v hv => by cases hv; rfl, h.offStack.eval _ _ (apart_u32 0)⟩
  · rw [← hlayout]
    exact .append_next (firstPush_leads hsize hknown first exit _)
      (.of_exists fun x => .of_exists fun a' => .of_exists fun b' => .of_and fun hbegun =>
        .of_and fun hwithin => (Leads.singleton (writeSp_leads hsize)).mono (fun _ _ => id)
          fun _ _ _ h => ⟨h.1, x, a', b', hbegun, hwithin, h.2.toFound⟩)

/-- A machine entry hands stacks that are described to the dispatcher. -/
theorem machineEntry_leads (hlinked : Linked p frames out) (hplaced : Placed out d env) {fr : Frames}
    (hfr : fr ∈ frames) {exit : BlockId} (hexit : IsExit out exit fr.machine.func.type.results) :
    Leads env (beginning out fr.machine.func.type ((out.blockContext fr).numberOf 0) exit
        ++ [callOnly dispatcherName]) (Opened d) fun _ => InShape frames out d := by
  have hlast : Leads env [callOnly dispatcherName] (InShape frames out d)
      fun _ => InShape frames out d :=
    (Leads.singleton (dispatcher_leads hlinked hplaced)).mono (fun _ _ => id) fun _ _ _ h => h.2
  refine (beginning_leads hplaced (hlinked.machined fr hfr).takes _ exit).append_next
    (hlast.mono ?_ fun _ _ _ => id)
  rintro s t ⟨x, a, b, hbegun, hwithin, h⟩
  have hown := h.size_own
  rw [size_written] at hown
  exact ⟨_, _, (hbegun.shaped hlinked hfr hexit).header (by omega) (by omega), h⟩

theorem resultName_ne_spVar (i : Nat) : resultName i ≠ spVar := by
  intro heq
  have hhead : spVar.toList.head? ≠ some 'r' := by decide
  rw [← heq] at hhead
  exact hhead (by simp [resultName, String.toList_append])

/-- What the entry point of a direct form does behind its start leaves the stack alone. -/
theorem directEntry_apart (l : Layout) (name callee : String) (sig : Signature)
    (h : (directEntry l name callee sig).body = entryStart ++ rest) : StmtsApart rest := by
  rw [directEntry, List.append_assoc] at h
  obtain rfl := List.append_cancel_left h
  refine Shader.stmtsApart_append.mpr ⟨Shader.stmtsApart_singleton.mpr ?_, ?_⟩
  · rw [Stmt.Apart]
    refine ⟨Shader.allApart_iff.mpr fun e he => ?_, fun r hr => ?_⟩
    · obtain ⟨x, hx, rfl⟩ := List.mem_map.mp he
      exact apart_ioArgs l sig.params x hx
    · obtain ⟨i, hi, rfl⟩ := List.mem_mapIdx.mp hr
      exact resultName_ne_spVar i
  · refine Shader.stmtsApart_iff.mpr fun st hst => ?_
    obtain ⟨stores, hstores, hst⟩ := List.mem_flatten.mp hst
    obtain ⟨i, hi, rfl⟩ := List.mem_mapIdx.mp hstores
    exact Shader.stmtsApart_iff.mp (apart_storeValue l (by decide)
      (fun k => apart_baseWord ioBase _ k) (apart_var _) _) st hst

/-- The entry point of a direct form leaves the stacks empty. -/
theorem directEntry_leads (hlinked : Linked p frames out) (hplaced : Placed out d env)
    (hlawful : Shader.StmtsLawful DirectSite (fun _ => True) rest) (hrest : StmtsApart rest) :
    Leads env (.store stackBuffer (.var headerBase) (.u32 0)
        :: .store stackBuffer trapPlace (.u32 0) :: rest) (Opened d)
      fun _ => InShape frames out d := by
  obtain ⟨htwo, hsmall⟩ := hplaced.bounds
  have hdirect : Lawful env.exe.module DirectSite fun _ => True := fun c hc f hf =>
    (hlinked.runnable.direct c hc f (by rw [hplaced.exe] at hf; exact hf)).mono
      (fun _ => id) fun _ _ => trivial
  have hcalls : Steady.Calls env.exe.module DirectSite := by
    rw [hplaced.exe]
    exact hlinked.apart
  refine clearHeader_leads (by omega) fun a b hheader n s t h => ?_
  refine (h.steady (Steady.run hdirect hcalls hlawful hrest n)).mono ?_
  rintro flow s' t' ⟨h', -⟩
  exact ⟨a, b, shaped_empty (h.size_own ▸ htwo) hheader, h'⟩

/-- An entry point starts alike on both lanes, and goes on as it does once the regions are found. -/
theorem start_together (hx : Runnable env.exe) (hsize : d.size = regionSize env.exe)
    (hparams : f.params = []) (hbody : f.body = callOnly setupName :: rest)
    (hrest : Leads env rest P fun _ => InShape frames out d) {a b : Lane}
    (hindex : a.index = d.index) (hindex' : b.index = d.index)
    (h : P ⟨a, frame f [], d.bases d.index⟩ ⟨b, frame f [], d.bases d.index⟩) (n : Nat) :
    Together (fun _ => InShape frames out d) (outcome (call env n f []) a.entering)
      (outcome (call env n f []) b.entering) := by
  cases n with
  | zero =>
      rw [call]
      exact .none
  | succ n =>
      rw [outcome_call n (by rw [hparams]; rfl), outcome_call n (by rw [hparams]; rfl)]
      refine frame_leads (List.forall_mem_nil _) ?_
      rw [hbody]
      cases n with
      | zero =>
          rw [stmts_zero]
          exact .none
      | succ n =>
          have hs := outcome_setup hx rfl n ⟨a, frame f [], d.bases d.index⟩
          have ht := outcome_setup hx rfl n ⟨b, frame f [], d.bases d.index⟩
          dsimp only at hs ht
          rw [hindex, ← Pair.bases_eq hsize] at hs
          rw [hindex', ← Pair.bases_eq hsize] at ht
          rw [outcome_stmts_cons, outcome_stmts_cons]
          change Together _ ((outcome (stmt env n (callOnly setupName)) ⟨a, frame f [], unset⟩).bind _)
            ((outcome (stmt env n (callOnly setupName)) ⟨b, frame f [], unset⟩).bind _)
          rw [hs, ht]
          by_cases hn : n < 7
          · rw [if_pos hn, if_pos hn]
            exact .none
          · rw [if_neg hn, if_neg hn]
            exact hrest n _ _ h

/-- An entry point comes to the same on lanes that have all in common but the words of their
stacks. -/
theorem entry_together (hlinked : Linked p frames out) (hplaced : Placed out d env) {e : Entry}
    (he : e ∈ out.entries) (hf : out.module.function? e.shader = some f) {a b : Lane}
    (h : a.EqOffStack b) (hindex : a.index = d.index) (hsize : a.stack.words.size = d.size .stack)
    (n : Nat) :
    Together (fun _ => InShape frames out d) (outcome (call env n f []) a.entering)
      (outcome (call env n f []) b.entering) := by
  have hx : Runnable env.exe := by
    rw [hplaced.exe]
    exact hlinked.runnable
  have hregions : d.size = regionSize env.exe := by rw [hplaced.exe, hplaced.size]
  obtain ⟨f', hf', hcode⟩ := hlinked.runnable.entry e he
  rw [show out.toExecutable.module = out.module from rfl, hf] at hf'
  cases hf'
  have hstart := hcode.isStart
  have hopened : Opened d ⟨a, frame f [], d.bases d.index⟩ ⟨b, frame f [], d.bases d.index⟩ :=
    ⟨⟨h, rfl, rfl⟩, ⟨hindex, hsize, rfl, clear_frame hstart.starts.vars []⟩⟩
  rcases hcode with ⟨-, rfl⟩ | ⟨⟨exit, first, hexit, rfl⟩, -⟩
  · have hcallee : DirectSite ⟨directName e.func, e.sig.params.length, e.sig.results.length⟩ := by
      rw [DirectSite, stem_directName]
      decide
    obtain ⟨rest, hbody, hrest⟩ := directEntry_rest (W := fun _ => True) out.layout e.shader
      (directName e.func) e.sig hcallee trivial
    exact start_together hx hregions hstart.params hbody
      (directEntry_leads hlinked hplaced hrest (directEntry_apart _ _ _ _ hbody)) hindex
      (h.index.trans hindex) hopened n
  · obtain ⟨fr, hfr, -, htype, hisExit, hmachine⟩ := hlinked.starts e he exit hexit
    rw [hf] at hmachine
    have hbody := congrArg (·.body) (Option.some.inj hmachine)
    rw [← htype] at hisExit
    have hleads := machineEntry_leads hlinked hplaced hfr hisExit
    rw [htype] at hleads
    exact start_together hx hregions hstart.params
      (hbody.trans (body_machineEntry ..)) hleads hindex (h.index.trans hindex) hopened n

/-- A suspended invocation goes on alike on lanes abreast with stacks that are described. -/
theorem resume_together (hlinked : Linked p frames out) (hplaced : Placed out d env) {a b : Lane}
    (h : a.Abreast b) (hshaped : Shaped frames out a.stack.words b.stack.words)
    (hindex : a.index = d.index) (hsize : a.stack.words.size = d.size .stack) (n : Nat) :
    Together (fun _ => InShape frames out d) (outcome (call env n resumeEntry []) a.entering)
      (outcome (call env n resumeEntry []) b.entering) := by
  have hx : Runnable env.exe := by
    rw [hplaced.exe]
    exact hlinked.runnable
  have hleads : Leads env [callOnly dispatcherName] (InShape frames out d)
      fun _ => InShape frames out d :=
    (Leads.singleton (dispatcher_leads hlinked hplaced)).mono (fun _ _ => id) fun _ _ _ h => h.2
  exact start_together hx (by rw [hplaced.exe, hplaced.size]) rfl rfl hleads hindex
    (h.index.trans hindex)
    ⟨_, _, hshaped, ⟨h, rfl, rfl⟩, ⟨hindex, hsize, rfl, clear_frame (by decide) []⟩, rfl, rfl⟩ n

end Entries

end WasmShader.Execution
