import WasmShader.Proofs.Closure
import WasmShader.Proofs.SplitWalk

/-!
# The machine of a checked function

Splitting a checked function succeeds, and gives a machine whose blocks are typed and stand at
their numbers (`Machine.Sound`). Blocks that control cannot reach are dropped: what is kept is
closed under the transfers of the terminators, so that the new numbers of their targets are
numbers of blocks that are kept.
-/

namespace WasmShader

/-- The blocks of the machine stand at their numbers, are typed, and transfer control to
functions and host functions that are there; the first is entered without operands. -/
structure Machine.Sound (p : Program) (a : Analysis) (kept : Nat → Prop) (hosts : List HostFunc)
    (m : Machine) : Prop where
  index : ∀ k (b : Block), m.blocks[k]? = some b → b.index = k
  typed : ∀ b ∈ m.blocks, b.Typed p a kept m
  leads : ∀ b ∈ m.blocks, Split.Leads ⟨p, a, m.func⟩ kept hosts b.term
  entries : ∀ b ∈ m.blocks, AllKnown b.entry
  first : m.entryTypes? 0 = some []

/-! ## Blocks that are there -/

theorem Terminator.Typed.successor_lt {p : Program} {m : Machine} {t : Terminator}
    {stack : TypeStack} (h : t.Typed p m stack) : ∀ i ∈ t.successors, i < m.blocks.length := by
  have hlt {i : Nat} {types : List ValueType} (hi : m.entryTypes? i = some types) :
      i < m.blocks.length := by
    obtain ⟨b, hb, -⟩ := Option.map_eq_some_iff.mp hi
    exact (List.getElem?_eq_some_iff.mp hb).1
  intro i hi
  cases h with
  | goto he =>
      obtain rfl := List.mem_singleton.mp hi
      exact hlt he.target
  | branch ht hf =>
      rcases List.mem_cons.mp hi with rfl | hi
      · exact hlt ht.target
      · obtain rfl := List.mem_singleton.mp hi
        exact hlt hf.target
  | switch hcases hlast =>
      obtain ⟨e, he, rfl⟩ := List.mem_map.mp ((List.mem_append.mp hi).resolve_right List.not_mem_nil)
      rcases List.mem_append.mp he with he | he
      · exact hlt (hcases e he).target
      · obtain rfl := List.mem_singleton.mp he
        exact hlt hlast.target
  | call htakes hnext | host htakes hnext =>
      obtain rfl := List.mem_singleton.mp hi
      exact hlt hnext
  | ret | trap => cases hi

theorem Machine.Sound.isClosed {p : Program} {a : Analysis} {kept : Nat → Prop}
    {hosts : List HostFunc} {m : Machine} (h : m.Sound p a kept hosts) : m.isClosed = true :=
  List.all_eq_true.mpr fun b hb => List.all_eq_true.mpr fun i hi =>
    decide_eq_true ((h.typed b hb).term.successor_lt i hi)

/-! ## New numbers -/

section Renumber

variable {p : Program} {m m' : Machine} {number : Nat → Nat}

theorem Edge.Typed.renumber {e : Edge} {stack : TypeStack} (h : e.Typed m stack)
    (hnumber : ∀ types, m.entryTypes? e.target = some types →
      m'.entryTypes? (number e.target) = some types) :
    (Terminator.renumber.edge number e).Typed m' stack :=
  ⟨h.room, hnumber _ h.target⟩

theorem mem_successors_of_edge {t : Terminator} {e : Edge} (h : e ∈ t.edges) :
    e.target ∈ t.successors :=
  List.mem_append_left _ (List.mem_map.mpr ⟨e, h, rfl⟩)

/-- A terminator is typed for other numbers of its targets. -/
theorem Terminator.Typed.renumber {t : Terminator} {stack : TypeStack} (h : t.Typed p m stack)
    (hfunc : m'.func = m.func)
    (hnumber : ∀ i ∈ t.successors, ∀ types, m.entryTypes? i = some types →
      m'.entryTypes? (number i) = some types) :
    (t.renumber number).Typed p m' stack := by
  cases h with
  | goto he =>
      exact .goto (he.renumber (hnumber _ (mem_successors_of_edge (List.mem_singleton.mpr rfl))))
  | branch ht hf =>
      refine .branch (ht.renumber (hnumber _ (mem_successors_of_edge ?_)))
        (hf.renumber (hnumber _ (mem_successors_of_edge ?_)))
      · exact List.mem_cons_self
      · exact List.mem_cons_of_mem _ (List.mem_singleton.mpr rfl)
  | switch hcases hlast =>
      refine .switch (fun e he => ?_) (hlast.renumber (hnumber _ (mem_successors_of_edge ?_)))
      · obtain ⟨e', he', rfl⟩ := List.mem_map.mp he
        exact (hcases e' he').renumber
          (hnumber _ (mem_successors_of_edge (List.mem_append_left _ he')))
      · exact List.mem_append_right _ (List.mem_singleton.mpr rfl)
  | call htakes hnext =>
      exact .call htakes (hnumber _ (List.mem_append_right _ (List.mem_singleton.mpr rfl)) _ hnext)
  | host htakes hnext =>
      exact .host htakes (hnumber _ (List.mem_append_right _ (List.mem_singleton.mpr rfl)) _ hnext)
  | ret =>
      rw [← hfunc]
      exact .ret
  | trap => exact .trap

end Renumber

namespace Split

/-- New numbers change nothing about where control is transferred to. -/
theorem Leads.renumber {ctx : Context} {kept : Nat → Prop} {hosts : List HostFunc} {t : Terminator}
    (h : Leads ctx kept hosts t) (number : Nat → Nat) : Leads ctx kept hosts (t.renumber number) := by
  refine ⟨fun hf args results next ht => ?_, fun callee args results next ht => ?_⟩
  · cases t with
    | host func args' results' next' => cases ht; exact h.host _ _ _ _ rfl
    | _ => cases ht
  · cases t with
    | call callee' args' results' next' => cases ht; exact h.call _ _ _ _ rfl
    | _ => cases ht

/-! ## The blocks that are kept -/

section Prune

variable {bs : List Block}

/-- The successors of a block, by number. -/
def successorsAt (bs : List Block) (i : Nat) : List Nat :=
  (bs.toArray[i]?.map (·.term.successors)).getD []

theorem successorsAt_eq {i : Nat} {b : Block} (h : bs[i]? = some b) :
    successorsAt bs i = b.term.successors := by
  rw [successorsAt, List.getElem?_toArray, h]
  rfl

theorem foldl_successors (bs : List Block) (n : Nat) :
    bs.foldl (fun n b => n + b.term.successors.length) n
      = n + (bs.map fun b => b.term.successors.length).sum := by
  induction bs generalizing n with
  | nil => rfl
  | cons b bs ih => rw [List.foldl_cons, ih, List.map_cons, List.sum_cons, Nat.add_assoc]

theorem map_successorsAt (bs : List Block) :
    (List.range bs.length).map (fun i => (successorsAt bs i).length)
      = bs.map fun b => b.term.successors.length := by
  refine List.ext_getElem? fun i => ?_
  rw [List.getElem?_map, List.getElem?_map]
  by_cases hi : i < bs.length
  · rw [List.getElem?_range hi, List.getElem?_eq_getElem hi, Option.map_some, Option.map_some,
      successorsAt_eq (List.getElem?_eq_getElem hi)]
  · rw [List.getElem?_eq_none (by rw [List.length_range]; omega), List.getElem?_eq_none (by omega)]
    rfl

/-- The blocks that are reachable: block zero, and with a block its successors. -/
theorem reachable_closed (bs : List Block) :
    0 ∈ reachable bs.toArray ∧ ∀ i ∈ reachable bs.toArray,
      successorsAt bs i ⊆ reachable bs.toArray := by
  have hdom (i : Nat) : i ∈ List.range bs.length ∨ successorsAt bs i = [] := by
    by_cases hi : i < bs.length
    · exact .inl (List.mem_range.mpr hi)
    · refine .inr ?_
      rw [successorsAt, List.getElem?_toArray, List.getElem?_eq_none (by omega)]
      rfl
  have hedges : bs.toArray.foldl (fun n b => n + b.term.successors.length) 0
      = (bs.map fun b => b.term.successors.length).sum := by
    rw [List.foldl_toArray, foldl_successors, Nat.zero_add]
  have hfuel : [0].length + CallGraph.unseen (successorsAt bs) (List.range bs.length) []
      ≤ bs.toArray.foldl (fun n b => n + b.term.successors.length) 0 + 1 := by
    rw [CallGraph.unseen_nil, map_successorsAt, hedges, List.length_singleton, Nat.add_comm]
  obtain ⟨hwork, hclosed⟩ := CallGraph.closure_closed hdom hfuel
  refine ⟨hwork List.mem_cons_self, fun i hi => ?_⟩
  rcases hclosed i hi with hnil | hsub
  · cases hnil
  · exact hsub

/-- The blocks that control can reach. -/
def live (bs : List Block) : List Block :=
  bs.filter fun b => (reachable bs.toArray).contains b.index

/-- The new number of a block. -/
def newNumber (bs : List Block) (i : Nat) : Nat := ((live bs).map (·.index)).idxOf i

theorem survivors_eq (bs : List Block) :
    survivors bs.toArray = (live bs).map fun b =>
      { b with index := newNumber bs b.index, term := b.term.renumber (newNumber bs) } := rfl

/-- Looking for the blocks that control can reach finds only blocks that are there. -/
theorem prune_eq (hclosed : ∀ b ∈ bs, ∀ i ∈ b.term.successors, i < bs.length)
    (hfirst : 0 < bs.length) : prune bs.toArray = .ok (survivors bs.toArray) := by
  have hreach {i : Nat} (h : CallGraph.Reaches (successorsAt bs) 0 i) : i < bs.length := by
    rcases h.cases_tail with rfl | ⟨k, -, hstep⟩
    · exact hfirst
    · have hstep : i ∈ successorsAt bs k := hstep
      cases hb : bs[k]? with
      | none =>
          rw [successorsAt, List.getElem?_toArray, hb] at hstep
          cases hstep
      | some b =>
          rw [successorsAt_eq hb] at hstep
          exact hclosed b (List.mem_of_getElem? hb) i hstep
  rw [prune, if_pos]
  refine List.all_eq_true.mpr fun i hi => decide_eq_true ?_
  rcases CallGraph.reaches_of_mem_closure hi with hnil | ⟨k, hk, hpath⟩
  · cases hnil
  · obtain rfl := List.mem_singleton.mp hk
    exact hreach hpath

variable (hindex : ∀ k (b : Block), bs[k]? = some b → b.index = k)

include hindex in
theorem nodup_live : ((live bs).map (·.index)).Nodup := by
  have hall : bs.map (·.index) = List.range bs.length := by
    refine List.ext_getElem? fun i => ?_
    rw [List.getElem?_map]
    by_cases hi : i < bs.length
    · rw [List.getElem?_range hi, List.getElem?_eq_getElem hi, Option.map_some,
        hindex i _ (List.getElem?_eq_getElem hi)]
    · rw [List.getElem?_eq_none (by omega), List.getElem?_eq_none (by rw [List.length_range]; omega)]
      rfl
  have hsub : List.Sublist ((live bs).map (·.index)) (List.range bs.length) := by
    rw [← hall]
    exact List.filter_sublist.map _
  exact hsub.nodup List.nodup_range

include hindex in
/-- The blocks that are kept stand at their new numbers. -/
theorem newNumber_live {k : Nat} {b : Block} (h : (live bs)[k]? = some b) :
    newNumber bs b.index = k := by
  have hk : k < ((live bs).map (·.index)).length := by
    rw [List.length_map]
    exact (List.getElem?_eq_some_iff.mp h).1
  have hget : ((live bs).map (·.index))[k] = b.index := by
    rw [List.getElem_map]
    rw [(List.getElem?_eq_some_iff.mp h).2]
  rw [newNumber, ← hget]
  exact (nodup_live hindex).idxOf_getElem k hk

include hindex in
/-- A block that control can reach is found at its new number. -/
theorem getElem?_newNumber {i : Nat} {b : Block} (hb : bs[i]? = some b)
    (hi : i ∈ reachable bs.toArray) : (live bs)[newNumber bs i]? = some b := by
  have hbi := hindex i b hb
  have hmem : b ∈ live bs := by
    refine List.mem_filter.mpr ⟨List.mem_of_getElem? hb, ?_⟩
    rw [hbi]
    exact List.contains_iff_mem.mpr hi
  obtain ⟨k, hk⟩ := List.mem_iff_getElem?.mp hmem
  rw [← hbi, newNumber_live hindex hk, hk]

include hindex in
/-- Block zero keeps its number. -/
theorem newNumber_zero {b : Block} (hb : bs[0]? = some b) (hzero : 0 ∈ reachable bs.toArray) :
    newNumber bs 0 = 0 := by
  cases bs with
  | nil => cases hb
  | cons c cs =>
      cases hb
      have hb := hindex 0 b rfl
      have hlive : (reachable (b :: cs).toArray).contains b.index = true := by
        rw [hb]
        exact List.contains_iff_mem.mpr hzero
      rw [newNumber, live, List.filter_cons, hlive, if_pos rfl, List.map_cons, hb,
        List.idxOf_cons_self]

include hindex in
/-- Dropping what control cannot reach keeps the machine sound. -/
theorem survivors_sound {p : Program} {a : Analysis} {kept : Nat → Prop} {hosts : List HostFunc}
    {f : Function} (htyped : ∀ b ∈ bs, b.Typed p a kept ⟨f, bs⟩)
    (hleads : ∀ b ∈ bs, Leads ⟨p, a, f⟩ kept hosts b.term) (hknown : ∀ b ∈ bs, AllKnown b.entry)
    (hfirst : Machine.entryTypes? ⟨f, bs⟩ 0 = some []) :
    Machine.Sound p a kept hosts ⟨f, survivors bs.toArray⟩ := by
  obtain ⟨hzero, hclosed⟩ := reachable_closed bs
  have hentry (i : Nat) (hi : i ∈ reachable bs.toArray) (types : List ValueType)
      (h : Machine.entryTypes? ⟨f, bs⟩ i = some types) :
      Machine.entryTypes? ⟨f, survivors bs.toArray⟩ (newNumber bs i) = some types := by
    obtain ⟨b, hb, rfl⟩ := Option.map_eq_some_iff.mp h
    rw [Machine.entryTypes?, survivors_eq, List.getElem?_map, getElem?_newNumber hindex hb hi]
    rfl
  have hmem {b : Block} (h : b ∈ survivors bs.toArray) : ∃ b' ∈ bs, b'.index ∈ reachable bs.toArray
      ∧ b = { b' with
        index := newNumber bs b'.index, term := b'.term.renumber (newNumber bs) } := by
    rw [survivors_eq] at h
    obtain ⟨b', hb', rfl⟩ := List.mem_map.mp h
    obtain ⟨hin, hlive⟩ := List.mem_filter.mp hb'
    exact ⟨b', hin, List.contains_iff_mem.mp hlive, rfl⟩
  refine ⟨fun k b hb => ?_, fun b hb => ?_, fun b hb => ?_, fun b hb => ?_, ?_⟩
  · change (survivors bs.toArray)[k]? = some b at hb
    rw [survivors_eq, List.getElem?_map] at hb
    obtain ⟨b', hb', rfl⟩ := Option.map_eq_some_iff.mp hb
    exact newNumber_live hindex hb'
  · obtain ⟨b', hin, hlive, rfl⟩ := hmem hb
    obtain ⟨k, hk⟩ := List.mem_iff_getElem?.mp hin
    have hb' := htyped b' hin
    refine ⟨hb'.body, hb'.direct, hb'.stays, hb'.known, hb'.term.renumber rfl fun i hi => hentry i ?_⟩
    refine hclosed _ hlive ?_
    rw [successorsAt_eq (hindex k b' hk ▸ hk)]
    exact hi
  · obtain ⟨b', hin, -, rfl⟩ := hmem hb
    exact (hleads b' hin).renumber _
  · obtain ⟨b', hin, -, rfl⟩ := hmem hb
    exact hknown b' hin
  · have hnew := hentry 0 hzero [] hfirst
    obtain ⟨b, hb, -⟩ := Option.map_eq_some_iff.mp hfirst
    rwa [newNumber_zero hindex hb hzero] at hnew

end Prune

/-! ## The whole walk -/

theorem finish_eq {i : Nat} {d : Draft} (h : d.term.isSome = true) :
    finish i d
      = .ok ⟨i, d.entry, d.body, d.stack, d.term.getD (.trap .unreachable)⟩ := by
  obtain ⟨t, ht⟩ := Option.isSome_iff_exists.mp h
  rw [finish, ht]
  rfl

/-- All drafts are finished blocks. -/
theorem finishAll_eq {ds : List Draft} (h : ∀ d ∈ ds, d.term.isSome = true) (n : Nat)
    {k : Draft × Nat → Except Abort Block} (hk : ∀ d i, k (d, i) = finish i d) :
    (ds.zipIdx n).mapM k = .ok (ds.mapIdx fun i d =>
      ⟨n + i, d.entry, d.body, d.stack, d.term.getD (.trap .unreachable)⟩) := by
  induction ds generalizing n with
  | nil => rfl
  | cons d ds ih =>
      rw [List.zipIdx_cons, List.mapM_cons, hk, finish_eq (h d List.mem_cons_self),
        ih (fun d' hd' => h d' (List.mem_cons_of_mem _ hd')) (n + 1), List.mapIdx_cons]
      have hshift : (fun i (d : Draft) => (⟨n + 1 + i, d.entry, d.body, d.stack,
          d.term.getD (.trap .unreachable)⟩ : Block)) = fun i d =>
          ⟨n + (i + 1), d.entry, d.body, d.stack, d.term.getD (.trap .unreachable)⟩ := by
        funext i d
        rw [Nat.add_assoc, Nat.add_comm 1]
      rw [hshift]
      rfl

section Walk

variable {ctx : Context} {kept : Nat → Prop} {body : List Node} {hosts : HostTable}

/-- The walk of a whole body leaves finished blocks only. -/
theorem walk_ends (hctx : Walkable ctx) (hhosts : hosts.Sound ctx.program)
    (hbody : ctx.program.TypedSeq ctx.func [ctx.func.type.results] body [] ctx.func.type.results)
    (hkept : Admits ctx kept (Body.instrs body)) :
    Ends (do
        enter (← newBlock [])
        walkSeq ctx [⟨.func, ctx.func.type.results⟩] body
        if (← get).current.isSome then terminate (.ret ctx.func.type.results)) { hosts }
      fun _ s' => Walking ctx kept [] s' ∧ s'.current = none
        ∧ (hosts.funcs <+: s'.hosts.funcs ∧ s'.hosts.layout = hosts.layout)
        ∧ (s'.machine ctx.func).entryTypes? 0 = some []
        ∧ BodyCode ctx.program ctx.func s'.block? body := by
  let s₀ : State := { hosts }
  have hnone (i : Nat) : s₀.drafts[i]? = none := rfl
  have hw₀ : Walking ctx kept [] s₀ := by
    refine ⟨⟨fun i d t hd => ?_, fun i d t hd => ?_, fun i d hd => ?_, fun i hi => ?_, hhosts⟩,
      fun i d hd => ?_⟩
    · rw [hnone] at hd; cases hd
    · rw [hnone] at hd; cases hd
    · rw [hnone] at hd; cases hd
    · cases hi
    · rw [hnone] at hd; cases hd
  have hnil : AllKnown [] := fun _ h => by cases h
  let s₁ : State := { s₀.push [] with current := some 0, stack := [] }
  have hdraft : (s₀.push []).drafts[0]? = some { entry := [] } := getElem?_push_self s₀ []
  have hw₁ : Walking ctx kept [] s₁ := (hw₀.push hnil).enter rfl []
  have ho₁ : Open ctx kept s₁ 0 := .enter hdraft
  have hext₁ : Extends s₀ s₁ := (Extends.push s₀ []).enter (Nat.le_refl _) []
  have hentry : (s₁.machine ctx.func).entryTypes? 0 = some [] := by
    rw [entryTypes?_machine]
    rfl
  have hlabel : LabelFits ctx s₁ [] ⟨.func, ctx.func.type.results⟩ ctx.func.type.results := by
    refine ⟨rfl, fun _ => rfl, ?_⟩
    rintro _ _ ⟨⟩
  refine .step (newBlock_eq s₀ []) (.step (enter_eq hdraft) ?_)
  refine .bind (walkSeq_ends hctx body hbody hkept [] s₁ _ [] hw₁
    (reached_of_open hctx hw₁.toDrafted ho₁ rfl) (.cons hlabel .nil)) ?_
  rintro _ s₂ ⟨hstep, hpassed, hcodes⟩
  have hext := hext₁.trans hstep.ext
  have hentry₂ := (hstep.ext.machine ctx.func).entry _ _ hentry
  have hstart {z : State} (hz : Later s₁ z) : ∃ start, z.block? 0 = some start
      ∧ s₁.rest? z = some start := by
    obtain ⟨start, hstart⟩ := exists_block? (i := 0) hz hdraft
    exact ⟨start, hstart, (rest?_of_empty (s := s₁) rfl hdraft).trans hstart⟩
  refine .get ?_
  rcases hpassed with ⟨hcur, -⟩ | ⟨i, ho, hstack⟩
  · rw [hcur]
    obtain ⟨start, hblock, hrest⟩ := hstart hstep.ext.later
    have hcode := hcodes s₂ (Extends.refl s₂).later start hrest
    rw [rest?_of_none hcur] at hcode
    exact .pure ⟨hstep.walking, hcur, hext.hosts, hentry₂, start, none, hblock, hcode, nofun⟩
  · rw [ho.current]
    have hret : Terminator.Typed ctx.program (s₂.machine ctx.func) s₂.stack
        (.ret ctx.func.type.results) := by
      rw [hstack]
      exact .ret
    refine (terminate_ends hctx hstep.walking ho (prefix_of_stack hstack) hret
      (leads_of_next? rfl)).mono ?_
    rintro _ s' ⟨hstep', ⟨hcur, -⟩, hend⟩
    have hlater := hstep'.ext.later
    obtain ⟨start, hblock, hrest⟩ := hstart (hstep.ext.later.trans hlater)
    exact ⟨hstep'.walking, hcur, (hext.trans hstep'.ext).hosts,
      (hstep'.ext.machine ctx.func).entry _ _ hentry₂, start, _, hblock,
      hcodes s' hlater start hrest, fun t ht => (hend s' (Extends.refl s').later t ht).1⟩

end Walk

end Split

section Whole

open Split

variable {p : Program} {a : Analysis} {kept : Nat → Prop} {f : Function} {body : List Node}
  {hosts : HostTable}

/-- Where every draft is finished, the blocks of the machine are the drafts. -/
theorem Split.draft_of_block {s : State} (hfinished : ∀ d ∈ s.drafts.toList, d.term.isSome = true)
    {k : Nat} {b : Block} (hb : (s.machine f).blocks[k]? = some b) :
    ∃ d t, s.drafts[k]? = some d ∧ d.term = some t ∧ b = ⟨k, d.entry, d.body, d.stack, t⟩ := by
  change (s.drafts.toList.mapIdx _)[k]? = some b at hb
  rw [List.getElem?_mapIdx] at hb
  obtain ⟨d, hd, rfl⟩ := Option.map_eq_some_iff.mp hb
  obtain ⟨t, ht⟩ := Option.isSome_iff_exists.mp (hfinished d (List.mem_of_getElem? hd))
  rw [Array.getElem?_toList] at hd
  exact ⟨d, t, hd, ht, by rw [ht]; rfl⟩

theorem Split.Drafted.typed_of_block {s : State} (hw : Drafted ⟨p, a, f⟩ kept s)
    (hfinished : ∀ d ∈ s.drafts.toList, d.term.isSome = true) {b : Block}
    (hb : b ∈ (s.machine f).blocks) : b.Typed p a kept (s.machine f) := by
  obtain ⟨k, hk⟩ := List.mem_iff_getElem?.mp hb
  obtain ⟨d, t, hd, ht, rfl⟩ := draft_of_block hfinished hk
  exact hw.typed k d t hd ht

/-- The machine of a checked function is what is left of the blocks that the walk makes, all of
which are finished. -/
theorem Machine.split_walk (hctx : Walkable ⟨p, a, f⟩) (hhosts : hosts.Sound p)
    (hf : f.body = .ok body) (hbody : p.TypedSeq f [f.type.results] body [] f.type.results)
    (hkept : CallsKept p kept (Body.instrs body)) :
    ∃ s : State, Machine.split p a hosts f = .ok (⟨f, survivors (s.machine f).blocks.toArray⟩, s.hosts)
      ∧ Drafted ⟨p, a, f⟩ kept s ∧ (∀ d ∈ s.drafts.toList, d.term.isSome = true)
      ∧ (hosts.funcs <+: s.hosts.funcs ∧ s.hosts.layout = hosts.layout)
      ∧ (s.machine f).entryTypes? 0 = some [] ∧ BodyCode p f s.block? body := by
  have hadmits : Admits ⟨p, a, f⟩ kept (Body.instrs body) :=
    ⟨hkept, fun i hi _ hkey => ⟨body, hf, i, hi, hkey⟩⟩
  obtain ⟨u, s, hwalk, hw, hcur, hmore, hfirst, hcode⟩ := walk_ends hctx hhosts hbody hadmits
  have hfinished : ∀ d ∈ s.drafts.toList, d.term.isSome = true := by
    intro d hd
    obtain ⟨i, hi⟩ := List.mem_iff_getElem?.mp hd
    rw [Array.getElem?_toList] at hi
    rw [Option.isSome_iff_ne_none]
    intro hterm
    rcases hw.waiting i d hi hterm with h | h
    · rw [hcur] at h; cases h
    · cases h
  refine ⟨s, ?_, hw.toDrafted, hfinished, hmore, hfirst, hcode⟩
  have hfinish : s.drafts.toList.zipIdx.mapM (fun x => finish x.2 x.1)
      = .ok (s.machine f).blocks := by
    rw [finishAll_eq hfinished 0 fun _ _ => rfl]
    simp only [Nat.zero_add]
    rfl
  have hprune : prune (s.machine f).blocks.toArray
      = .ok (survivors (s.machine f).blocks.toArray) := by
    refine prune_eq (fun b hb => (hw.toDrafted.typed_of_block hfinished hb).term.successor_lt) ?_
    obtain ⟨b, hb, -⟩ := Option.map_eq_some_iff.mp hfirst
    exact (List.getElem?_eq_some_iff.mp hb).1
  have hrest : (s.drafts.toList.zipIdx.mapM (fun x => finish x.2 x.1) >>= fun blocks =>
      prune blocks.toArray >>= fun kept =>
        Except.ok ((⟨f, kept⟩, s.hosts) : Machine × HostTable))
      = .ok (⟨f, survivors (s.machine f).blocks.toArray⟩, s.hosts) := by
    rw [hfinish]
    exact congrArg (fun kept => kept >>= fun kept =>
      Except.ok ((⟨f, kept⟩, s.hosts) : Machine × HostTable)) hprune
  unfold Machine.split
  rw [hf]
  exact (congrArg (· >>= _) hwalk).trans hrest

/-- A checked function is split into a sound machine. -/
theorem Machine.split_sound (hctx : Walkable ⟨p, a, f⟩) (hhosts : hosts.Sound p)
    (hf : f.body = .ok body) (hbody : p.TypedSeq f [f.type.results] body [] f.type.results)
    (hkept : CallsKept p kept (Body.instrs body)) :
    ∃ m hosts', Machine.split p a hosts f = .ok (m, hosts') ∧ m.func = f
      ∧ m.Sound p a kept hosts'.funcs ∧ hosts'.Sound p
      ∧ hosts.funcs <+: hosts'.funcs ∧ hosts'.layout = hosts.layout := by
  obtain ⟨s, hsplit, hw, hfinished, ⟨hmore, hlayout⟩, hfirst, -⟩ :=
    Machine.split_walk hctx hhosts hf hbody hkept
  let bs := (s.machine f).blocks
  have hsound : Machine.Sound p a kept s.hosts.funcs ⟨f, survivors bs.toArray⟩ := by
    refine survivors_sound ?_ ?_ ?_ ?_ hfirst
    · intro k b hb
      obtain ⟨d, t, -, -, rfl⟩ := draft_of_block hfinished hb
      rfl
    · exact fun b hb => hw.typed_of_block hfinished hb
    · intro b hb
      obtain ⟨k, hk⟩ := List.mem_iff_getElem?.mp hb
      obtain ⟨d, t, hd, ht, rfl⟩ := draft_of_block hfinished hk
      exact hw.leads k d t hd ht
    · intro b hb
      obtain ⟨k, hk⟩ := List.mem_iff_getElem?.mp hb
      obtain ⟨d, t, hd, -, rfl⟩ := draft_of_block hfinished hk
      exact hw.known k d hd
  exact ⟨⟨f, survivors bs.toArray⟩, s.hosts, hsplit, rfl, hsound, hw.hosts, hmore, hlayout⟩

end Whole

end WasmShader
