import WasmShader.Proofs.ModulePlan

/-!
# The form of a machine

What can be said of every machine that a checked function is split into, without the walk that
made it: its blocks are at their numbers and control can get to all of them; nothing leads back to
the first block, which is entered without operands; a block is entered with the operands that its
predecessors leave; and the code of a block is straight but for constructs that it stays in.

That nothing leads back to the first block is an invariant of the walk that needs no types: labels,
the block that returns and all blocks to go on in have been added since (`Inner`).
-/

namespace WasmShader

namespace Split

variable {α β : Type}

/-! ## Steps that keep an invariant -/

/-- If the step succeeds, it keeps the invariant and gives what is described. -/
def Keeps (I : State → Prop) (x : Walk α) (Q : α → Prop) : Prop :=
  ∀ s a s', I s → x s = .ok (a, s') → I s' ∧ Q a

namespace Keeps

variable {I : State → Prop} {x : Walk α} {k : α → Walk β} {Q : α → Prop} {R : β → Prop}

theorem pure {a : α} (h : Q a) : Keeps I (Pure.pure a) Q := by
  intro s b s' hs hrun
  cases hrun
  exact ⟨hs, h⟩

theorem bind (hx : Keeps I x Q) (hk : ∀ a, Q a → Keeps I (k a) R) : Keeps I (x >>= k) R := by
  intro s b s' hs hrun
  obtain ⟨⟨a, s₁⟩, hrun₁, hrun₂⟩ := Program.bind_eq_ok hrun
  obtain ⟨hs₁, ha⟩ := hx s a s₁ hs hrun₁
  exact hk a ha s₁ b s' hs₁ hrun₂

theorem get {k : State → Walk β} (h : ∀ s, I s → Keeps I (k s) R) :
    Keeps I (MonadState.get >>= k) R :=
  bind (Q := I) (fun s a s' hs hrun => by cases hrun; exact ⟨hs, hs⟩) h

/-- A computation that does not look at the state. -/
theorem lift {y : Except Abort α} (h : ∀ a, y = .ok a → Keeps I (k a) R) :
    Keeps I ((liftM y : Walk α) >>= k) R := by
  refine bind (Q := fun a => y = .ok a) (fun s a s' hs hrun => ?_) h
  obtain ⟨b, hb, hrun⟩ := Program.bind_eq_ok hrun
  cases hrun
  exact ⟨hs, hb⟩

theorem modify {change : State → State} (h : ∀ s, I s → I (change s)) :
    Keeps I (modifyThe State change) fun _ => True := by
  intro s a s' hs hrun
  cases hrun
  exact ⟨h s hs, trivial⟩

theorem crash : Keeps I (Split.crash : Walk α) Q := by
  intro s a s' _ hrun
  cases hrun

theorem ite {c : Prop} [Decidable c] {y : Walk α} (hx : c → Keeps I x Q) (hy : ¬c → Keeps I y Q) :
    Keeps I (if c then x else y) Q := by
  split
  · next h => exact hx h
  · next h => exact hy h

end Keeps

/-! ## Away from the first block -/

/-- The terminator does not lead to the first block, and if it is a switch, it has the cases of a
table branch among the instructions. -/
structure Inward (instrs : List Instr) (t : Terminator) : Prop where
  targets : 0 ∉ t.successors
  cases : ∀ cases fallback, t = .switch cases fallback → ∃ i ∈ instrs, ∃ depths last,
    i.operation = .brTable ∧ i.imm = .branchTable depths last ∧ cases.length = depths.length

/-- The first block is there, and nothing leads to it. -/
structure Inner (instrs : List Instr) (s : State) : Prop where
  first : 0 < s.drafts.size
  terms : ∀ (i : Nat) (d : Draft) t, s.drafts[i]? = some d → d.term = some t → Inward instrs t
  returns : s.returnBlock ≠ some 0

/-- The label does not stand for the first block. -/
def Label.Inner (l : Label) : Prop := ∀ height, l.target ≠ .block 0 height

section Inner

variable {ctx : Context} {instrs : List Instr}

theorem Inner.congr {s s' : State} (h : Inner instrs s) (hdrafts : s'.drafts = s.drafts)
    (hreturns : s'.returnBlock = s.returnBlock) : Inner instrs s' :=
  ⟨hdrafts ▸ h.first, hdrafts ▸ h.terms, hreturns ▸ h.returns⟩

theorem newBlock_keeps (entry : List ValueType) :
    Keeps (Inner instrs) (newBlock entry) fun k => k ≠ 0 := by
  intro s k s' hs hrun
  rw [newBlock_eq] at hrun
  cases hrun
  refine ⟨⟨?_, fun i d t hd ht => ?_, hs.returns⟩, Nat.ne_of_gt hs.first⟩
  · exact Nat.lt_of_lt_of_le hs.first (Extends.push s entry).size_le
  · rcases of_getElem?_push hd with hd | ⟨-, rfl⟩
    · exact hs.terms i d t hd ht
    · cases ht

/-- A change of a block that gives it no terminator but a right one. -/
theorem Inner.edit {s : State} (h : Inner instrs s) (i : Nat) {change : Draft → Draft}
    (hchange : ∀ d t, (change d).term = some t → d.term = some t ∨ Inward instrs t) :
    Inner instrs (s.edit i change) := by
  refine ⟨?_, fun j d t hd ht => ?_, h.returns⟩
  · change 0 < (s.drafts.modify i change).size
    rw [Array.size_modify]
    exact h.first
  · rw [getElem?_edit] at hd
    split at hd
    · obtain ⟨d₀, hd₀, rfl⟩ := Option.map_eq_some_iff.mp hd
      exact (hchange d₀ t ht).elim (h.terms j d₀ t hd₀) id
    · exact h.terms j d t hd ht

theorem editCurrent_keeps {change : Draft → Draft}
    (hchange : ∀ d t, (change d).term = some t → d.term = some t ∨ Inward instrs t) :
    Keeps (Inner instrs) (editCurrent change) fun _ => True := by
  intro s u s' hs hrun
  cases hcur : s.current with
  | none =>
      obtain ⟨drafts, current, stack, returnBlock, hosts⟩ := s
      cases hcur
      cases hrun
  | some i =>
      rw [editCurrent_eq hcur] at hrun
      cases hrun
      exact ⟨hs.edit i hchange, trivial⟩

theorem append_keeps (n : Node) : Keeps (Inner instrs) (append n) fun _ => True :=
  editCurrent_keeps fun _ _ => .inl

theorem close_keeps (stack : List ValueType) {t : Terminator} (ht : Inward instrs t) :
    Keeps (Inner instrs) (close stack t) fun _ => True :=
  editCurrent_keeps fun _ _ h => .inr (Option.some.inj h ▸ ht)

theorem enter_keeps (k : Nat) : Keeps (Inner instrs) (enter k) fun _ => True :=
  .modify fun _ h => h.congr rfl rfl

theorem terminate_keeps {t : Terminator} (ht : Inward instrs t) :
    Keeps (Inner instrs) (terminate t) fun _ => True :=
  .get fun s _ => .bind (close_keeps s.stack ht) fun _ _ => .modify fun _ h => h.congr rfl rfl

theorem below_keeps (stack : TypeStack) (n : Nat) :
    Keeps (Inner instrs) (below stack n) fun _ => True :=
  .ite (fun _ => .crash) fun _ => .pure trivial

theorem bottom_keeps (stack : TypeStack) (n : Nat) :
    Keeps (Inner instrs) (bottom stack n) fun _ => True :=
  .ite (fun _ => .crash) fun _ => .pure trivial

theorem inward_of_edges {t : Terminator} (hedges : ∀ e ∈ t.edges, e.target ≠ 0)
    (hnext : t.next? = none) (hcases : ∀ cases fallback, t = .switch cases fallback →
      ∃ i ∈ instrs, ∃ depths last, i.operation = .brTable ∧ i.imm = .branchTable depths last
        ∧ cases.length = depths.length) : Inward instrs t := by
  refine ⟨fun hmem => ?_, hcases⟩
  rw [Terminator.successors, hnext, Option.toList_none, List.append_nil] at hmem
  obtain ⟨e, he, hzero⟩ := List.mem_map.mp hmem
  exact hedges e he hzero

theorem inward_goto {e : Edge} (he : e.target ≠ 0) : Inward instrs (.goto e) := by
  refine inward_of_edges (fun e' he' => ?_) rfl nofun
  rwa [List.mem_singleton.mp he']

theorem inward_branch {e e' : Edge} (he : e.target ≠ 0) (he' : e'.target ≠ 0) :
    Inward instrs (.branch e e') := by
  refine inward_of_edges (fun e₁ he₁ => ?_) rfl nofun
  rcases List.mem_cons.mp he₁ with rfl | he₁
  · exact he
  · rwa [List.mem_singleton.mp he₁]

theorem inward_of_next {t : Terminator} {next : Nat} (hedges : t.edges = [])
    (hnext : t.next? = some next) (hne : next ≠ 0) : Inward instrs t := by
  refine ⟨fun hmem => ?_, ?_⟩
  · rw [Terminator.successors, hedges, hnext] at hmem
    exact hne (List.mem_singleton.mp hmem).symm
  · rintro cases fallback rfl
    cases hnext

theorem inward_ret (results : List ValueType) : Inward instrs (.ret results) :=
  inward_of_edges nofun rfl nofun

theorem returnBlock_keeps (results : List ValueType) :
    Keeps (Inner instrs) (returnBlock results) fun k => k ≠ 0 := by
  refine .get fun s hs => ?_
  cases hret : s.returnBlock with
  | some i => exact .pure fun heq => hs.returns (heq ▸ hret)
  | none =>
      refine .bind (newBlock_keeps results) fun i hi => ?_
      refine .bind (.modify fun s hs => ?_) fun _ _ => .pure hi
      let change (d : Draft) : Draft := { d with stack := results, term := some (.ret results) }
      have hedit : Inner instrs (s.edit i change) :=
        hs.edit i fun d t ht => .inr (Option.some.inj ht ▸ inward_ret results)
      exact ⟨hedit.first, hedit.terms, fun heq => hi (Option.some.inj heq)⟩

theorem edgeTo_keeps {l : Label} (hl : l.Inner) :
    Keeps (Inner instrs) (edgeTo ctx l) fun e => e.target ≠ 0 := by
  unfold edgeTo
  cases htarget : l.target with
  | func => exact .bind (returnBlock_keeps _) fun k hk => .pure hk
  | block index height =>
      refine .pure fun heq => hl height ?_
      rw [htarget]
      exact congrArg (Target.block · height) heq

theorem labelAt_keeps {labels : List Label} (hlabels : ∀ l ∈ labels, l.Inner) (depth : UInt32) :
    Keeps (Inner instrs) (labelAt labels depth) Label.Inner := by
  unfold labelAt
  cases hl : labels[depth.toNat]? with
  | none => exact .crash
  | some l => exact .pure (hlabels l (List.mem_of_getElem? hl))

theorem edgeAt_keeps {labels : List Label} (hlabels : ∀ l ∈ labels, l.Inner) (depth : UInt32) :
    Keeps (Inner instrs) (do edgeTo ctx (← labelAt labels depth)) fun e => e.target ≠ 0 :=
  .bind (labelAt_keeps hlabels depth) fun _ hl => edgeTo_keeps hl

theorem edgesAt_keeps {labels : List Label} (hlabels : ∀ l ∈ labels, l.Inner)
    (depths : List UInt32) :
    Keeps (Inner instrs) (depths.mapM fun d => do edgeTo ctx (← labelAt labels d))
      fun es => es.length = depths.length ∧ ∀ e ∈ es, e.target ≠ 0 := by
  induction depths with
  | nil => exact .pure ⟨rfl, nofun⟩
  | cons d ds ih =>
      rw [List.mapM_cons]
      refine .bind (edgeAt_keeps hlabels d) fun e he => .bind ih ?_
      rintro es ⟨hlen, hes⟩
      exact .pure ⟨congrArg (· + 1) hlen, List.forall_mem_cons.mpr ⟨he, hes⟩⟩

theorem yieldWith_keeps (args results : List ValueType)
    {term : List ValueType → List ValueType → Nat → Terminator}
    (hterm : ∀ next, next ≠ 0 → Inward instrs (term args results next)) :
    Keeps (Inner instrs) (yieldWith args results term) fun _ => True :=
  .get fun _ _ => .bind (below_keeps _ _) fun _ _ => .bind (newBlock_keeps _) fun next hnext =>
    .bind (close_keeps _ (hterm next hnext)) fun _ _ => enter_keeps next

theorem yieldHost_keeps (request : HostTable → HostFunc × HostTable) :
    Keeps (Inner instrs) (yieldHost request) fun _ => True :=
  .get fun _ _ => .bind (.modify fun _ h => h.congr rfl rfl) fun _ _ =>
    yieldWith_keeps _ _ fun _ hnext => inward_of_next rfl rfl hnext

theorem plain_keeps (i : Instr) : Keeps (Inner instrs) (plain ctx i) fun _ => True :=
  .get fun _ _ => .lift fun _ _ => .lift fun _ _ =>
    .bind (.modify fun _ h => h.congr rfl rfl) fun _ _ => append_keeps _

theorem walkCall_keeps (i : Instr) (target : Nat) :
    Keeps (Inner instrs) (walkCall ctx i target) fun _ => True := by
  unfold walkCall
  refine .ite (fun _ => ?_) fun _ => .ite (fun _ => plain_keeps i) fun _ =>
    yieldWith_keeps _ _ fun _ hnext => inward_of_next rfl rfl hnext
  cases ctx.program.imports[target]? with
  | none => exact .crash
  | some imp =>
      exact .get fun _ _ => .bind (.modify fun _ h => h.congr rfl rfl) fun _ _ =>
        yieldWith_keeps _ _ fun _ hnext => inward_of_next rfl rfl hnext

theorem walkTable_keeps {labels : List Label} (hlabels : ∀ l ∈ labels, l.Inner) {i : Instr}
    (hi : i ∈ instrs) {depths : List UInt32} {fallback : UInt32} (hop : i.operation = .brTable)
    (himm : i.imm = .branchTable depths fallback) :
    Keeps (Inner instrs) (walkTable ctx labels depths fallback) fun _ => True := by
  refine .bind (edgesAt_keeps hlabels depths) ?_
  rintro es ⟨hlen, hes⟩
  refine .bind (labelAt_keeps hlabels fallback) fun l hl => .bind (edgeTo_keeps hl) fun e he => ?_
  refine terminate_keeps (inward_of_edges (fun e' he' => ?_) rfl ?_)
  · rcases List.mem_append.mp he' with he' | he'
    · exact hes e' he'
    · exact List.mem_singleton.mp he' ▸ he
  · rintro _ _ ⟨⟩
    exact ⟨i, hi, depths, fallback, hop, himm, hlen⟩

theorem walkInstr_keeps {labels : List Label} (hlabels : ∀ l ∈ labels, l.Inner) {i : Instr}
    (hi : i ∈ instrs) : Keeps (Inner instrs) (walkInstr ctx labels i) fun _ => True := by
  unfold walkInstr
  split
  · next depth _ _ =>
    refine .bind (labelAt_keeps hlabels depth) fun l hl => ?_
    cases htarget : l.target with
    | func => exact terminate_keeps (inward_ret _)
    | block index height =>
        exact .bind (edgeTo_keeps hl) fun e he => terminate_keeps (inward_goto he)
  · next depth _ _ =>
    refine .bind (labelAt_keeps hlabels depth) fun l hl => .bind (edgeTo_keeps hl) fun e he => ?_
    exact .get fun _ _ => .bind (below_keeps _ _) fun rest _ => .bind (newBlock_keeps rest)
      fun next hnext => .bind (close_keeps _ (inward_branch he hnext)) fun _ _ => enter_keeps next
  · next depths fallback hop himm => exact walkTable_keeps hlabels hi hop himm
  · exact terminate_keeps (inward_ret _)
  · exact terminate_keeps (inward_of_edges nofun rfl nofun)
  · exact walkCall_keeps i _
  · split
    · exact .crash
    · exact yieldHost_keeps _
  · exact yieldHost_keeps _
  · exact yieldHost_keeps _
  all_goals first | exact .crash | exact plain_keeps i

theorem leaveFor_keeps {join : Nat} (hjoin : join ≠ 0) (base : Nat) (results : List ValueType) :
    Keeps (Inner instrs) (leaveFor join base results) fun _ => True :=
  .get fun _ _ => .ite (fun _ => terminate_keeps (inward_goto hjoin)) fun _ => .pure trivial

theorem keepInline_keeps (n : Node) (pops : Nat) (pushes : List ValueType) :
    Keeps (Inner instrs) (keepInline n pops pushes) fun _ => True :=
  .bind (append_keeps n) fun _ _ => .get fun _ _ => .bind (below_keeps _ _) fun _ _ =>
    .modify fun _ h => h.congr rfl rfl

theorem inner_cons {labels : List Label} (hlabels : ∀ l ∈ labels, l.Inner) {index : Nat}
    (hindex : index ≠ 0) (height : Nat) (types : List ValueType) :
    ∀ l ∈ (⟨.block index height, types⟩ : Label) :: labels, l.Inner := by
  refine List.forall_mem_cons.mpr ⟨?_, hlabels⟩
  rintro height' ⟨⟩
  exact hindex rfl

mutual

theorem walkNode_keeps : (n : Node) → n.instrs ⊆ instrs → {labels : List Label} →
    (∀ l ∈ labels, l.Inner) → Keeps (Inner instrs) (walkNode ctx labels n) fun _ => True
  | .instr i, hsub, labels, hlabels => by
      rw [walkNode]
      rw [Node.instrs] at hsub
      exact walkInstr_keeps hlabels (hsub List.mem_cons_self)
  | .block loop sig body, hsub, labels, hlabels => by
      rw [walkNode]
      rw [Node.instrs] at hsub
      refine .lift fun b _ => .ite (fun _ => keepInline_keeps _ _ _) fun _ => .ite (fun _ => ?_) fun _ => ?_
      · refine .get fun _ _ => .bind (below_keeps _ _) fun outer _ => .bind (newBlock_keeps _)
          fun header hheader => .bind (terminate_keeps (inward_goto hheader)) fun _ _ =>
          .bind (enter_keeps header) fun _ _ => ?_
        exact .bind (walkSeq_keeps body hsub (inner_cons hlabels hheader _ _)) fun _ _ =>
          .get fun _ _ => .bind (bottom_keeps _ _) fun _ _ => .modify fun _ h => h.congr rfl rfl
      · refine .get fun _ _ => .bind (below_keeps _ _) fun outer _ => .bind (newBlock_keeps _)
          fun join hjoin => ?_
        exact .bind (walkSeq_keeps body hsub (inner_cons hlabels hjoin _ _)) fun _ _ =>
          .bind (leaveFor_keeps hjoin _ _) fun _ _ => enter_keeps join
  | .ifThen sig body, hsub, labels, hlabels => by
      rw [walkNode]
      rw [Node.instrs] at hsub
      refine .lift fun b _ => .ite (fun _ => keepInline_keeps _ _ _) fun _ => ?_
      refine .get fun _ _ => .bind (below_keeps _ _) fun rest _ => .bind (below_keeps _ _)
        fun outer _ => .bind (newBlock_keeps _) fun join hjoin => .bind (newBlock_keeps _)
        fun first hfirst => .bind (close_keeps _ (inward_branch hfirst hjoin)) fun _ _ =>
        .bind (enter_keeps first) fun _ _ => ?_
      exact .bind (walkSeq_keeps body hsub (inner_cons hlabels hjoin _ _)) fun _ _ =>
        .bind (leaveFor_keeps hjoin _ _) fun _ _ => enter_keeps join
  | .ifElse sig body alternative, hsub, labels, hlabels => by
      rw [walkNode]
      rw [Node.instrs] at hsub
      refine .lift fun b _ => .ite (fun _ => keepInline_keeps _ _ _) fun _ => ?_
      refine .get fun _ _ => .bind (below_keeps _ _) fun rest _ => .bind (below_keeps _ _)
        fun outer _ => .bind (newBlock_keeps _) fun join hjoin => .bind (newBlock_keeps _)
        fun first hfirst => .bind (newBlock_keeps _) fun second hsecond =>
        .bind (close_keeps _ (inward_branch hfirst hsecond)) fun _ _ =>
        .bind (enter_keeps first) fun _ _ => ?_
      refine .bind (walkSeq_keeps body (fun _ h => hsub (List.mem_append_left _ h))
        (inner_cons hlabels hjoin _ _)) fun _ _ => .bind (leaveFor_keeps hjoin _ _) fun _ _ =>
        .bind (enter_keeps second) fun _ _ => ?_
      exact .bind (walkSeq_keeps alternative (fun _ h => hsub (List.mem_append_right _ h))
        (inner_cons hlabels hjoin _ _)) fun _ _ => .bind (leaveFor_keeps hjoin _ _) fun _ _ =>
        enter_keeps join

theorem walkSeq_keeps : (ns : List Node) → Body.instrs ns ⊆ instrs → {labels : List Label} →
    (∀ l ∈ labels, l.Inner) → Keeps (Inner instrs) (walkSeq ctx labels ns) fun _ => True
  | [], _, labels, _ => by
      rw [walkSeq]
      exact .pure trivial
  | n :: ns, hsub, labels, hlabels => by
      rw [walkSeq]
      rw [Body.instrs] at hsub
      have hgo : Keeps (Inner instrs) (do walkNode ctx labels n; walkSeq ctx labels ns)
          fun _ => True :=
        .bind (walkNode_keeps n (fun _ h => hsub (List.mem_append_left _ h)) hlabels) fun _ _ =>
          walkSeq_keeps ns (fun _ h => hsub (List.mem_append_right _ h)) hlabels
      refine .get fun _ _ => .ite (fun _ => ?_) fun _ => hgo
      exact .get fun _ _ => .bind (newBlock_keeps _) fun i _ =>
        .bind (.modify fun _ h => h.congr rfl rfl) fun _ _ => hgo

end

/-- Nothing that the walk over a whole body makes leads to the first block. -/
theorem inner_of_walk {body : List Node} {hosts : HostTable} {results : List ValueType}
    {u : Unit} {s : State}
    (h : (do
        enter (← newBlock [])
        walkSeq ctx [⟨.func, results⟩] body
        if (← get).current.isSome then terminate (.ret results) : Walk Unit) { hosts }
      = .ok (u, s)) : Inner (Body.instrs body) s := by
  have hs₁ : Inner (Body.instrs body) (State.push { hosts } []) := by
    refine ⟨Nat.one_pos, fun i d t hd ht => ?_, nofun⟩
    rcases of_getElem?_push hd with hd | ⟨-, rfl⟩
    · cases hd
    · cases ht
  have hlabels : ∀ l ∈ [(⟨.func, results⟩ : Label)], l.Inner := by
    intro l hl
    rw [List.mem_singleton.mp hl]
    exact nofun
  have hrest : Keeps (Inner (Body.instrs body)) (do
      enter 0
      walkSeq ctx [⟨.func, results⟩] body
      if (← get).current.isSome then terminate (.ret results) : Walk Unit) fun _ => True :=
    .bind (enter_keeps 0) fun _ _ => .bind (walkSeq_keeps body (List.Subset.refl _) hlabels)
      fun _ _ => .get fun _ _ => .ite (fun _ => terminate_keeps (inward_ret _)) fun _ =>
        .pure trivial
  exact (hrest _ _ _ hs₁ h).1

end Inner

/-! ## What a machine is made of -/

/-- The blocks that the drafts are finished to. -/
def Finished (s : State) (bs : List Block) : Prop :=
  ∀ (k : Nat) (b : Block), bs[k]? = some b → ∃ d t, s.drafts[k]? = some d ∧ d.term = some t
    ∧ b = ⟨k, d.entry, d.body, d.stack, t⟩

theorem finished_of_mapM {s : State} {bs : List Block} {k : Draft × Nat → Except Abort Block}
    (hk : ∀ d i, k (d, i) = finish i d) (h : s.drafts.toList.zipIdx.mapM k = .ok bs) :
    Finished s bs := by
  intro i b hb
  obtain ⟨⟨d, j⟩, hd, hfinish⟩ := getElem?_of_forall₂ (forall₂_of_mapM h).flip hb
  rw [List.getElem?_zipIdx, Nat.zero_add] at hd
  obtain ⟨d', hd', heq⟩ := Option.map_eq_some_iff.mp hd
  cases heq
  rw [hk, finish] at hfinish
  rw [Array.getElem?_toList] at hd'
  cases hterm : d.term with
  | none =>
      rw [hterm] at hfinish
      cases hfinish
  | some t =>
      rw [hterm] at hfinish
      cases hfinish
      exact ⟨d, t, hd', hterm, rfl⟩

/-- A machine is what is left of the blocks that the walk has made. -/
theorem split_eq_ok {p : Program} {a : Analysis} {hosts hosts' : HostTable} {f : Function}
    {body : List Node} {m : Machine} (hf : f.body = .ok body)
    (h : Machine.split p a hosts f = .ok (m, hosts')) :
    ∃ u s bs, (do
        enter (← newBlock [])
        walkSeq ⟨p, a, f⟩ [⟨.func, f.type.results⟩] body
        if (← get).current.isSome then terminate (.ret f.type.results) : Walk Unit) { hosts }
      = .ok (u, s) ∧ Finished s bs ∧ m = ⟨f, survivors bs.toArray⟩ ∧ hosts' = s.hosts := by
  unfold Machine.split at h
  rw [hf] at h
  obtain ⟨⟨u, s⟩, hwalk, h⟩ := Program.bind_eq_ok h
  obtain ⟨bs, hbs, h⟩ := Program.bind_eq_ok h
  obtain ⟨kept, hkept, h⟩ := Program.bind_eq_ok h
  rw [prune] at hkept
  split at hkept
  · cases hkept
    cases h
    exact ⟨u, s, bs, hwalk, finished_of_mapM (fun _ _ => rfl) hbs, rfl, rfl⟩
  · cases hkept

theorem Finished.index {s : State} {bs : List Block} (h : Finished s bs) :
    ∀ k (b : Block), bs[k]? = some b → b.index = k := by
  intro k b hb
  obtain ⟨d, t, -, -, rfl⟩ := h k b hb
  rfl

/-! ## The blocks that are kept -/

section Prune

variable {bs : List Block}

theorem successors_renumber (t : Terminator) (number : Nat → Nat) :
    (t.renumber number).successors = t.successors.map number := by
  cases t with
  | switch cases fallback =>
      simp only [Terminator.renumber, Terminator.successors, Terminator.edges, Terminator.next?,
        List.map_append, List.map_map, List.map_cons, List.map_nil, Option.toList_none,
        List.append_nil]
      rfl
  | goto e | branch e e' | call callee args results next | host h args results next
  | ret results | trap code => rfl

/-- The blocks that are kept are those that control can reach, with new numbers. -/
theorem of_getElem?_survivors (hindex : ∀ k (b : Block), bs[k]? = some b → b.index = k) {k : Nat}
    {b : Block} (h : (survivors bs.toArray)[k]? = some b) :
    ∃ i b', bs[i]? = some b' ∧ i ∈ reachable bs.toArray ∧ newNumber bs i = k
      ∧ b = { b' with index := newNumber bs i, term := b'.term.renumber (newNumber bs) } := by
  rw [survivors_eq, List.getElem?_map] at h
  obtain ⟨b', hb', rfl⟩ := Option.map_eq_some_iff.mp h
  obtain ⟨hin, hlive⟩ := List.mem_filter.mp (List.mem_of_getElem? hb')
  obtain ⟨i, hi⟩ := List.mem_iff_getElem?.mp hin
  obtain rfl := hindex i b' hi
  exact ⟨_, b', hi, List.contains_iff_mem.mp hlive, newNumber_live hindex hb', rfl⟩

theorem getElem?_prune (hindex : ∀ k (b : Block), bs[k]? = some b → b.index = k) {i : Nat}
    {b : Block} (hb : bs[i]? = some b) (hi : i ∈ reachable bs.toArray) :
    (survivors bs.toArray)[newNumber bs i]? = some { b with
      index := newNumber bs i, term := b.term.renumber (newNumber bs) } := by
  rw [survivors_eq, List.getElem?_map, getElem?_newNumber hindex hb hi, Option.map_some,
    hindex i b hb]

/-- No other block gets the number of the first. -/
theorem newNumber_ne_zero (hindex : ∀ k (b : Block), bs[k]? = some b → b.index = k) {b : Block}
    (hb : bs[0]? = some b) {j : Nat} (hj : j ≠ 0) : newNumber bs j ≠ 0 := by
  cases bs with
  | nil => cases hb
  | cons c cs =>
      have hc : c.index = 0 := hindex 0 c rfl
      have hlive : (reachable (c :: cs).toArray).contains c.index = true := by
        rw [hc]
        exact List.contains_iff_mem.mpr (reachable_closed (c :: cs)).1
      rw [newNumber, live, List.filter_cons, hlive, if_pos rfl, List.map_cons, hc,
        List.idxOf_cons_ne _ (Ne.symm hj)]
      exact Nat.succ_ne_zero _

theorem getElem?_of_successorsAt {i j : Nat} (h : j ∈ successorsAt bs i) :
    ∃ b, bs[i]? = some b ∧ j ∈ b.term.successors := by
  cases hb : bs[i]? with
  | none =>
      rw [successorsAt, List.getElem?_toArray, hb] at h
      cases h
  | some b =>
      rw [successorsAt_eq hb] at h
      exact ⟨b, rfl, h⟩

end Prune

end Split

/-- Control can go from one block of the machine to another. -/
def Machine.Leads (m : Machine) (i j : Nat) : Prop :=
  ∃ b, m.blocks[i]? = some b ∧ j ∈ b.term.successors

namespace Split

section Prune

variable {bs : List Block}

/-- Control can get from the first block to every block that is kept. -/
theorem reaches_prune (hindex : ∀ k (b : Block), bs[k]? = some b → b.index = k) {f : Function}
    {i : Nat} (hi : i ∈ reachable bs.toArray) :
    Relation.ReflTransGen (Machine.Leads ⟨f, survivors bs.toArray⟩) (newNumber bs 0)
      (newNumber bs i) := by
  obtain ⟨hzero, hclosed⟩ := reachable_closed bs
  have hreaches : CallGraph.Reaches (successorsAt bs) 0 i := by
    rcases CallGraph.reaches_of_mem_closure hi with hnil | ⟨a, ha, hr⟩
    · cases hnil
    · rwa [List.mem_singleton.mp ha] at hr
  clear hi
  suffices h : i ∈ reachable bs.toArray ∧ Relation.ReflTransGen
      (Machine.Leads ⟨f, survivors bs.toArray⟩) (newNumber bs 0) (newNumber bs i) from h.2
  induction hreaches with
  | refl => exact ⟨hzero, .refl⟩
  | @tail a j _ hstep ih =>
      obtain ⟨ha, hpath⟩ := ih
      obtain ⟨b, hb, hj⟩ := getElem?_of_successorsAt hstep
      refine ⟨hclosed a ha hstep, hpath.tail ⟨_, getElem?_prune hindex hb ha, ?_⟩⟩
      rw [successors_renumber]
      exact List.mem_map_of_mem hj

/-- New numbers do not lead to the first block either. -/
theorem Inward.renumber (hindex : ∀ k (b : Block), bs[k]? = some b → b.index = k) {b : Block}
    (hb : bs[0]? = some b) {instrs : List Instr} {t : Terminator} (h : Inward instrs t) :
    Inward instrs (t.renumber (newNumber bs)) := by
  refine ⟨fun hmem => ?_, fun cases fallback heq => ?_⟩
  · rw [successors_renumber] at hmem
    obtain ⟨j, hj, hzero⟩ := List.mem_map.mp hmem
    exact newNumber_ne_zero hindex hb (fun h0 => h.targets (h0 ▸ hj)) hzero
  · cases t with
    | switch cases₀ fallback₀ =>
        cases heq
        rw [List.length_map]
        exact h.cases cases₀ fallback₀ rfl
    | _ => cases heq

end Prune

end Split

/-! ## Straight code -/

/-- The depths of the labels that an instruction branches to. -/
def Instr.branches (i : Instr) : List UInt32 :=
  match i.operation, i.imm with
  | .br, .branch depth => [depth]
  | .brIf, .branch depth => [depth]
  | .brTable, .branchTable depths fallback => fallback :: depths
  | _, _ => []

mutual

/-- No branch in the node leads further out than over `depth` constructs around it. -/
def Node.BranchesWithin (depth : Nat) : Node → Prop
  | .instr i => ∀ d ∈ i.branches, d.toNat < depth
  | .block _ _ body => Body.BranchesWithin (depth + 1) body
  | .ifThen _ body => Body.BranchesWithin (depth + 1) body
  | .ifElse _ body alternative =>
    Body.BranchesWithin (depth + 1) body ∧ Body.BranchesWithin (depth + 1) alternative

/-- No branch in the sequence leads further out than over `depth` constructs around it. -/
def Body.BranchesWithin (depth : Nat) : List Node → Prop
  | [] => True
  | n :: ns => n.BranchesWithin depth ∧ Body.BranchesWithin depth ns

end

namespace Program

variable {p : Program} {f : Function}

theorem TypedInstr.branches_lt {labels : Labels} {i : Instr} {stack : TypeStack}
    {out : Option TypeStack} (h : TypedInstr p f labels i stack out) :
    ∀ d ∈ i.branches, d.toNat < labels.length := by
  have hlt {d : UInt32} {types : List ValueType} (hd : labels[d.toNat]? = some types) :
      d.toNat < labels.length := (List.getElem?_eq_some_iff.mp hd).1
  intro d hd
  unfold Instr.branches at hd
  cases h with
  | br hop himm hdepth =>
      rw [hop, himm] at hd
      exact List.mem_singleton.mp hd ▸ hlt hdepth
  | brIf hop himm hdepth =>
      rw [hop, himm] at hd
      exact List.mem_singleton.mp hd ▸ hlt hdepth
  | brTable hop himm hlast hall =>
      rw [hop, himm] at hd
      rcases List.mem_cons.mp hd with rfl | hd
      · exact hlt hlast
      · exact hlt (hall d hd)
  | constant hv => cases hv with
    | i32 hop | i64 hop | f32 hop | f64 hop | v128 hop =>
        rw [hop] at hd
        cases hd
  | numeric hop | nop hop | unreachable hop | drop hop | select hop | localGet hop | localSet hop
  | localTee hop | globalGet hop | globalSet hop | call hop | callIndirect hop | memorySize hop
  | memoryGrow hop | ret hop =>
      rw [hop] at hd
      cases hd

mutual

/-- Branches of typed code stay inside the labels that it is typed for. -/
theorem TypedNode.branchesWithin : {labels : Labels} → {n : Node} → {stack : TypeStack} →
    {out : Option TypeStack} → TypedNode p f labels n stack out → n.BranchesWithin labels.length
  | _, _, _, _, .instr h => by
      rw [Node.BranchesWithin]
      exact h.branches_lt
  | _, _, _, _, .block _ h => by
      rw [Node.BranchesWithin]
      exact h.branchesWithin
  | _, _, _, _, .ifThen _ _ h => by
      rw [Node.BranchesWithin]
      exact h.branchesWithin
  | _, _, _, _, .ifElse _ h h' => by
      rw [Node.BranchesWithin]
      exact ⟨h.branchesWithin, h'.branchesWithin⟩

theorem TypedSeq.branchesWithin : {labels : Labels} → {ns : List Node} → {stack : TypeStack} →
    {results : List ValueType} → TypedSeq p f labels ns stack results →
    Body.BranchesWithin labels.length ns
  | _, _, _, _, .nil => by
      rw [Body.BranchesWithin]
      trivial
  | _, _, _, _, .cons h hs => by
      rw [Body.BranchesWithin]
      exact ⟨h.branchesWithin, hs.branchesWithin⟩
  | _, _, _, _, .last h => by
      rw [Body.BranchesWithin, Body.BranchesWithin]
      exact ⟨h.branchesWithin, trivial⟩

end

end Program

/-- The instruction neither returns nor asks the host, and if it is a call, it is one that can be
made directly. -/
structure Instr.Straight (p : Program) (a : Analysis) (fn : Nat) (i : Instr) : Prop where
  returns : i.operation ≠ .ret
  host : i.hostKey? p = none
  call : ∀ target, i.operation = .call → i.imm = .call target →
    a.canCallDirect fn target.toNat = true

theorem Instr.IsDirect.straight {p : Program} {a : Analysis} {kept : Nat → Prop} {fn : Nat}
    {i : Instr} (h : i.IsDirect p a kept fn) (hret : i.operation ≠ .ret) : i.Straight p a fn := by
  refine ⟨hret, ?_, fun target hop himm => (h.call target hop himm).2.1⟩
  unfold Instr.hostKey?
  split
  · next hop himm => rw [(h.call _ hop himm).1]; rfl
  · next hop _ => exact absurd hop h.notIndirect
  · next hop => exact absurd hop h.notSize
  · next hop => exact absurd hop h.notGrow
  · rfl

/-! ## Well-formed machines -/

/-- The terminator takes a condition or a selector off the operands. -/
def Terminator.takesOne : Terminator → Bool
  | .branch _ _ | .switch _ _ => true
  | _ => false

/-- The operands of a block but for the condition or selector that its terminator takes. -/
def Block.operands (b : Block) : TypeStack :=
  if b.term.takesOne then b.stack.dropLast else b.stack

theorem Block.operands_of_append {b : Block} {rest : TypeStack} {t : ValueType}
    (hone : b.term.takesOne = true) (hstack : b.stack = rest ++ [t]) : b.operands = rest := by
  rw [operands, if_pos hone, hstack, List.dropLast_concat]

/-- The terminator leaves the machine with operands and comes back with results. -/
inductive Terminator.Yields (args results : List ValueType) (next : Nat) : Terminator → Prop
  | call (callee : Nat) : Yields args results next (.call callee args results next)
  | host (h : HostFunc) : Yields args results next (.host h args results next)

/-- The number of edges is the one that the kind of the terminator asks for; a switch has one for
each label of a table branch, and one for its default. -/
structure Terminator.FansOut (instrs : List Instr) (t : Terminator) : Prop where
  goto : ∀ e, t = .goto e → t.edges.length = 1
  branch : ∀ taken notTaken, t = .branch taken notTaken → t.edges.length = 2
  switch : ∀ cases fallback, t = .switch cases fallback → ∃ i ∈ instrs, ∃ depths last,
    i.operation = .brTable ∧ i.imm = .branchTable depths last
      ∧ t.edges.length = depths.length + 1

/-- What holds of the machine of a checked function. -/
structure Machine.WellFormed (p : Program) (a : Analysis) (m : Machine) : Prop where
  index : ∀ k (b : Block), m.blocks[k]? = some b → b.index = k
  reachable : ∀ k < m.blocks.length, Relation.ReflTransGen m.Leads 0 k
  first : ∃ b, m.blocks[0]? = some b ∧ b.entry = []
  inward : ∀ b ∈ m.blocks, 0 ∉ b.term.successors
  /-- The code of a block leads from the operands on its entry to those of its terminator. -/
  typed : ∀ b ∈ m.blocks, p.TypedSeq m.func [] b.body b.entry b.stack
  selectors : ∀ b ∈ m.blocks, b.term.takesOne = true → b.stack = b.operands ++ [.i32]
  edges : ∀ b ∈ m.blocks, ∀ e ∈ b.term.edges, e.keep + e.carry ≤ b.operands.length
    ∧ ∃ t, m.blocks[e.target]? = some t ∧ t.entry = b.operands.take e.keep
      ++ b.operands.drop (b.operands.length - e.carry)
  yields : ∀ b ∈ m.blocks, ∀ args results next, b.term.Yields args results next →
    ∃ rest t, b.stack = rest ++ args ∧ m.blocks[next]? = some t ∧ t.entry = rest ++ results
  returns : ∀ b ∈ m.blocks, ∀ results, b.term = .ret results → results = m.func.type.results
    ∧ ∃ rest, b.stack = rest ++ results
  fansOut : ∀ b ∈ m.blocks, ∃ body, m.func.body = .ok body
    ∧ b.term.FansOut (Body.instrs body)
  straight : ∀ b ∈ m.blocks, ∀ i ∈ Body.instrs b.body, i.Straight p a m.func.index
  within : ∀ b ∈ m.blocks, Body.BranchesWithin 0 b.body

section Sound

variable {p : Program} {a : Analysis} {kept : Nat → Prop} {hosts : List HostFunc} {m : Machine}

theorem exists_of_entryTypes? {k : Nat} {types : List ValueType}
    (h : m.entryTypes? k = some types) : ∃ t, m.blocks[k]? = some t ∧ t.entry = types :=
  Option.map_eq_some_iff.mp h

/-- What an edge of a block carries over. -/
theorem Edge.Typed.spec {b : Block} {e : Edge} {stack : TypeStack} (h : e.Typed m stack)
    (hstack : b.operands = stack) : e.keep + e.carry ≤ b.operands.length
      ∧ ∃ t, m.blocks[e.target]? = some t ∧ t.entry = b.operands.take e.keep
        ++ b.operands.drop (b.operands.length - e.carry) := by
  subst hstack
  exact ⟨h.room, exists_of_entryTypes? h.target⟩

/-- A sound machine is well formed, if the numbers of its blocks are. -/
theorem Machine.Sound.wellFormed (h : m.Sound p a kept hosts)
    (hreach : ∀ k < m.blocks.length, Relation.ReflTransGen m.Leads 0 k) {body : List Node}
    (hbody : m.func.body = .ok body)
    (hinward : ∀ b ∈ m.blocks, Split.Inward (Body.instrs body) b.term) : m.WellFormed p a where
  index := h.index
  reachable := hreach
  first := exists_of_entryTypes? h.first
  inward b hb := (hinward b hb).targets
  typed b hb := (h.typed b hb).body
  selectors b hb hone := by
    obtain ⟨index, entry, body, stack, term⟩ := b
    have hterm := (h.typed _ hb).term
    cases hterm with
    | branch | switch => exact congrArg (· ++ [_]) (Block.operands_of_append rfl rfl).symm
    | goto | call | host | ret | trap => cases hone
  edges b hb e he := by
    obtain ⟨index, entry, body, stack, term⟩ := b
    have hterm := (h.typed _ hb).term
    cases hterm with
    | goto hedge => exact List.mem_singleton.mp he ▸ hedge.spec rfl
    | branch htaken hnot =>
        rcases List.mem_cons.mp he with rfl | he
        · exact htaken.spec (Block.operands_of_append rfl rfl)
        · exact List.mem_singleton.mp he ▸ hnot.spec (Block.operands_of_append rfl rfl)
    | switch hcases hlast =>
        rcases List.mem_append.mp he with he | he
        · exact (hcases e he).spec (Block.operands_of_append rfl rfl)
        · exact List.mem_singleton.mp he ▸ hlast.spec (Block.operands_of_append rfl rfl)
    | call | host | ret | trap => cases he
  yields b hb args results next hyields := by
    obtain ⟨index, entry, body, stack, term⟩ := b
    have hterm := (h.typed _ hb).term
    cases hyields with
    | call callee =>
        cases hterm with
        | call htakes hnext =>
            obtain ⟨t, ht⟩ := exists_of_entryTypes? hnext
            exact ⟨_, t, rfl, ht⟩
    | host hf =>
        cases hterm with
        | host htakes hnext =>
            obtain ⟨t, ht⟩ := exists_of_entryTypes? hnext
            exact ⟨_, t, rfl, ht⟩
  returns b hb results hret := by
    obtain ⟨index, entry, body, stack, term⟩ := b
    have hterm := (h.typed _ hb).term
    cases hret
    cases hterm with
    | ret => exact ⟨rfl, _, rfl⟩
  fansOut b hb := by
    refine ⟨body, hbody, ?_, ?_, ?_⟩
    · rintro e heq
      rw [heq]
      rfl
    · rintro taken notTaken heq
      rw [heq]
      rfl
    · rintro cases fallback heq
      obtain ⟨i, hi, depths, last, hop, himm, hlen⟩ := (hinward b hb).cases cases fallback heq
      refine ⟨i, hi, depths, last, hop, himm, ?_⟩
      rw [heq, Terminator.edges, List.length_append, List.length_singleton, hlen]
  straight b hb i hi := ((h.typed b hb).direct i hi).straight ((h.typed b hb).stays i hi)
  within b hb := (h.typed b hb).body.branchesWithin

end Sound

/-- A checked function is split, and its machine calls what the function calls. -/
theorem Machine.split_checked {p : Program} {g : CallGraph} {f : Function} {hosts : HostTable}
    (hp : p.Formed) (hg : CallGraph.build p = .ok g) (hf : f ∈ p.funcs)
    (hcheck : p.check f = .ok ()) (hhosts : hosts.Sound p) :
    ∃ body m hosts', f.body = .ok body ∧ Machine.split p g.analyze hosts f = .ok (m, hosts')
      ∧ m.func = f ∧ m.Sound p g.analyze (· ∈ g.callees f.index) hosts'.funcs := by
  obtain ⟨body, hbody, htyped⟩ := Program.typedSeq_of_check_function (hp.body f hf) hcheck
  obtain ⟨hknown, hlocals⟩ := hp.funcKnown f hf
  have hwalk : Split.Walkable ⟨p, g.analyze, f⟩ :=
    ⟨hp, hknown, hlocals, fun fn h => Compile.isImport_of_directSafe hp hg h, hf⟩
  have hkept : Split.CallsKept p (· ∈ g.callees f.index) (Body.instrs body) :=
    fun i hi target hop himm himport =>
      Compile.mem_callees_of_instr hp hg hf hbody hi hop himm himport
  obtain ⟨m, hosts', hsplit, hfunc, hsound, -⟩ :=
    Machine.split_sound hwalk hhosts hbody htyped hkept
  exact ⟨body, m, hosts', hbody, hsplit, hfunc, hsound⟩

open Split in
/-- A checked function is split into a well-formed machine. -/
theorem Machine.split_wellFormed {p : Program} {g : CallGraph} {f : Function} {hosts : HostTable}
    {source : Binary.Module} (hread : Program.ofModule source = .ok p)
    (hg : CallGraph.build p = .ok g) (hf : f ∈ p.funcs) (hcheck : p.check f = .ok ())
    (hhosts : hosts.Sound p) :
    ∃ m hosts', Machine.split p g.analyze hosts f = .ok (m, hosts') ∧ m.func = f
      ∧ m.WellFormed p g.analyze ∧ hosts'.Sound p := by
  have hp := Program.formed_of_ofModule hread
  obtain ⟨body, hbody, htyped⟩ := Program.typedSeq_of_check_function (hp.body f hf) hcheck
  obtain ⟨hknown, hlocals⟩ := hp.funcKnown f hf
  have hwalk : Walkable ⟨p, g.analyze, f⟩ :=
    ⟨hp, hknown, hlocals, fun fn h => Compile.isImport_of_directSafe hp hg h, hf⟩
  have hkept : CallsKept p (fun _ => True) (Body.instrs body) := fun _ _ _ _ _ _ => trivial
  obtain ⟨m, hosts', hsplit, hfunc, hsound, hhosts', -⟩ :=
    Machine.split_sound hwalk hhosts hbody htyped hkept
  refine ⟨m, hosts', hsplit, hfunc, ?_, hhosts'⟩
  obtain ⟨u, s, bs, hrun, hfinished, rfl, -⟩ := split_eq_ok hbody hsplit
  have hindex := hfinished.index
  have hinner := inner_of_walk hrun
  obtain ⟨first, hfirst⟩ : ∃ b, bs[0]? = some b := by
    obtain ⟨b, hb, -⟩ := exists_of_entryTypes? hsound.first
    obtain ⟨i, b', hb', -⟩ := of_getElem?_survivors hindex hb
    have hlt := (List.getElem?_eq_some_iff.mp hb').1
    exact ⟨bs[0], List.getElem?_eq_getElem (by omega)⟩
  refine hsound.wellFormed (fun k hk => ?_) hbody fun b hb => ?_
  · obtain ⟨i, b, hb, hi, rfl, -⟩ :=
      of_getElem?_survivors hindex (List.getElem?_eq_getElem (l := survivors bs.toArray) hk)
    have hreach := reaches_prune (f := f) hindex hi
    rwa [newNumber_zero hindex hfirst (reachable_closed bs).1] at hreach
  · obtain ⟨k, hk⟩ := List.mem_iff_getElem?.mp hb
    obtain ⟨i, b', hb', -, -, rfl⟩ := of_getElem?_survivors hindex hk
    obtain ⟨d, t, hd, ht, rfl⟩ := hfinished i b' hb'
    exact (hinner.terms i d t hd ht).renumber hindex hfirst

/-! A function with a loop that it leaves, or not, by a table branch, depending on what it gives
when it is called again. -/

def wandering : Binary.Module where
  types := [⟨[0x7f], [0x7f]⟩]
  funcs := [0]
  exports := [⟨[0x66], Binary.Export.funcKind, 0⟩]
  code := [⟨[], [0x02, 0x40, 0x03, 0x40, 0x20, 0, 0x10, 0, 0x21, 0, 0x20, 0, 0x0e, 2, 0, 1, 1,
    0x0b, 0x0b, 0x20, 0, 0x0b]⟩]

def wanderingProgram : Program := (Program.ofModule wandering).toOption.getD default

def wanderingGraph : CallGraph := (CallGraph.build wanderingProgram).toOption.getD default

def wanderingFunction : Function := wanderingProgram.funcs.headD default

/-- The function is read and passes the checks. -/
theorem checked_wandering : (Program.ofModule wandering).isOk = true
    ∧ (CallGraph.build wanderingProgram).isOk = true ∧ 0 < wanderingProgram.funcs.length
    ∧ (wanderingProgram.check wanderingFunction).isOk = true := by
  decide +kernel

theorem read_wandering : Program.ofModule wandering = .ok wanderingProgram :=
  eq_ok_getD checked_wandering.1 default

theorem build_wandering : CallGraph.build wanderingProgram = .ok wanderingGraph :=
  eq_ok_getD checked_wandering.2.1 default

theorem mem_wandering : wanderingFunction ∈ wanderingProgram.funcs := by
  have hne : wanderingProgram.funcs ≠ [] := List.length_pos_iff.mp checked_wandering.2.2.1
  rw [wanderingFunction, List.headD_eq_head?_getD, List.head?_eq_some_head hne]
  exact List.head_mem hne

theorem check_wandering : wanderingProgram.check wanderingFunction = .ok () :=
  eq_ok_unit checked_wandering.2.2.2

theorem HostTable.Sound.empty (p : Program) (layout : Layout) : HostTable.Sound p { layout } := by
  refine ⟨fun k h hk => ?_, fun h hh => ?_, fun h hh => ?_, .nil⟩
  · cases hk
  · cases hh
  · cases hh

/-- The theorem at a function with a loop, a table branch and recursion. -/
theorem Machine.split_wellFormed_wandering :
    Program.ofModule wandering = .ok wanderingProgram
      ∧ wanderingProgram.check wanderingFunction = .ok () 
      ∧ HostTable.Sound wanderingProgram { layout := {} }
      ∧ ∃ m hosts', Machine.split wanderingProgram wanderingGraph.analyze { layout := {} }
          wanderingFunction = .ok (m, hosts') ∧ m.func = wanderingFunction
        ∧ m.WellFormed wanderingProgram wanderingGraph.analyze
        ∧ hosts'.Sound wanderingProgram :=
  ⟨read_wandering, check_wandering, .empty _ _, Machine.split_wellFormed read_wandering
    build_wandering mem_wandering check_wandering (.empty _ _)⟩

end WasmShader
