import WasmShader.Proofs.TreeCode

/-!
# The blocks of a checked body

The walk over a checked body never asks for an operand, label or type that is not there, and
when it is done every block has a terminator. Two invariants carry this: the blocks are typed
as far as they are finished (`Drafted`), and a block without a terminator is the one that code
goes to or one of those that the walk has set aside for later (`Waiting`). The blocks to come
back to are taken out of that list when the walk enters them, so that at the end none is left.
With them every step says what code it has put where (`Codes`).
-/

namespace WasmShader.Split

variable {ctx : Context} {kept : Nat → Prop} {ps : List Nat} {s s' : State} {i j : Nat}

/-! ## Blocks set aside -/

/-- A block without a terminator is the current one or among those set aside. -/
def Waiting (ps : List Nat) (s : State) : Prop :=
  ∀ i d, s.drafts[i]? = some d → d.term = none → s.current = some i ∨ i ∈ ps

/-- What holds at every step of the walk. -/
structure Walking (ctx : Context) (kept : Nat → Prop) (ps : List Nat) (s : State) : Prop
    extends Drafted ctx kept s where
  waiting : Waiting ps s

theorem newBlock_eq (s : State) (entry : List ValueType) :
    newBlock entry s = .ok (s.drafts.size, s.push entry) := rfl

/-- A block is added and set aside. -/
theorem Walking.push (h : Walking ctx kept ps s) {entry : List ValueType}
    (hentry : AllKnown entry) : Walking ctx kept (s.drafts.size :: ps) (s.push entry) := by
  refine ⟨h.toDrafted.push hentry, fun i d hd hterm => ?_⟩
  rcases of_getElem?_push hd with hd | ⟨rfl, -⟩
  · exact (h.waiting i d hd hterm).imp_right (List.mem_cons_of_mem _)
  · exact .inr List.mem_cons_self

/-- The state where the current block has got its terminator. -/
def State.left (s : State) (i : Nat) (term : Terminator) : State :=
  { s.closed i term with current := none }

theorem terminate_eq (h : s.current = some i) (term : Terminator) :
    terminate term s = .ok ((), s.left i term) := by
  change (editCurrent _ s >>= _) = _
  rw [editCurrent_eq h]
  rfl

theorem close_eq (h : s.current = some i) (term : Terminator) :
    close s.stack term s = .ok ((), s.closed i term) :=
  editCurrent_eq h _

theorem getElem?_closed_of_ne (hne : i ≠ j) (term : Terminator) :
    (s.closed i term).drafts[j]? = s.drafts[j]? := by
  rw [State.closed, getElem?_edit, if_neg hne]

theorem Waiting.left (h : Waiting ps s) (hcurrent : s.current = some i) (term : Terminator) :
    Waiting ps (s.left i term) := by
  intro j d hd hterm
  change (s.closed i term).drafts[j]? = some d at hd
  by_cases hne : i = j
  · subst hne
    rw [State.closed, getElem?_edit, if_pos rfl] at hd
    obtain ⟨d₀, -, rfl⟩ := Option.map_eq_some_iff.mp hd
    cases hterm
  · rw [getElem?_closed_of_ne hne] at hd
    rcases h j d hd hterm with hcur | hmem
    · rw [hcurrent] at hcur
      exact absurd (Option.some.inj hcur) hne
    · exact .inr hmem

/-- The current block is left for good. -/
theorem Walking.left (hctx : Walkable ctx) (h : Walking ctx kept ps s) (ho : Open ctx kept s i)
    {term : Terminator} (hterm : term.Typed ctx.program (s.machine ctx.func) s.stack)
    (hleads : Leads ctx kept s.hosts.funcs term) : Walking ctx kept ps (s.left i term) :=
  ⟨(h.toDrafted.closed hctx ho hterm hleads).congr rfl rfl rfl, h.waiting.left ho.current term⟩

theorem Extends.left (h : Open ctx kept s i) (term : Terminator) : Extends s (s.left i term) :=
  (Extends.closed h term).leave _

/-- The walk goes on in a block that was set aside. -/
theorem Walking.enter (h : Walking ctx kept (j :: ps) s) (hcurrent : s.current = none)
    (stack : TypeStack) : Walking ctx kept ps { s with current := some j, stack } := by
  refine ⟨h.toDrafted.congr rfl rfl rfl, fun i d hd hterm => ?_⟩
  rcases h.waiting i d hd hterm with hcur | hmem
  · rw [hcurrent] at hcur
    cases hcur
  · rcases List.mem_cons.mp hmem with rfl | hmem
    · exact .inl rfl
    · exact .inr hmem

/-! ## Where the walk gets -/

/-- The walk has got behind code, with the operands it leaves above the outer ones; code goes
to a block, or control does not get here. -/
structure Reached (ctx : Context) (kept : Nat → Prop) (s : State) (outer out : TypeStack) :
    Prop where
  stack : s.stack = outer ++ out
  known : AllKnown s.stack
  current : s.current = none ∨ ∃ i, Open ctx kept s i

/-- Behind a node, or behind one that control never passes. -/
def After (ctx : Context) (kept : Nat → Prop) (s : State) (outer : TypeStack) :
    Option TypeStack → Prop
  | some out => Reached ctx kept s outer out
  | none => s.current = none ∧ outer <+: s.stack

theorem reached_of_open (hctx : Walkable ctx) (hs : Drafted ctx kept s) (ho : Open ctx kept s i)
    {outer out : TypeStack} (hstack : s.stack = outer ++ out) : Reached ctx kept s outer out :=
  ⟨hstack, ho.known hctx hs, .inr ⟨i, ho⟩⟩

/-- What a step of the walk leads to. -/
structure Step (ctx : Context) (kept : Nat → Prop) (ps : List Nat) (s s' : State) : Prop where
  walking : Walking ctx kept ps s'
  ext : Extends s s'

theorem Step.trans {s'' : State} (h : Extends s s') (h' : Step ctx kept ps s' s'') :
    Step ctx kept ps s s'' := ⟨h'.walking, h.trans h'.ext⟩

/-- The state where the current block has got its terminator and the walk goes on in
another. -/
def State.entered (s : State) (i : Nat) (term : Terminator) (j : Nat) (entry : TypeStack) : State :=
  { s.closed i term with current := some j, stack := entry }

/-- The current block ends, and the walk goes on in a block that was added since. -/
theorem entered_spec (hctx : Walkable ctx) {s₀ : State} {entry : List ValueType}
    {term : Terminator} (hs : Step ctx kept (j :: ps) s₀ s) (ho : Open ctx kept s i)
    (hj : s.drafts[j]? = some { entry }) (hnew : s₀.drafts.size ≤ j) (hne : i ≠ j)
    (hterm : term.Typed ctx.program (s.machine ctx.func) s.stack)
    (hleads : Leads ctx kept s.hosts.funcs term) :
    Step ctx kept ps s₀ (s.entered i term j entry)
      ∧ Open ctx kept (s.entered i term j entry) j
      ∧ Codes s (s.entered i term j entry) fun blocks t o =>
        t = ⟨[], term⟩ ∧ ∃ behind, blocks j = some behind ∧ o = some behind := by
  have hdraft : (s.closed i term).drafts[j]? = some { entry } := by
    rw [getElem?_closed_of_ne hne, hj]
  refine ⟨⟨(hs.walking.left hctx ho hterm hleads).enter rfl entry,
    (hs.ext.trans (.closed ho term)).enter hnew entry⟩, .enter hdraft, fun z hz t ht => ?_⟩
  rw [ho.rest?_closed (hz.of_drafts rfl)] at ht
  obtain ⟨behind, hbehind⟩ := exists_block? (s := s.entered i term j entry) hz hdraft
  refine ⟨(Option.some.inj ht).symm, behind, hbehind, ?_⟩
  rw [rest?_of_empty (s := s.entered i term j entry) rfl hdraft, hbehind]

theorem close_enter {entry : List ValueType} (ho : s.current = some i)
    (hj : s.drafts[j]? = some { entry }) (hne : i ≠ j) (term : Terminator) :
    (do close s.stack term; enter j : Walk Unit) s = .ok ((), s.entered i term j entry) := by
  have hdraft : (s.closed i term).drafts[j]? = some { entry } := by
    rw [getElem?_closed_of_ne hne, hj]
  change (close s.stack term s >>= _) = _
  rw [close_eq ho]
  exact enter_eq hdraft

theorem closeEnter_ends {β : Type} {entry : List ValueType} (ho : s.current = some i)
    (hj : s.drafts[j]? = some { entry }) (hne : i ≠ j) {term : Terminator} {next : Walk β}
    {R : β → State → Prop} (h : Ends next (s.entered i term j entry) R) :
    Ends (do close s.stack term; enter j; next) s R :=
  .step (close_eq ho term) (.step (enter_eq ((getElem?_closed_of_ne hne term).trans hj)) h)

theorem terminateEnter_ends {β : Type} {entry : List ValueType} (ho : s.current = some i)
    (hj : s.drafts[j]? = some { entry }) (hne : i ≠ j) {term : Terminator} {next : Walk β}
    {R : β → State → Prop} (h : Ends next (s.entered i term j entry) R) :
    Ends (do terminate term; enter j; next) s R :=
  .step (terminate_eq ho term) (.step
    (enter_eq (s := s.left i term) ((getElem?_closed_of_ne hne term).trans hj)) h)

/-- A terminator after which control stays in the machine. -/
theorem leads_of_next? {hosts : List HostFunc} {t : Terminator} (h : t.next? = none) :
    Leads ctx kept hosts t := by
  refine ⟨?_, ?_⟩
  · rintro _ _ _ _ rfl; cases h
  · rintro _ _ _ _ rfl; cases h

/-! ## Labels -/

/-- Where a branch to the label leads is a block with the operands that it carries. -/
structure LabelFits (ctx : Context) (s : State) (outer : TypeStack) (l : Label)
    (types : List ValueType) : Prop where
  carries : l.types = types
  func : l.target = .func → types = ctx.func.type.results
  block : ∀ index height, l.target = .block index height → height ≤ outer.length
    ∧ (s.machine ctx.func).entryTypes? index = some (outer.take height ++ types)

theorem LabelFits.mono {outer : TypeStack} {l : Label} {types : List ValueType}
    (h : LabelFits ctx s outer l types) (hext : Extends s s') (inner : TypeStack) :
    LabelFits ctx s' (outer ++ inner) l types := by
  refine ⟨h.carries, h.func, fun index height ht => ?_⟩
  obtain ⟨hle, hentry⟩ := h.block index height ht
  refine ⟨by rw [List.length_append]; omega, ?_⟩
  rw [List.take_append_of_le_length hle]
  exact (hext.machine ctx.func).entry _ _ hentry

/-- The labels around the code, innermost first. -/
abbrev LabelsFit (ctx : Context) (s : State) (outer : TypeStack) (labels : List Label)
    (types : Program.Labels) : Prop :=
  List.Forall₂ (LabelFits ctx s outer) labels types

theorem labelsFit_mono {outer : TypeStack} {labels : List Label} {types : Program.Labels}
    (h : LabelsFit ctx s outer labels types) (hext : Extends s s') (inner : TypeStack) :
    LabelsFit ctx s' (outer ++ inner) labels types :=
  h.imp fun _ _ hl => hl.mono hext inner

theorem labelAt_ends {outer : TypeStack} {labels : List Label} {ltypes : Program.Labels}
    (h : LabelsFit ctx s outer labels ltypes) {depth : UInt32} {types : List ValueType}
    (ht : ltypes[depth.toNat]? = some types) :
    Ends (labelAt labels depth) s fun l s' =>
      s' = s ∧ labels[depth.toNat]? = some l ∧ LabelFits ctx s outer l types := by
  obtain ⟨l, hl, hfits⟩ := getElem?_of_forall₂ h.flip ht
  refine ⟨l, s, ?_, rfl, hl, hfits⟩
  rw [labelAt, hl]
  rfl

/-- The walk has set blocks aside, and is where it was. -/
structure Aside (s s' : State) : Prop where
  ext : Extends s s'
  current : s'.current = s.current
  stack : s'.stack = s.stack
  drafts : ∀ (i : Nat) d, s.drafts[i]? = some d → s'.drafts[i]? = some d

theorem Aside.refl (s : State) : Aside s s := ⟨.refl s, rfl, rfl, fun _ _ h => h⟩

theorem Aside.trans {s'' : State} (h : Aside s s') (h' : Aside s' s'') : Aside s s'' :=
  ⟨h.ext.trans h'.ext, h'.current.trans h.current, h'.stack.trans h.stack,
    fun i d hd => h'.drafts i d (h.drafts i d hd)⟩

theorem Aside.push (s : State) (entry : List ValueType) : Aside s (s.push entry) :=
  ⟨.push s entry, rfl, rfl, fun i d hd => by
    rw [getElem?_push_of_lt (lt_size_of_getElem? hd)]; exact hd⟩

theorem Open.aside (h : Open ctx kept s i) (ha : Aside s s') : Open ctx kept s' i :=
  h.of_draft ha.current ha.stack (ha.drafts i)

theorem Open.rest?_aside {z : State} (h : Open ctx kept s i) (ha : Aside s s') :
    s'.rest? z = s.rest? z := h.rest?_congr ha.current ha.drafts

/-- The block that returns is there, and takes the results. -/
theorem returnBlock_ends (hctx : Walkable ctx) (h : Walking ctx kept ps s) :
    Ends (returnBlock ctx.func.type.results) s fun k s' => Walking ctx kept ps s' ∧ Aside s s'
      ∧ s'.drafts[k]? = some (returning ctx.func.type.results) := by
  cases hret : s.returnBlock with
  | some k =>
      refine ⟨k, s, ?_, h, .refl s, h.returns k hret⟩
      obtain ⟨drafts, current, stack, returnBlock, hosts⟩ := s
      cases hret
      rfl
  | none =>
      let results := ctx.func.type.results
      let change (d : Draft) : Draft := { d with stack := results, term := some (.ret results) }
      let s₂ : State :=
        { (s.push results).edit s.drafts.size change with returnBlock := some s.drafts.size }
      have hrun : returnBlock results s = .ok (s.drafts.size, s₂) := by
        obtain ⟨drafts, current, stack, returnBlock, hosts⟩ := s
        cases hret
        rfl
      have hnew := getElem?_push_self s results
      have hreturn : s₂.drafts[s.drafts.size]? = some (returning results) := by
        change ((s.push results).edit s.drafts.size change).drafts[s.drafts.size]? = _
        rw [getElem?_edit, if_pos rfl, hnew]
        rfl
      have hold (k : Nat) (d : Draft) (hd : s.drafts[k]? = some d) : s₂.drafts[k]? = some d := by
        have hlt := lt_size_of_getElem? hd
        change ((s.push results).edit s.drafts.size change).drafts[k]? = some d
        rw [getElem?_edit, if_neg (by omega), getElem?_push_of_lt hlt, hd]
      have htyped : Block.Typed ctx.program ctx.analysis kept ((s.push results).machine ctx.func)
          ⟨s.drafts.size, results, [], results, .ret results⟩ := by
        have hret : Terminator.Typed ctx.program ((s.push results).machine ctx.func)
            ([] ++ results) (.ret results) := .ret
        refine ⟨.nil, fun i hi => ?_, fun i hi => ?_, hctx.func.results, hret⟩
        · rw [Body.instrs] at hi; cases hi
        · rw [Body.instrs] at hi; cases hi
      have hdrafted : Drafted ctx kept ((s.push results).edit s.drafts.size change) := by
        refine (h.toDrafted.push hctx.func.results).edit hnew rfl rfl ?_
        rintro t ⟨⟩
        exact ⟨htyped, leads_of_next? rfl⟩
      refine ⟨_, s₂, hrun, ⟨⟨hdrafted.typed, hdrafted.leads, hdrafted.known, ?_, hdrafted.hosts⟩,
        fun k d hd hterm => ?_⟩, ⟨⟨⟨List.prefix_rfl, rfl⟩, fun k d hd => ?_, fun _ hk => .inl hk⟩,
        rfl, rfl, hold⟩, hreturn⟩
      · rintro k ⟨⟩
        exact hreturn
      · change ((s.push results).edit s.drafts.size change).drafts[k]? = some d at hd
        rw [getElem?_edit] at hd
        split at hd
        · obtain ⟨d₀, -, rfl⟩ := Option.map_eq_some_iff.mp hd
          cases hterm
        · next hne =>
          rcases of_getElem?_push hd with hd | ⟨rfl, -⟩
          · exact h.waiting k d hd hterm
          · exact absurd rfl hne
      · exact ⟨d, hold k d hd, rfl, List.prefix_rfl, fun _ => rfl⟩

/-! ## Branches -/

theorem top_append (rest types : TypeStack) : TypeStack.top (rest ++ types) types.length = types := by
  rw [TypeStack.top, List.length_append, Nat.add_sub_cancel, List.drop_left]

/-- The transfer that a branch makes fits the operands in front of it. -/
theorem edgeTo_ends (hctx : Walkable ctx) (h : Walking ctx kept ps s) {outer : TypeStack}
    {l : Label} {types : List ValueType} (hl : LabelFits ctx s outer l types) :
    Ends (edgeTo ctx l) s fun e s' => Walking ctx kept ps s' ∧ Aside s s'
      ∧ (∀ rest : TypeStack, e.Typed (s'.machine ctx.func) (outer ++ (rest ++ types)))
      ∧ ∀ z, Later s' z → EdgeTo ctx.func z.block? l e := by
  unfold edgeTo
  cases htarget : l.target with
  | func =>
      refine .bind (returnBlock_ends hctx h) ?_
      rintro k s' ⟨hw, ha, hreturn⟩
      have hentry : (s'.machine ctx.func).entryTypes? k = some ctx.func.type.results := by
        rw [entryTypes?_machine, hreturn]; rfl
      refine .pure ⟨hw, ha, fun rest => ⟨?_, ?_⟩, fun z hz => ?_⟩
      · rw [hl.carries, List.length_append, List.length_append]; dsimp only; omega
      · rw [Edge.types, hl.carries, ← List.append_assoc, top_append, List.take_zero,
          List.nil_append, hentry, hl.func htarget]
      · exact .func htarget (hl.carries.trans (hl.func htarget)) (block?_of_term hz hreturn rfl)
  | block index height =>
      obtain ⟨hle, hentry⟩ := hl.block index height htarget
      refine .pure ⟨h, .refl s, fun rest => ⟨?_, ?_⟩, fun z hz => .block htarget⟩
      · rw [hl.carries, List.length_append, List.length_append]; dsimp only; omega
      · rw [Edge.types, hl.carries, hentry, List.take_append_of_le_length hle,
          ← List.append_assoc, top_append]

/-- The transfer to the label at a depth. -/
theorem edgeAt_ends (hctx : Walkable ctx) (h : Walking ctx kept ps s) {outer : TypeStack}
    {labels : List Label} {ltypes : Program.Labels} (hl : LabelsFit ctx s outer labels ltypes)
    {types : List ValueType} {depth : UInt32} (hdepth : ltypes[depth.toNat]? = some types) :
    Ends (do edgeTo ctx (← labelAt labels depth)) s fun e s' => Walking ctx kept ps s' ∧ Aside s s'
      ∧ (∀ rest : TypeStack, e.Typed (s'.machine ctx.func) (outer ++ (rest ++ types)))
      ∧ ∀ z, Later s' z → BranchTo ctx.func z.block? labels types depth e := by
  refine .bind (labelAt_ends hl hdepth) ?_
  rintro l _ ⟨rfl, hget, hfits⟩
  refine (edgeTo_ends hctx h hfits).mono ?_
  rintro e s' ⟨hw, ha, he, hto⟩
  exact ⟨hw, ha, he, fun z hz => ⟨l, hget, hfits.carries, hto z hz⟩⟩

theorem labelsFit_ext {outer : TypeStack} {labels : List Label} {ltypes : Program.Labels}
    (h : LabelsFit ctx s outer labels ltypes) (hext : Extends s s') :
    LabelsFit ctx s' outer labels ltypes := by
  have hmono := labelsFit_mono h hext []
  rwa [List.append_nil] at hmono

/-- The transfers of a table branch. -/
theorem edgesAt_ends (hctx : Walkable ctx) (h : Walking ctx kept ps s) {outer : TypeStack}
    {labels : List Label} {ltypes : Program.Labels} (hl : LabelsFit ctx s outer labels ltypes)
    {types : List ValueType} {depths : List UInt32}
    (hdepths : ∀ d ∈ depths, ltypes[d.toNat]? = some types) :
    Ends (depths.mapM fun d => do edgeTo ctx (← labelAt labels d)) s fun es s' =>
      Walking ctx kept ps s' ∧ Aside s s'
      ∧ (∀ e ∈ es, ∀ rest : TypeStack, e.Typed (s'.machine ctx.func) (outer ++ (rest ++ types)))
      ∧ ∀ z, Later s' z → List.Forall₂ (BranchTo ctx.func z.block? labels types) depths es := by
  induction depths generalizing s with
  | nil => exact .pure ⟨h, .refl s, nofun, fun _ _ => .nil⟩
  | cons d ds ih =>
      rw [List.mapM_cons]
      refine .bind (edgeAt_ends hctx h hl (hdepths d List.mem_cons_self)) ?_
      rintro e s₁ ⟨hw, ha, he, hto⟩
      refine .bind (ih hw (labelsFit_ext hl ha.ext) fun d hd => hdepths d (.tail _ hd)) ?_
      rintro es s₂ ⟨hw₂, ha₂, hes, htos⟩
      refine .pure ⟨hw₂, ha.trans ha₂, fun e' he' rest => ?_, fun z hz => ?_⟩
      · rcases List.mem_cons.mp he' with rfl | he'
        · exact (he rest).mono (ha₂.ext.machine ctx.func)
        · exact hes e' he' rest
      · exact .cons (hto z (ha₂.ext.later.trans hz)) (htos z hz)

/-! ## Steps of the walk -/

/-- What walking a node leads to. -/
structure Walked (ctx : Context) (kept : Nat → Prop) (ps : List Nat) (s s' : State)
    (labels : List Label) (outer : TypeStack) (n : Node) (types : TypeStack)
    (out : Option TypeStack) : Prop extends Step ctx kept ps s s' where
  after : After ctx kept s' outer out
  codes : Codes s s' fun blocks =>
    NodeCode ctx.program ctx.func blocks labels outer n types (out.getD [])

/-- The walk may first have done something that puts nothing into the current block. -/
theorem Walked.of_rest {s₁ : State} {labels : List Label} {outer types : TypeStack} {n : Node}
    {out : Option TypeStack} (h : Walked ctx kept ps s₁ s' labels outer n types out)
    (hext : Extends s s₁) (hrest : ∀ z, s₁.rest? z = s.rest? z) :
    Walked ctx kept ps s s' labels outer n types out :=
  ⟨.trans hext h.toStep, h.after, fun z hz t ht => h.codes z hz t ((hrest z).trans ht)⟩

theorem Walked.aside {s₁ : State} {labels : List Label} {outer types : TypeStack} {n : Node}
    {out : Option TypeStack} (h : Walked ctx kept ps s₁ s' labels outer n types out)
    (ho : Open ctx kept s i) (ha : Aside s s₁) : Walked ctx kept ps s s' labels outer n types out :=
  h.of_rest ha.ext fun _ => ho.rest?_aside ha

/-- The current block ends, and no code follows on. -/
theorem terminate_ends (hctx : Walkable ctx) (hw : Walking ctx kept ps s)
    (ho : Open ctx kept s i) {outer : TypeStack} (houter : outer <+: s.stack) {term : Terminator}
    (hterm : term.Typed ctx.program (s.machine ctx.func) s.stack)
    (hleads : Leads ctx kept s.hosts.funcs term) :
    Ends (terminate term) s fun _ s' => Step ctx kept ps s s' ∧ After ctx kept s' outer none
      ∧ Codes s s' fun _ t o => t = ⟨[], term⟩ ∧ o = none := by
  refine ⟨(), _, terminate_eq ho.current term, ⟨hw.left hctx ho hterm hleads, .left ho term⟩,
    ⟨rfl, houter⟩, fun z hz t ht => ?_⟩
  rw [ho.rest?_closed (hz.of_drafts rfl)] at ht
  exact ⟨(Option.some.inj ht).symm, rest?_of_none rfl⟩

/-- A node that the current block ends with. -/
theorem terminateWith_ends (hctx : Walkable ctx) (hw : Walking ctx kept ps s)
    (ho : Open ctx kept s i) {outer types : TypeStack} (hstack : s.stack = outer ++ types)
    {term : Terminator} (hterm : term.Typed ctx.program (s.machine ctx.func) s.stack)
    (hnext : term.next? = none) {labels : List Label} {n : Node}
    (hcode : ∀ z, Later s z →
      NodeCode ctx.program ctx.func z.block? labels outer n types [] ⟨[], term⟩ none) :
    Ends (terminate term) s fun _ s' => Walked ctx kept ps s s' labels outer n types none := by
  refine (terminate_ends hctx hw ho (hstack ▸ List.prefix_append outer types) hterm
    (leads_of_next? hnext)).mono ?_
  rintro _ s' ⟨hstep, hafter, hcodes⟩
  refine ⟨hstep, hafter, fun z hz t ht => ?_⟩
  obtain ⟨rfl, hnone⟩ := hcodes z hz t ht
  rw [hnone]
  exact hcode z (hstep.ext.later.trans hz)

/-- A node that stays in the current block. -/
theorem append_ends (hw : Walking ctx kept ps s) (ho : Open ctx kept s i) {n : Node}
    {out : TypeStack} (hn : ctx.program.TypedNode ctx.func [] n s.stack (some out))
    (hin : InBlock ctx kept n.instrs) :
    Step ctx kept ps s (s.appended i n out) ∧ Open ctx kept (s.appended i n out) i := by
  obtain ⟨hdrafted, hext, hopen⟩ := appended_spec hw.toDrafted ho hn hin
  refine ⟨⟨⟨hdrafted, fun k d hd hterm => ?_⟩, hext⟩, hopen⟩
  change (s.edit i _).drafts[k]? = some d at hd
  rw [getElem?_edit] at hd
  split at hd
  · obtain ⟨d₀, hd₀, rfl⟩ := Option.map_eq_some_iff.mp hd
    exact hw.waiting k d₀ hd₀ hterm
  · exact hw.waiting k d hd hterm

theorem Open.codes_appended (ho : Open ctx kept s i) {n : Node} {types out stack : TypeStack}
    (hn : ctx.program.TypedNode ctx.func [] n types (some out)) (hin : InBlock ctx kept n.instrs)
    (labels : List Label) (outer : TypeStack) :
    Codes s (s.appended i n stack) fun blocks =>
      NodeCode ctx.program ctx.func blocks labels outer n types out := by
  intro z hz t ht
  obtain ⟨code, heq, hrest⟩ := ho.rest?_appended hz ht
  rw [heq, hrest]
  exact .stays hn fun j hj => (hin j hj).2

theorem append_eq (h : s.current = some i) (n : Node) :
    append n s = .ok ((), s.edit i fun d => { d with body := d.body ++ [n] }) :=
  editCurrent_eq h _

theorem below_ends {rest args : TypeStack} {stack : TypeStack} {n : Nat} (hn : args.length = n)
    (h : stack = rest ++ args) : below stack n s = .ok (rest, s) := by
  subst h hn
  have hlen : ¬ (rest ++ args).length < args.length := by rw [List.length_append]; omega
  rw [below, if_neg hlen, TypeStack.below, List.length_append, Nat.add_sub_cancel, List.take_left]
  rfl

theorem bottom_ends {front stack : TypeStack} (h : front <+: stack) :
    bottom stack front.length s = .ok (front, s) := by
  rw [bottom, if_neg (Nat.not_lt.mpr h.length_le), ← List.prefix_iff_eq_take.mp h]
  rfl

/-- An instruction that stays inside the block. -/
theorem plain_ends (hctx : Walkable ctx) (hw : Walking ctx kept ps s) (ho : Open ctx kept s j)
    {ltypes : Program.Labels} {i : Instr} {outer types out : TypeStack}
    (hstack : s.stack = outer ++ types)
    (hi : ctx.program.TypedInstr ctx.func ltypes i types (some out)) (hne : i.operation ≠ .brIf)
    (hin : InBlock ctx kept [i]) (labels : List Label) :
    Ends (plain ctx i) s fun _ s' =>
      Walked ctx kept ps s s' labels outer (.instr i) types (some out) := by
  obtain ⟨e, rest, he, htypes, hout⟩ := hi.effect hne outer
  rw [← hstack] at he
  have happly : s.stack.apply ctx.func.name e = .ok (outer ++ out) := by
    rw [hstack, htypes, hout, ← List.append_assoc, Program.apply_append, List.append_assoc]
  have hnode : ctx.program.TypedNode ctx.func [] (.instr i) s.stack (some (outer ++ out)) := by
    rw [hstack]
    exact .instr (hi.frame hne outer [])
  have hin' : InBlock ctx kept (Node.instr i).instrs := by
    rw [Node.instrs]
    exact hin
  obtain ⟨hstep, hopen⟩ := append_ends hw ho hnode hin'
  have hafter : Reached ctx kept (s.appended j (.instr i) (outer ++ out)) outer out :=
    reached_of_open hctx hstep.walking.toDrafted hopen rfl
  refine .get (.lift he (.lift (congrArg liftFailure happly) (.modify ?_)))
  refine ⟨(), _, append_eq (s := { s with stack := outer ++ out }) ho.current _, hstep, hafter, ?_⟩
  exact ho.codes_appended (.instr (hi.frame hne [] [])) hin' labels outer

/-- The terminator that transfers control fits operands that hold the arguments. -/
theorem typed_yield {p : Program} {m : Machine} {callee : Callee} {sig : Signature}
    (h : callee.Takes p sig) {rest : TypeStack} {next : Nat}
    (hnext : m.entryTypes? next = some (rest ++ sig.results)) :
    (callee.yield sig next).Typed p m (rest ++ sig.params) := by
  cases callee with
  | func fn => exact .call h hnext
  | host func => exact .host h hnext

/-- A call or question: the walk goes on behind it, with the results. -/
theorem yieldWith_ends (hctx : Walkable ctx) (hw : Walking ctx kept ps s) (ho : Open ctx kept s j)
    {callee : Callee} {sig : Signature} (htakes : callee.Takes ctx.program sig) {i : Instr}
    (hi : i.Requests ctx.program callee.request sig) {outer rest : TypeStack}
    (hstack : s.stack = outer ++ (rest ++ sig.params))
    {term : List ValueType → List ValueType → Nat → Terminator}
    (hterm : ∀ next, term sig.params sig.results next = callee.yield sig next)
    (hleads : ∀ next, Leads ctx kept s.hosts.funcs (callee.yield sig next)) (labels : List Label) :
    Ends (yieldWith sig.params sig.results term) s fun _ s' =>
      Walked ctx kept ps s s' labels outer (.instr i) (rest ++ sig.params)
        (some (rest ++ sig.results)) := by
  rw [← List.append_assoc] at hstack
  have hknown := ho.known hctx hw.toDrafted
  have hentry : AllKnown (outer ++ rest ++ sig.results) := by
    rw [hstack] at hknown
    exact hknown.of_append.1.append htakes.known.results
  have hw₁ := hw.push hentry
  have ho₁ : Open ctx kept (s.push (outer ++ rest ++ sig.results)) j := ho.aside (.push s _)
  have hnew := getElem?_push_self s (outer ++ rest ++ sig.results)
  have hnext : ((s.push (outer ++ rest ++ sig.results)).machine ctx.func).entryTypes?
      s.drafts.size = some (outer ++ rest ++ sig.results) := by
    rw [entryTypes?_machine, hnew]; rfl
  have hlt : j < s.drafts.size := by
    obtain ⟨d, hd, -⟩ := ho.draft
    exact lt_size_of_getElem? hd
  refine .get (.step (below_ends rfl hstack) (.step (newBlock_eq s _) ?_))
  have htyped : (callee.yield sig s.drafts.size).Typed ctx.program
      ((s.push (outer ++ rest ++ sig.results)).machine ctx.func) s.stack := by
    rw [hstack]
    exact typed_yield htakes hnext
  obtain ⟨hstep, hopen, hcodes⟩ := entered_spec hctx ⟨hw₁, .push s _⟩ ho₁ hnew (Nat.le_refl _)
    (by omega) htyped (hleads _)
  rw [hterm]
  refine ⟨(), _, close_enter ho₁.current hnew (by omega) _, hstep,
    reached_of_open hctx hstep.walking.toDrafted hopen (List.append_assoc _ _ _),
    fun z hz t ht => ?_⟩
  obtain ⟨rfl, behind, hbehind, hrest⟩ := hcodes z hz t ((ho.rest?_aside (.push s _)).trans ht)
  rw [hrest]
  exact .request hi htakes hbehind

/-- The table of host functions has grown. -/
theorem Walking.withHosts (h : Walking ctx kept ps s) {hosts : HostTable}
    (hsound : hosts.Sound ctx.program) (hmore : s.hosts.funcs <+: hosts.funcs) :
    Walking ctx kept ps { s with hosts } :=
  ⟨h.toDrafted.withHosts hsound hmore, h.waiting⟩

/-- A question to the host. -/
theorem request_ends (hctx : Walkable ctx) (hw : Walking ctx kept ps s) (ho : Open ctx kept s j)
    {key : HostKey} {name : String} {sig : Signature} (hsig : sig.Known)
    (hkey : Structured.requestSignature? ctx.program (.host key) = some sig)
    (hasks : ctx.func.Asks ctx.program key) {i : Instr}
    (hi : i.Requests ctx.program (.host key) sig) {h : HostFunc} {hosts : HostTable}
    (hrequest : s.hosts.request key name sig.params sig.results = (h, hosts))
    {outer rest : TypeStack} (hstack : s.stack = outer ++ (rest ++ sig.params))
    (labels : List Label) :
    Ends (yieldWith sig.params sig.results (.host h)) { s with hosts } fun _ s' =>
      Walked ctx kept ps s s' labels outer (.instr i) (rest ++ sig.params)
        (some (rest ++ sig.results)) := by
  have hsame := HostTable.key_request hrequest
  obtain ⟨hsound, ⟨hmore, hlayout⟩, hmem, htakes⟩ :=
    HostTable.request_sound hw.hosts hkey hsig ⟨_, hctx.mem, hasks⟩ name hrequest
  have ho₁ : Open ctx kept { s with hosts } j := ho.of_draft rfl rfl fun _ hd => hd
  have hi' : i.Requests ctx.program (Callee.host h).request sig := by
    rw [Callee.request, hsame]
    exact hi
  refine (yieldWith_ends hctx (hw.withHosts hsound hmore) ho₁ htakes hi' hstack (fun _ => rfl)
    (fun next => ⟨?_, ?_⟩) labels).mono fun _ s' hwalked => hwalked.of_rest
      (.withHosts hmore hlayout) fun _ => ho.rest?_congr rfl fun _ _ hd => hd
  · rintro _ _ _ _ ⟨⟩
    exact ⟨hmem, hsame.symm ▸ hasks⟩
  · rintro _ _ _ _ ⟨⟩

theorem yieldHost_ends (hctx : Walkable ctx) (hw : Walking ctx kept ps s) (ho : Open ctx kept s j)
    {key : HostKey} {name : String} {sig : Signature} (hsig : sig.Known)
    (hkey : Structured.requestSignature? ctx.program (.host key) = some sig)
    (hasks : ctx.func.Asks ctx.program key) {i : Instr}
    (hi : i.Requests ctx.program (.host key) sig) {request : HostTable → HostFunc × HostTable}
    (hrequest : request s.hosts = s.hosts.request key name sig.params sig.results)
    {outer rest : TypeStack} (hstack : s.stack = outer ++ (rest ++ sig.params))
    (labels : List Label) :
    Ends (yieldHost request) s fun _ s' =>
      Walked ctx kept ps s s' labels outer (.instr i) (rest ++ sig.params)
        (some (rest ++ sig.results)) := by
  refine .get ?_
  rw [hrequest]
  obtain ⟨-, -, -, htakes⟩ :=
    HostTable.request_sound hw.hosts hkey hsig ⟨_, hctx.mem, hasks⟩ name rfl
  obtain ⟨-, hparams, hresults⟩ := htakes.host _ rfl
  refine .modify ?_
  dsimp only
  rw [hparams, hresults]
  exact request_ends hctx hw ho hsig hkey hasks hi rfl hstack labels

/-! ## Instructions -/

theorem inBlock_singleton {i : Instr}
    (h : i.IsDirect ctx.program ctx.analysis kept ctx.func.index) (hne : i.operation ≠ .ret) :
    InBlock ctx kept [i] := by
  intro k hk
  rw [List.mem_singleton.mp hk]
  exact ⟨h, hne⟩

/-- An instruction that is neither a call nor for the host nor a return. -/
theorem inBlock_of_operation {i : Instr} {op : Operation} (hop : i.operation = op)
    (h : op ≠ .callIndirect ∧ op ≠ .memorySize ∧ op ≠ .memoryGrow ∧ op ≠ .call ∧ op ≠ .ret) :
    InBlock ctx kept [i] := by
  subst hop
  obtain ⟨h₁, h₂, h₃, h₄, h₅⟩ := h
  exact inBlock_singleton ⟨h₁, h₂, h₃, fun _ hcall => absurd hcall h₄⟩ h₅

/-- The transfer to a block that is entered with all operands. -/
theorem typed_fall {m : Machine} {k : Nat} {stack : TypeStack}
    (h : m.entryTypes? k = some stack) : Edge.Typed m stack ⟨k, stack.length, 0⟩ := by
  refine ⟨Nat.le_refl _, ?_⟩
  rw [h, Edge.types, List.take_length, TypeStack.top, Nat.sub_zero, List.drop_length,
    List.append_nil]

theorem walkCall_ends (hctx : Walkable ctx) (hw : Walking ctx kept ps s) (ho : Open ctx kept s j)
    {i : Instr} {target : UInt32} {sig : Signature} {outer rest : TypeStack}
    (hop : i.operation = .call) (himm : i.imm = .call target)
    (hsig : ctx.program.signature? target.toNat = some sig)
    (hstack : s.stack = outer ++ (rest ++ sig.params))
    (hkept : Admits ctx kept [i]) (labels : List Label) :
    Ends (walkCall ctx i target.toNat) s fun _ s' =>
      Walked ctx kept ps s s' labels outer (.instr i) (rest ++ sig.params)
        (some (rest ++ sig.results)) := by
  have hknown := known_of_signature? hctx.formed hsig
  have hrequests := Instr.Requests.call hop himm hsig
  unfold walkCall
  dsimp only
  rw [hsig, Option.getD_some]
  by_cases himport : ctx.program.isImport target.toNat = true
  · rw [if_pos himport]
    rw [Program.signature?, if_pos himport] at hsig
    obtain ⟨imp, himp, rfl⟩ := Option.map_eq_some_iff.mp hsig
    have hkey : Structured.requestSignature? ctx.program (.host (.importCall imp.index))
        = some imp.type := by
      have := hctx.formed.importIndex target.toNat imp himp
      rw [Structured.requestSignature?, this, himp]
      rfl
    have hasks : ctx.func.Asks ctx.program (.importCall imp.index) := by
      refine hkept.asks i (List.mem_singleton.mpr rfl) _ ?_
      rw [Instr.hostKey?, hop, himm, hctx.formed.importIndex target.toNat imp himp]
      exact if_pos himport
    rw [Structured.callRequest, himp] at hrequests
    rw [himp]
    exact .get (.modify (request_ends hctx hw ho hknown hkey hasks hrequests rfl hstack labels))
  · rw [if_neg himport]
    have hlocal : ctx.program.isImport target.toNat = false := Bool.eq_false_iff.mpr himport
    have hcallee := hkept.calls i (List.mem_singleton.mpr rfl) target hop himm hlocal
    by_cases hdirect : ctx.analysis.canCallDirect ctx.func.index target.toNat = true
    · rw [if_pos hdirect]
      have hi : ctx.program.TypedInstr ctx.func [] i (rest ++ sig.params)
          (some (rest ++ sig.results)) := .call hop himm hsig
      have hne : i.operation ≠ .brIf := by rw [hop]; exact fun h => by cases h
      refine plain_ends hctx hw ho hstack hi hne ?_ labels
      refine inBlock_singleton ⟨?_, ?_, ?_, ?_⟩ ?_
      · rw [hop]; exact fun h => by cases h
      · rw [hop]; exact fun h => by cases h
      · rw [hop]; exact fun h => by cases h
      · intro t _ himm'
        rw [himm] at himm'
        cases himm'
        exact ⟨hlocal, hdirect, hcallee⟩
      · rw [hop]; exact fun h => by cases h
    · rw [if_neg hdirect]
      have htakes : Callee.Takes ctx.program sig (.func target.toNat) := by
        refine ⟨hknown, ?_, ?_⟩
        · rintro _ ⟨⟩
          rw [Program.signature?, if_neg himport] at hsig
          exact hsig
        · rintro _ ⟨⟩
      have hnone : ctx.program.imports[target.toNat]? = none := by
        rw [Program.isImport, decide_eq_true_eq] at himport
        exact List.getElem?_eq_none (by omega)
      rw [Structured.callRequest, hnone] at hrequests
      refine yieldWith_ends hctx hw ho htakes hrequests hstack (fun _ => rfl)
        (fun next => ⟨?_, ?_⟩) labels
      · rintro _ _ _ _ ⟨⟩
      · rintro _ _ _ _ ⟨⟩
        exact ⟨hcallee, Bool.eq_false_iff.mpr hdirect⟩

/-- Behind an instruction that control does not pass. -/
theorem prefix_of_stack {outer types : TypeStack} (h : s.stack = outer ++ types) :
    outer <+: s.stack := h ▸ List.prefix_append outer types

/-- A branch to a block. -/
theorem goto_ends (hctx : Walkable ctx) (hw : Walking ctx kept ps s) (ho : Open ctx kept s j)
    {outer rest : TypeStack} {l : Label} {types : List ValueType}
    (hl : LabelFits ctx s outer l types) (hstack : s.stack = outer ++ (rest ++ types)) {i : Instr}
    {depth : UInt32} (hop : i.operation = .br) (himm : i.imm = .branch depth)
    {labels : List Label} (hget : labels[depth.toNat]? = some l) :
    Ends (do terminate (.goto (← edgeTo ctx l))) s fun _ s' =>
      Walked ctx kept ps s s' labels outer (.instr i) (rest ++ types) none := by
  refine .bind (edgeTo_ends hctx hw hl) ?_
  rintro e s' ⟨hw', ha, he, hto⟩
  have hstack' : s'.stack = outer ++ (rest ++ types) := ha.stack.trans hstack
  refine (terminateWith_ends hctx hw' (ho.aside ha) hstack' ?_ rfl fun z hz =>
    .br hop himm ⟨l, hget, hl.carries, hto z hz⟩).mono
    fun _ s'' h => h.aside ho ha
  rw [hstack']
  exact .goto (he rest)

/-- A return. -/
theorem ret_ends (hctx : Walkable ctx) (hw : Walking ctx kept ps s) (ho : Open ctx kept s j)
    {outer rest : TypeStack} {results : List ValueType} (hresults : results = ctx.func.type.results)
    (hstack : s.stack = outer ++ (rest ++ results)) {labels : List Label} {n : Node}
    (hcode : ∀ blocks, NodeCode ctx.program ctx.func blocks labels outer n (rest ++ results) []
      ⟨[], .ret results⟩ none) :
    Ends (terminate (.ret results)) s fun _ s' =>
      Walked ctx kept ps s s' labels outer n (rest ++ results) none := by
  refine terminateWith_ends hctx hw ho hstack ?_ rfl fun _ _ => hcode _
  rw [hstack, ← List.append_assoc, hresults]
  exact .ret

theorem walkBranchIf_ends (hctx : Walkable ctx) (hw : Walking ctx kept ps s)
    (ho : Open ctx kept s j) {outer rest : TypeStack} {labels : List Label}
    {ltypes : Program.Labels} (hl : LabelsFit ctx s outer labels ltypes) {i : Instr}
    {depth : UInt32} (hop : i.operation = .brIf) (himm : i.imm = .branch depth)
    {types : List ValueType} (ht : ltypes[depth.toNat]? = some types)
    (hstack : s.stack = outer ++ (rest ++ types ++ [.i32])) :
    Ends (do
        let taken ← edgeTo ctx (← labelAt labels depth)
        let stack := (← get).stack
        let rest ← below stack 1
        let next ← newBlock rest
        close stack (.branch taken ⟨next, rest.length, 0⟩)
        enter next) s fun _ s' =>
      Walked ctx kept ps s s' labels outer (.instr i) (rest ++ types ++ [.i32])
        (some (rest ++ types)) := by
  refine .bind (labelAt_ends hl ht) ?_
  rintro l s ⟨rfl, hget, hfits⟩
  refine .bind (edgeTo_ends hctx hw hfits) ?_
  rintro e s₁ ⟨hw₁, ha, he, hto⟩
  have hstack₁ : s₁.stack = outer ++ (rest ++ types) ++ [.i32] := by
    rw [ha.stack, hstack, ← List.append_assoc]
  have ho₁ := ho.aside ha
  have hknown := ho₁.known hctx hw₁.toDrafted
  rw [hstack₁] at hknown
  have hlt : j < s₁.drafts.size := by
    obtain ⟨d, hd, -⟩ := ho₁.draft
    exact lt_size_of_getElem? hd
  refine .get (.step (below_ends rfl hstack₁) (.step (newBlock_eq s₁ _) ?_))
  have ho₂ : Open ctx kept (s₁.push (outer ++ (rest ++ types))) j := ho₁.aside (.push s₁ _)
  have hnext : ((s₁.push (outer ++ (rest ++ types))).machine ctx.func).entryTypes? s₁.drafts.size
      = some (outer ++ (rest ++ types)) := by
    rw [entryTypes?_machine, getElem?_push_self]; rfl
  have hterm : Terminator.Typed ctx.program
      ((s₁.push (outer ++ (rest ++ types))).machine ctx.func) s₁.stack
      (.branch e ⟨s₁.drafts.size, (outer ++ (rest ++ types)).length, 0⟩) := by
    rw [hstack₁]
    exact .branch ((he rest).mono ((Extends.push s₁ _).machine ctx.func)) (typed_fall hnext)
  obtain ⟨hstep, hopen, hcodes⟩ := entered_spec hctx ⟨hw₁.push hknown.of_append.1, .push s₁ _⟩ ho₂
    (getElem?_push_self s₁ _) (Nat.le_refl _) (by omega) hterm (leads_of_next? rfl)
  refine ⟨(), _, close_enter ho₂.current (getElem?_push_self s₁ _) (by omega) _,
    .trans ha.ext hstep, reached_of_open hctx hstep.walking.toDrafted hopen rfl,
    fun z hz t ht => ?_⟩
  have hsame : (s₁.push (outer ++ (rest ++ types))).rest? z = s.rest? z :=
    (ho₁.rest?_aside (.push s₁ _)).trans (ho.rest?_aside ha)
  obtain ⟨rfl, behind, hbehind, hrest⟩ := hcodes z hz t (hsame.trans ht)
  rw [hrest]
  exact .brIf hop himm ⟨l, hget, hfits.carries, hto z (hstep.ext.later.trans hz)⟩ hbehind

theorem walkTable_ends (hctx : Walkable ctx) (hw : Walking ctx kept ps s)
    (ho : Open ctx kept s j) {outer rest : TypeStack} {labels : List Label}
    {ltypes : Program.Labels} (hl : LabelsFit ctx s outer labels ltypes) {i : Instr}
    {depths : List UInt32} {fallback : UInt32} (hop : i.operation = .brTable)
    (himm : i.imm = .branchTable depths fallback) {types : List ValueType}
    (hlast : ltypes[fallback.toNat]? = some types)
    (hall : ∀ depth ∈ depths, ltypes[depth.toNat]? = some types)
    (hstack : s.stack = outer ++ (rest ++ types ++ [.i32])) :
    Ends (walkTable ctx labels depths fallback) s fun _ s' =>
      Walked ctx kept ps s s' labels outer (.instr i) (rest ++ types ++ [.i32]) none := by
  refine .bind (edgesAt_ends hctx hw hl hall) ?_
  rintro es s₁ ⟨hw₁, ha₁, hes, htos⟩
  refine .bind (labelAt_ends (labelsFit_ext hl ha₁.ext) hlast) ?_
  rintro l _ ⟨rfl, hget, hfits⟩
  refine .bind (edgeTo_ends hctx hw₁ hfits) ?_
  rintro e s₂ ⟨hw₂, ha₂, he, hto⟩
  have ha := ha₁.trans ha₂
  have hstack₂ : s₂.stack = outer ++ (rest ++ types) ++ [.i32] := by
    rw [ha.stack, hstack, ← List.append_assoc]
  rw [List.append_assoc] at hstack₂
  refine (terminateWith_ends hctx hw₂ (ho.aside ha) hstack₂ ?_ rfl fun z hz =>
    .brTable hop himm (htos z (ha₂.ext.later.trans hz)) ⟨l, hget, hfits.carries, hto z hz⟩).mono fun _ s' h => h.aside ho ha
  rw [hstack₂, ← List.append_assoc]
  exact .switch (fun e' he' => (hes e' he' rest).mono (ha₂.ext.machine ctx.func)) (he rest)

/-- An instruction is walked as it is typed. -/
theorem walkInstr_ends (hctx : Walkable ctx) (hw : Walking ctx kept ps s)
    (ho : Open ctx kept s j) {outer types : TypeStack} {labels : List Label}
    {ltypes : Program.Labels} (hl : LabelsFit ctx s outer labels ltypes) {i : Instr}
    {out : Option TypeStack} (hi : ctx.program.TypedInstr ctx.func ltypes i types out)
    (hstack : s.stack = outer ++ types) (hkept : Admits ctx kept [i]) :
    Ends (walkInstr ctx labels i) s fun _ s' =>
      Walked ctx kept ps s s' labels outer (.instr i) types out := by
  have hplain {op : Operation} {out : TypeStack}
      (hi : ctx.program.TypedInstr ctx.func ltypes i types (some out)) (hop : i.operation = op)
      (hin : op ≠ .callIndirect ∧ op ≠ .memorySize ∧ op ≠ .memoryGrow ∧ op ≠ .call ∧ op ≠ .ret)
      (hne : op ≠ .brIf) :
      Ends (plain ctx i) s fun _ s' =>
        Walked ctx kept ps s s' labels outer (.instr i) types (some out) :=
    plain_ends hctx hw ho hstack hi (hop ▸ hne) (inBlock_of_operation hop hin) labels
  unfold walkInstr
  cases hi with
  | numeric hop => rw [hop]; exact hplain (.numeric hop) hop (by simp) (by simp)
  | nop hop => rw [hop]; exact hplain (.nop hop) hop (by simp) (by simp)
  | unreachable hop =>
      rw [hop]
      exact terminateWith_ends hctx hw ho hstack .trap rfl fun _ _ => .unreachable hop
  | constant hv =>
      have hi := @Program.TypedInstr.constant ctx.program ctx.func ltypes i _ types hv
      cases hv with
      | i32 hop himm => rw [hop, himm]; exact hplain hi hop (by simp) (by simp)
      | i64 hop himm => rw [hop, himm]; exact hplain hi hop (by simp) (by simp)
      | f32 hop himm => rw [hop, himm]; exact hplain hi hop (by simp) (by simp)
      | f64 hop himm => rw [hop, himm]; exact hplain hi hop (by simp) (by simp)
      | v128 hop himm => rw [hop, himm]; exact hplain hi hop (by simp) (by simp)
  | drop hop => rw [hop]; exact hplain (.drop hop) hop (by simp) (by simp)
  | select hop => rw [hop]; exact hplain (.select hop) hop (by simp) (by simp)
  | localGet hop himm ht =>
      rw [hop, himm]; exact hplain (.localGet hop himm ht) hop (by simp) (by simp)
  | localSet hop himm ht =>
      rw [hop, himm]; exact hplain (.localSet hop himm ht) hop (by simp) (by simp)
  | localTee hop himm ht =>
      rw [hop, himm]; exact hplain (.localTee hop himm ht) hop (by simp) (by simp)
  | globalGet hop himm hg =>
      rw [hop, himm]; exact hplain (.globalGet hop himm hg) hop (by simp) (by simp)
  | globalSet hop himm hg hm =>
      rw [hop, himm]; exact hplain (.globalSet hop himm hg hm) hop (by simp) (by simp)
  | call hop himm hsig =>
      rw [hop, himm]
      exact walkCall_ends hctx hw ho hop himm hsig hstack hkept labels
  | @callIndirect typeIdx table t rest hop himm ht herr =>
      rw [hop, himm]
      dsimp only
      rw [ht]
      have hknown := hctx.formed.typeKnown _ (List.mem_of_getElem? ht)
      have hkey : Structured.requestSignature? ctx.program (.host (.callIndirect typeIdx.toNat))
          = some ⟨t.sig.params ++ [.i32], t.sig.results⟩ := by
        rw [Structured.requestSignature?, ht]
        rfl
      have hsig : Signature.Known ⟨t.sig.params ++ [.i32], t.sig.results⟩ :=
        ⟨hknown.params.append (.singleton rfl), hknown.results⟩
      have hasks := hkept.asks i (List.mem_singleton.mpr rfl) (.callIndirect typeIdx.toNat)
        (by rw [Instr.hostKey?, hop, himm])
      exact yieldHost_ends hctx hw ho hsig hkey hasks (.callIndirect hop himm ht) rfl hstack labels
  | memorySize hop =>
      rw [hop]
      have hkey : Structured.requestSignature? ctx.program (.host (.memory .memorySize))
          = some ⟨[], [.i32]⟩ := rfl
      rw [← List.append_nil types] at hstack
      have hasks := hkept.asks i (List.mem_singleton.mpr rfl) (.memory .memorySize)
        (by rw [Instr.hostKey?, hop])
      refine (yieldHost_ends hctx hw ho (known_single rfl) hkey hasks (.memorySize hop) rfl hstack
        labels).mono fun _ s' h => ?_
      rw [List.append_nil] at h
      exact h
  | memoryGrow hop =>
      rw [hop]
      have hkey : Structured.requestSignature? ctx.program (.host (.memory .memoryGrow))
          = some ⟨[.i32], [.i32]⟩ := rfl
      have hsig : Signature.Known ⟨[.i32], [.i32]⟩ := ⟨.singleton rfl, .singleton rfl⟩
      have hasks := hkept.asks i (List.mem_singleton.mpr rfl) (.memory .memoryGrow)
        (by rw [Instr.hostKey?, hop])
      exact yieldHost_ends hctx hw ho hsig hkey hasks (.memoryGrow hop) rfl hstack labels
  | br hop himm ht =>
      rw [hop, himm]
      refine .bind (labelAt_ends hl ht) ?_
      rintro l _ ⟨rfl, hget, hfits⟩
      cases htarget : l.target with
      | func =>
          obtain rfl := hfits.carries
          exact ret_ends hctx hw ho (hfits.func htarget) hstack
            fun _ => .leave hop himm hget htarget
      | block index height => exact goto_ends hctx hw ho hfits hstack hop himm hget
  | brIf hop himm ht =>
      rw [hop, himm]
      exact walkBranchIf_ends hctx hw ho hl hop himm ht hstack
  | brTable hop himm hlast hall =>
      rw [hop, himm]
      exact walkTable_ends hctx hw ho hl hop himm hlast hall hstack
  | ret hop =>
      rw [hop]
      exact ret_ends hctx hw ho rfl hstack fun _ => .ret hop

/-! ## Constructs -/

theorem inlineInstr_total {ltypes : Program.Labels} {i : Instr} {types : TypeStack}
    {out : Option TypeStack} (h : ctx.program.TypedInstr ctx.func ltypes i types out)
    (depth : Nat) : ∃ b, inlineInstr ctx depth i = .ok b := by
  unfold inlineInstr
  cases h with
  | numeric hop | nop hop | unreachable hop | drop hop | select hop | localGet hop | localSet hop
  | localTee hop | globalGet hop | globalSet hop | callIndirect hop | memorySize hop
  | memoryGrow hop | ret hop => rw [hop]; exact ⟨_, rfl⟩
  | constant hv => cases hv with
    | i32 hop | i64 hop | f32 hop | f64 hop | v128 hop => rw [hop]; exact ⟨_, rfl⟩
  | call hop himm | br hop himm | brIf hop himm | brTable hop himm =>
      rw [hop, himm]; exact ⟨_, rfl⟩

theorem bind_ite_total {x y : Except Abort Bool} (hx : ∃ b, x = .ok b) (hy : ∃ b, y = .ok b) :
    ∃ b, (do if ← x then y else return false) = .ok b := by
  obtain ⟨b, rfl⟩ := hx
  cases b with
  | false => exact ⟨false, rfl⟩
  | true => exact hy

mutual

theorem inlineNode_total : (n : Node) → {ltypes : Program.Labels} → {types : TypeStack} →
    {out : Option TypeStack} → ctx.program.TypedNode ctx.func ltypes n types out →
    (depth : Nat) → ∃ b, inlineNode ctx depth n = .ok b
  | .instr i, ltypes, types, out, h, depth => by
      rw [inlineNode]
      cases h with
      | instr hi => exact inlineInstr_total hi depth
  | .block loop sig body, ltypes, types, out, h, depth => by
      rw [inlineNode]
      cases h with
      | block _ hbody => exact inlineSeq_total body hbody _
  | .ifThen sig body, ltypes, types, out, h, depth => by
      rw [inlineNode]
      cases h with
      | ifThen _ _ hbody => exact inlineSeq_total body hbody _
  | .ifElse sig body alternative, ltypes, types, out, h, depth => by
      rw [inlineNode]
      cases h with
      | ifElse _ hbody halternative =>
          exact bind_ite_total (inlineSeq_total body hbody _)
            (inlineSeq_total alternative halternative _)

theorem inlineSeq_total : (ns : List Node) → {ltypes : Program.Labels} → {types : TypeStack} →
    {results : List ValueType} → ctx.program.TypedSeq ctx.func ltypes ns types results →
    (depth : Nat) → ∃ b, inlineSeq ctx depth ns = .ok b
  | [], ltypes, types, results, h, depth => ⟨true, by rw [inlineSeq]⟩
  | n :: ns, ltypes, types, results, h, depth => by
      rw [inlineSeq]
      cases h with
      | cons hn hns => exact bind_ite_total (inlineNode_total n hn depth) (inlineSeq_total ns hns depth)
      | last hn => exact bind_ite_total (inlineNode_total n hn depth) ⟨true, by rw [inlineSeq]⟩

end

/-- A construct that stays as it is. -/
theorem keepInline_ends (hctx : Walkable ctx) (hw : Walking ctx kept ps s) (ho : Open ctx kept s j)
    {n : Node} {outer mid args results : TypeStack} {ltypes : Program.Labels}
    (hn : ctx.program.TypedNode ctx.func ltypes n (mid ++ args) (some (mid ++ results)))
    (hinline : inlineNode ctx 0 n = .ok true) (hnode : ∀ i, n ≠ .instr i)
    (hkept : Admits ctx kept n.instrs) (hstack : s.stack = outer ++ (mid ++ args))
    {pops : Nat} (hpops : args.length = pops) (labels : List Label) :
    Ends (keepInline n pops results) s fun _ s' =>
      Walked ctx kept ps s s' labels outer n (mid ++ args) (some (mid ++ results)) := by
  have hframe := inlineNode_frame hn hinline hnode outer
  have hin := inlineNode_spec hctx n hinline hkept.calls
  rw [← hstack] at hframe
  obtain ⟨hstep, hopen⟩ := append_ends hw ho hframe hin
  rw [← List.append_assoc] at hstack
  refine .step (append_eq ho.current n) (.get (.step (below_ends hpops hstack) ?_))
  rw [List.append_assoc]
  exact ⟨(), _, rfl, hstep, reached_of_open hctx hstep.walking.toDrafted hopen rfl,
    ho.codes_appended (inlineNode_frame hn hinline hnode []) hin labels outer⟩

/-- Behind a sequence: its results are on the operands, or control does not get there. -/
def Passed (ctx : Context) (kept : Nat → Prop) (s : State) (outer : TypeStack)
    (results : List ValueType) : Prop :=
  (s.current = none ∧ outer <+: s.stack) ∨ ∃ i, Open ctx kept s i ∧ s.stack = outer ++ results

theorem Reached.passed {outer : TypeStack} {results : List ValueType}
    (h : Reached ctx kept s outer results) : Passed ctx kept s outer results := by
  rcases h.current with hcur | ⟨i, ho⟩
  · exact .inl ⟨hcur, prefix_of_stack h.stack⟩
  · exact .inr ⟨i, ho, h.stack⟩

/-- A construct is left for the block behind it. -/
theorem leaveFor_ends (hctx : Walkable ctx) (hw : Walking ctx kept ps s) {outer : TypeStack}
    {results : List ValueType} (hpassed : Passed ctx kept s outer results) {k : Nat}
    (hk : (s.machine ctx.func).entryTypes? k = some (outer ++ results)) :
    Ends (leaveFor k outer.length results) s fun _ s' =>
      Step ctx kept ps s s' ∧ s'.current = none
        ∧ Codes s s' fun _ t _ => t = ⟨[], .goto ⟨k, outer.length, results.length⟩⟩ := by
  refine .get ?_
  rcases hpassed with ⟨hcur, -⟩ | ⟨i, ho, hstack⟩
  · rw [hcur]
    refine .pure ⟨⟨hw, .refl s⟩, hcur, fun z _ t ht => ?_⟩
    rw [rest?_of_none hcur] at ht
    cases ht
  · rw [ho.current]
    have hterm : Terminator.Typed ctx.program (s.machine ctx.func) s.stack
        (.goto ⟨k, outer.length, results.length⟩) := by
      rw [hstack]
      refine .goto ⟨Nat.le_of_eq List.length_append.symm, ?_⟩
      · rw [hk, Edge.types, List.take_left, top_append]
    exact (terminate_ends hctx hw ho (prefix_of_stack hstack) hterm (leads_of_next? rfl)).mono
      fun _ s' ⟨hstep, hafter, hcodes⟩ =>
        ⟨hstep, hafter.1, fun z hz t ht => (hcodes z hz t ht).1⟩

/-- The walk goes on in the block behind a construct. -/
theorem enter_ends {s₀ : State} {entry : List ValueType} (hs : Step ctx kept (j :: ps) s₀ s)
    (hcur : s.current = none) (hj : Fresh s j entry) (hnew : s₀.drafts.size ≤ j) :
    Ends (enter j) s fun _ s' => Step ctx kept ps s₀ s' ∧ Open ctx kept s' j ∧ s'.stack = entry
      ∧ ∀ z, Later s' z →
        Later s z ∧ ∃ behind, z.block? j = some behind ∧ s'.rest? z = some behind := by
  refine ⟨(), _, enter_eq hj.draft, ⟨hs.walking.enter hcur entry, hs.ext.enter hnew entry⟩,
    .enter hj.draft, rfl, fun z hz => ?_⟩
  have hlater : Later s z := hz.of_drafts rfl
  obtain ⟨behind, hbehind⟩ := exists_block? hlater hj.draft
  refine ⟨hlater, behind, hbehind, ?_⟩
  rw [rest?_of_empty (s := { s with current := some j, stack := entry }) rfl hj.draft, hbehind]

theorem Walking.subset {ps' : List Nat} (h : Walking ctx kept ps s) (hsub : ps ⊆ ps') :
    Walking ctx kept ps' s :=
  ⟨h.toDrafted, fun i d hd hterm => (h.waiting i d hd hterm).imp_right fun hm => hsub hm⟩

theorem entryTypes?_of_fresh {entry : List ValueType} (h : Fresh s j entry) :
    (s.machine ctx.func).entryTypes? j = some entry := by
  rw [entryTypes?_machine, h.draft]; rfl

theorem fresh_push (hlt : ∀ k, s.current = some k → k < s.drafts.size) (entry : List ValueType) :
    Fresh (s.push entry) s.drafts.size entry :=
  ⟨getElem?_push_self s entry, fun hcur => Nat.lt_irrefl _ (hlt _ hcur)⟩

theorem Open.lt_size (h : Open ctx kept s i) : i < s.drafts.size := by
  obtain ⟨d, hd, -⟩ := h.draft
  exact lt_size_of_getElem? hd

theorem Open.current_lt (h : Open ctx kept s i) : ∀ k, s.current = some k → k < s.drafts.size := by
  intro k hk
  rw [h.current] at hk
  cases hk
  exact h.lt_size

/-- The label of the block behind a construct. -/
theorem labelFits_join {outer : TypeStack} {results : List ValueType} {k : Nat}
    (h : (s.machine ctx.func).entryTypes? k = some (outer ++ results)) :
    LabelFits ctx s outer ⟨.block k outer.length, results⟩ results := by
  refine ⟨rfl, ?_, ?_⟩
  · rintro ⟨⟩
  rintro _ _ ⟨⟩
  exact ⟨Nat.le_refl _, by rw [List.take_length]; exact h⟩

/-- A block that was set aside stays so while the walk goes from one block to another. -/
theorem Fresh.entered {k : Nat} {entry entry' : List ValueType} (h : Fresh s k entry)
    (hi : i ≠ k) (hj : j ≠ k) (term : Terminator) : Fresh (s.entered i term j entry') k entry :=
  ⟨(getElem?_closed_of_ne hi term).trans h.draft, fun hcur => hj (Option.some.inj hcur)⟩

/-- A sequence is walked as it is typed, wherever the walk gets to it. -/
def SeqWalks (ctx : Context) (kept : Nat → Prop) (ltypes : Program.Labels) (ns : List Node)
    (types : TypeStack) (results : List ValueType) : Prop :=
  ∀ (ps : List Nat) (s : State) (labels : List Label) (outer : TypeStack),
    Walking ctx kept ps s → Reached ctx kept s outer types → LabelsFit ctx s outer labels ltypes →
    Ends (walkSeq ctx labels ns) s fun _ s' =>
      Step ctx kept ps s s' ∧ Passed ctx kept s' outer results ∧ Codes s s' fun blocks =>
        SeqCode ctx.program ctx.func blocks labels outer ns types results

/-- The code of a construct that leads to the block behind it. -/
def BranchCode (ctx : Context) (labels : List Label) (outer : TypeStack) (k : Nat)
    (ns : List Node) (types : TypeStack) (results : List ValueType)
    (blocks : Nat → Option BlockRest) (t : BlockRest) : Prop :=
  ∃ o, SeqCode ctx.program ctx.func blocks (⟨.block k outer.length, results⟩ :: labels) outer ns
      types results t o
    ∧ ∀ t', o = some t' → t' = ⟨[], .goto ⟨k, outer.length, results.length⟩⟩

section Constructs

variable {labels : List Label} {ltypes : Program.Labels} {outer mid : TypeStack} {sig : Signature}
  {body alternative : List Node}

/-- The code of a construct that leads to the block behind it. -/
theorem branch_ends (hctx : Walkable ctx) {types : TypeStack} {results : List ValueType} {k : Nat}
    (hbody : SeqWalks ctx kept (results :: ltypes) body types results)
    (hw : Walking ctx kept ps s) (ho : Open ctx kept s j) (hstack : s.stack = outer ++ types)
    (hl : LabelsFit ctx s outer labels ltypes) (hk : Fresh s k (outer ++ results))
    {next : Walk Unit} {R : Unit → State → Prop}
    (hnext : ∀ s', Step ctx kept ps s s' → s'.current = none →
      (Codes s s' fun blocks t _ => BranchCode ctx labels outer k body types results blocks t) →
      Ends next s' R) :
    Ends (do
      walkSeq ctx (⟨.block k outer.length, results⟩ :: labels) body
      leaveFor k outer.length results
      next) s R := by
  have hreached : Reached ctx kept s outer types := reached_of_open hctx hw.toDrafted ho hstack
  have hlabels := List.Forall₂.cons (labelFits_join (entryTypes?_of_fresh hk)) hl
  refine .bind (hbody ps s _ outer hw hreached hlabels) ?_
  rintro _ s₁ ⟨hstep₁, hpassed, hcodes₁⟩
  have hk₁ : (s₁.machine ctx.func).entryTypes? k = some (outer ++ results) :=
    entryTypes?_of_fresh (hk.extends hstep₁.ext)
  refine .bind (leaveFor_ends hctx hstep₁.walking hpassed hk₁) ?_
  rintro _ s₂ ⟨hstep₂, hcur, hcodes₂⟩
  exact hnext s₂ (.trans hstep₁.ext hstep₂) hcur fun z hz t ht =>
    ⟨_, hcodes₁ z (hstep₂.ext.later.trans hz) t ht, hcodes₂ z hz⟩

theorem loop_ends (hctx : Walkable ctx) (hsig : sig.Known)
    (hbody : SeqWalks ctx kept (sig.params :: ltypes) body sig.params sig.results)
    (hw : Walking ctx kept ps s) (ho : Open ctx kept s j)
    (hl : LabelsFit ctx s outer labels ltypes) (hstack : s.stack = outer ++ (mid ++ sig.params)) :
    Ends (do
        let stack := (← get).stack
        let outer ← below stack sig.params.length
        let header ← newBlock stack
        terminate (.goto ⟨header, stack.length, 0⟩)
        enter header
        walkSeq ctx (⟨.block header outer.length, sig.params⟩ :: labels) body
        let kept ← bottom (← get).stack outer.length
        modify fun s => { s with stack := kept ++ sig.results }) s fun _ s' =>
      Walked ctx kept ps s s' labels outer (.block true sig body) (mid ++ sig.params)
        (some (mid ++ sig.results)) := by
  rw [← List.append_assoc] at hstack
  have hknown := ho.known hctx hw.toDrafted
  have hlt := ho.lt_size
  have hheader : ((s.push s.stack).machine ctx.func).entryTypes? s.drafts.size = some s.stack := by
    rw [entryTypes?_machine, getElem?_push_self]; rfl
  obtain ⟨hstep, hopen, hcodes⟩ := entered_spec hctx ⟨hw.push hknown, .push s _⟩
    (ho.aside (.push s _)) (getElem?_push_self s _) (Nat.le_refl _) (by omega) (.goto (typed_fall hheader))
    (leads_of_next? rfl)
  refine .get (.step (below_ends rfl hstack) (.step (newBlock_eq s _) ?_))
  refine terminateEnter_ends (ho.aside (.push s _)).current (getElem?_push_self s _) (by omega) ?_
  have hheader₁ : ((s.push s.stack).entered j (.goto ⟨s.drafts.size, s.stack.length, 0⟩)
      s.drafts.size s.stack |>.machine ctx.func).entryTypes? s.drafts.size
      = some (outer ++ mid ++ sig.params) := by
    rw [← hstack]
    exact ((Extends.closed (ho.aside (.push s _)) _).machine ctx.func).entry _ _ hheader
  have hlabels := List.Forall₂.cons (labelFits_join hheader₁) (labelsFit_mono hl hstep.ext mid)
  refine .bind (hbody ps _ _ (outer ++ mid) hstep.walking
    (reached_of_open hctx hstep.walking.toDrafted hopen hstack) hlabels) ?_
  rintro _ s₂ ⟨hstep₂, hpassed, hcodes₂⟩
  -- The results stand above the outer operands, whether control gets here or not.
  have hprefix : outer ++ mid <+: s₂.stack := by
    rcases hpassed with ⟨-, h⟩ | ⟨_, -, h⟩
    · exact h
    · exact prefix_of_stack h
  refine .get (.step (bottom_ends hprefix) ?_)
  have hout : Extends s₂ { s₂ with stack := outer ++ mid ++ sig.results } :=
    ⟨⟨List.prefix_rfl, rfl⟩, (Extends.refl s₂).drafts, fun _ h => .inl h⟩
  have hlen : s.stack.length = (outer ++ mid ++ sig.params).length := congrArg _ hstack
  rw [hstack] at hknown
  refine ⟨(), _, rfl, ⟨⟨hstep₂.walking.toDrafted.congr rfl rfl rfl, hstep₂.walking.waiting⟩,
    (hstep.ext.trans hstep₂.ext).trans hout⟩, ⟨List.append_assoc .., ?_, ?_⟩, fun z hz t ht => ?_⟩
  · exact hknown.of_append.1.append hsig.results
  · rcases hpassed with ⟨hcur, -⟩ | ⟨i, ho₂, hstack₂⟩
    · exact .inl hcur
    · refine .inr ⟨i, ho₂.of_draft rfl ?_ fun _ hd => hd⟩
      exact hstack₂.symm
  · have hz₂ := hout.later.trans hz
    obtain ⟨rfl, start, hstart, hrest⟩ :=
      hcodes z (hstep₂.ext.later.trans hz₂) t ((ho.rest?_aside (.push s _)).trans ht)
    change NodeCode ctx.program ctx.func z.block? labels outer _ _ _
      ⟨[], .goto ⟨s.drafts.size, s.stack.length, 0⟩⟩ _
    rw [hlen]
    exact .loop hstart (hcodes₂ z hz₂ start hrest)

theorem block_ends (hctx : Walkable ctx) (hsig : sig.Known)
    (hbody : SeqWalks ctx kept (sig.results :: ltypes) body sig.params sig.results)
    (hw : Walking ctx kept ps s) (ho : Open ctx kept s j)
    (hl : LabelsFit ctx s outer labels ltypes) (hstack : s.stack = outer ++ (mid ++ sig.params)) :
    Ends (do
        let outer ← below (← get).stack sig.params.length
        let join ← newBlock (outer ++ sig.results)
        walkSeq ctx (⟨.block join outer.length, sig.results⟩ :: labels) body
        leaveFor join outer.length sig.results
        enter join) s fun _ s' =>
      Walked ctx kept ps s s' labels outer (.block false sig body) (mid ++ sig.params)
        (some (mid ++ sig.results)) := by
  rw [← List.append_assoc] at hstack
  have hknown := ho.known hctx hw.toDrafted
  rw [hstack] at hknown
  have hjoin := fresh_push ho.current_lt (outer ++ mid ++ sig.results)
  refine .get (.step (below_ends rfl hstack) (.step (newBlock_eq s _) ?_))
  refine branch_ends hctx hbody (hw.push (hknown.of_append.1.append hsig.results))
    (ho.aside (.push s _)) hstack (labelsFit_mono hl (.push s _) mid) hjoin
    fun s₁ hstep hcur hcodes => ?_
  have hjoin₁ := hjoin.extends hstep.ext
  refine (enter_ends (.trans (.push s _) hstep) hcur hjoin₁ (Nat.le_refl _)).mono ?_
  rintro _ s' ⟨hstep', hopen, hstack', hentered⟩
  refine ⟨hstep', reached_of_open hctx hstep'.walking.toDrafted hopen ?_, fun z hz t ht => ?_⟩
  · rw [hstack', List.append_assoc]
  · obtain ⟨hz₁, behind, hbehind, hrest⟩ := hentered z hz
    obtain ⟨o, hseq, hend⟩ := hcodes z hz₁ t ((ho.rest?_aside (.push s _)).trans ht)
    rw [hrest]
    exact .block hbehind hseq hend

theorem ifThen_ends (hctx : Walkable ctx) (hsig : sig.Known) (heq : sig.params = sig.results)
    (hbody : SeqWalks ctx kept (sig.results :: ltypes) body sig.params sig.results)
    (hw : Walking ctx kept ps s) (ho : Open ctx kept s j)
    (hl : LabelsFit ctx s outer labels ltypes)
    (hstack : s.stack = outer ++ (mid ++ sig.params ++ [.i32])) :
    Ends (do
        let stack := (← get).stack
        let rest ← below stack 1
        let outer ← below rest sig.params.length
        let join ← newBlock (outer ++ sig.results)
        let first ← newBlock rest
        close stack (.branch ⟨first, rest.length, 0⟩ ⟨join, rest.length, 0⟩)
        enter first
        walkSeq ctx (⟨.block join outer.length, sig.results⟩ :: labels) body
        leaveFor join outer.length sig.results
        enter join) s fun _ s' =>
      Walked ctx kept ps s s' labels outer (.ifThen sig body) (mid ++ sig.params ++ [.i32])
        (some (mid ++ sig.results)) := by
  have hstack' : s.stack = outer ++ mid ++ sig.params ++ [.i32] := by
    rw [hstack]; simp only [List.append_assoc]
  have hknown := ho.known hctx hw.toDrafted
  rw [hstack'] at hknown
  have hlt := ho.lt_size
  have hjoin := fresh_push ho.current_lt (outer ++ mid ++ sig.results)
  let s₁ := s.push (outer ++ mid ++ sig.results)
  let s₂ := s₁.push (outer ++ mid ++ sig.params)
  have ho₁ : Open ctx kept s₁ j := ho.aside (.push s _)
  have ho₂ : Open ctx kept s₂ j := ho₁.aside (.push s₁ _)
  have hw₂ : Walking ctx kept (s₁.drafts.size :: s.drafts.size :: ps) s₂ :=
    (hw.push (hknown.of_append.1.of_append.1.append hsig.results)).push hknown.of_append.1
  have hfirst : s₂.drafts[s₁.drafts.size]? = some { entry := outer ++ mid ++ sig.params } :=
    getElem?_push_self s₁ _
  have hsize : s₁.drafts.size = s.drafts.size + 1 := Array.size_push _
  have hterm : Terminator.Typed ctx.program (s₂.machine ctx.func) s₂.stack
      (.branch ⟨s₁.drafts.size, (outer ++ mid ++ sig.params).length, 0⟩
        ⟨s.drafts.size, (outer ++ mid ++ sig.params).length, 0⟩) := by
    change Terminator.Typed _ _ s.stack _
    rw [hstack']
    refine .branch (typed_fall ?_) (typed_fall ?_)
    · rw [entryTypes?_machine, hfirst]; rfl
    · rw [entryTypes?_of_fresh (hjoin.extends (.push s₁ _)), heq]
  obtain ⟨hstep, hopen, hcodes⟩ := entered_spec hctx ⟨hw₂, .push s₁ _⟩ ho₂ hfirst (Nat.le_refl _)
    (by omega) hterm (leads_of_next? rfl)
  refine .get (.step (below_ends rfl hstack') (.step (below_ends rfl rfl)
    (.step (newBlock_eq s _) (.step (newBlock_eq s₁ _)
    (closeEnter_ends ho₂.current hfirst (by omega) ?_)))))
  have hjoin₃ := hjoin.extends hstep.ext
  have hext₃ := (Extends.push s _).trans hstep.ext
  refine branch_ends hctx hbody hstep.walking hopen rfl (labelsFit_mono hl hext₃ mid) hjoin₃
    fun s₄ hstep₄ hcur hcodes₄ => ?_
  refine (enter_ends (.trans hext₃ hstep₄) hcur (hjoin₃.extends hstep₄.ext) (Nat.le_refl _)).mono ?_
  rintro _ s' ⟨hstep', hopen', hstack'', hentered⟩
  refine ⟨hstep', reached_of_open hctx hstep'.walking.toDrafted hopen' ?_, fun z hz t ht => ?_⟩
  · rw [hstack'', List.append_assoc]
  · obtain ⟨hz₄, behind, hbehind, hrest⟩ := hentered z hz
    have hsame : s₂.rest? z = s.rest? z :=
      (ho₁.rest?_aside (.push s₁ _)).trans (ho.rest?_aside (.push s _))
    obtain ⟨rfl, start, hstart, hrest₁⟩ :=
      hcodes z (hstep₄.ext.later.trans hz₄) t (hsame.trans ht)
    obtain ⟨o, hseq, hend⟩ := hcodes₄ z hz₄ start hrest₁
    rw [hrest]
    exact .ifThen heq hstart hbehind hseq hend

theorem ifElse_ends (hctx : Walkable ctx) (hsig : sig.Known)
    (hbody : SeqWalks ctx kept (sig.results :: ltypes) body sig.params sig.results)
    (halternative : SeqWalks ctx kept (sig.results :: ltypes) alternative sig.params sig.results)
    (hw : Walking ctx kept ps s) (ho : Open ctx kept s j)
    (hl : LabelsFit ctx s outer labels ltypes)
    (hstack : s.stack = outer ++ (mid ++ sig.params ++ [.i32])) :
    Ends (do
        let stack := (← get).stack
        let rest ← below stack 1
        let outer ← below rest sig.params.length
        let join ← newBlock (outer ++ sig.results)
        let first ← newBlock rest
        let second ← newBlock rest
        close stack (.branch ⟨first, rest.length, 0⟩ ⟨second, rest.length, 0⟩)
        enter first
        walkSeq ctx (⟨.block join outer.length, sig.results⟩ :: labels) body
        leaveFor join outer.length sig.results
        enter second
        walkSeq ctx (⟨.block join outer.length, sig.results⟩ :: labels) alternative
        leaveFor join outer.length sig.results
        enter join) s fun _ s' =>
      Walked ctx kept ps s s' labels outer (.ifElse sig body alternative)
        (mid ++ sig.params ++ [.i32]) (some (mid ++ sig.results)) := by
  have hstack' : s.stack = outer ++ mid ++ sig.params ++ [.i32] := by
    rw [hstack]; simp only [List.append_assoc]
  have hknown := ho.known hctx hw.toDrafted
  rw [hstack'] at hknown
  have hlt := ho.lt_size
  have hjoin := fresh_push ho.current_lt (outer ++ mid ++ sig.results)
  let s₁ := s.push (outer ++ mid ++ sig.results)
  let s₂ := s₁.push (outer ++ mid ++ sig.params)
  let s₃ := s₂.push (outer ++ mid ++ sig.params)
  have ho₁ : Open ctx kept s₁ j := ho.aside (.push s _)
  have ho₂ : Open ctx kept s₂ j := ho₁.aside (.push s₁ _)
  have ho₃ : Open ctx kept s₃ j := ho₂.aside (.push s₂ _)
  have hw₃ : Walking ctx kept (s₁.drafts.size :: s₂.drafts.size :: s.drafts.size :: ps) s₃ := by
    refine (((hw.push (hknown.of_append.1.of_append.1.append hsig.results)).push
      hknown.of_append.1).push hknown.of_append.1).subset ?_
    exact (List.Perm.swap _ _ _).subset
  have hext₃ : Extends s₁ s₃ := (Extends.push s₁ _).trans (.push s₂ _)
  have hsize₁ : s₁.drafts.size = s.drafts.size + 1 := Array.size_push _
  have hsize₂ : s₂.drafts.size = s₁.drafts.size + 1 := Array.size_push _
  have hfirst : s₃.drafts[s₁.drafts.size]? = some { entry := outer ++ mid ++ sig.params } :=
    (getElem?_push_of_lt (by omega)).trans (getElem?_push_self s₁ _)
  have hsecond : Fresh s₃ s₂.drafts.size (outer ++ mid ++ sig.params) :=
    fresh_push ho₂.current_lt _
  have hterm : Terminator.Typed ctx.program (s₃.machine ctx.func) s₃.stack
      (.branch ⟨s₁.drafts.size, (outer ++ mid ++ sig.params).length, 0⟩
        ⟨s₂.drafts.size, (outer ++ mid ++ sig.params).length, 0⟩) := by
    change Terminator.Typed _ _ s.stack _
    rw [hstack']
    refine .branch (typed_fall ?_) (typed_fall (entryTypes?_of_fresh hsecond))
    rw [entryTypes?_machine, hfirst]; rfl
  obtain ⟨hstep, hopen, hcodes⟩ := entered_spec hctx ⟨hw₃, hext₃⟩ ho₃ hfirst (Nat.le_refl _)
    (by omega) hterm (leads_of_next? rfl)
  refine .get (.step (below_ends rfl hstack') (.step (below_ends rfl rfl)
    (.step (newBlock_eq s _) (.step (newBlock_eq s₁ _) (.step (newBlock_eq s₂ _)
    (closeEnter_ends ho₃.current hfirst (by omega) ?_))))))
  -- The block behind the construct is set aside as long as code goes to the two others.
  have hext₄ := (Extends.push s _).trans hstep.ext
  refine branch_ends hctx hbody hstep.walking hopen rfl (labelsFit_mono hl hext₄ mid)
    (hjoin.extends hstep.ext) fun s₅ hstep₅ hcur₅ hcodes₅ => ?_
  have hsecond₅ := (hsecond.entered (by omega) (by omega) _).extends hstep₅.ext
  refine .bind (enter_ends (.trans hstep.ext hstep₅) hcur₅ hsecond₅ (by omega)) ?_
  rintro _ s₆ ⟨hstep₆, hopen₆, hstack₆, hentered₆⟩
  have hext₆ := (Extends.push s _).trans hstep₆.ext
  refine branch_ends hctx halternative hstep₆.walking hopen₆ hstack₆ (labelsFit_mono hl hext₆ mid)
    (hjoin.extends hstep₆.ext) fun s₇ hstep₇ hcur₇ hcodes₇ => ?_
  have hjoin₇ := (hjoin.extends hstep₆.ext).extends hstep₇.ext
  refine (enter_ends (.trans hext₆ hstep₇) hcur₇ hjoin₇ (Nat.le_refl _)).mono ?_
  rintro _ s' ⟨hstep', hopen', hstack'', hentered⟩
  refine ⟨hstep', reached_of_open hctx hstep'.walking.toDrafted hopen' ?_, fun z hz t ht => ?_⟩
  · rw [hstack'', List.append_assoc]
  · obtain ⟨hz₇, behind, hbehind, hrest⟩ := hentered z hz
    obtain ⟨hz₅, start', hstart', hrest₆⟩ := hentered₆ z (hstep₇.ext.later.trans hz₇)
    have hsame : s₃.rest? z = s.rest? z :=
      ((ho₂.rest?_aside (.push s₂ _)).trans (ho₁.rest?_aside (.push s₁ _))).trans
        (ho.rest?_aside (.push s _))
    obtain ⟨rfl, start, hstart, hrest₁⟩ :=
      hcodes z (hstep₅.ext.later.trans hz₅) t (hsame.trans ht)
    obtain ⟨o, hseq, hend⟩ := hcodes₅ z hz₅ start hrest₁
    obtain ⟨o', hseq', hend'⟩ := hcodes₇ z hz₇ start' hrest₆
    rw [hrest]
    exact .ifElse hstart hstart' hbehind hseq hend hseq' hend'

end Constructs

/-- Code that control does not get to is put into a block of its own. -/
theorem Reached.opened (hw : Walking ctx kept ps s) {outer types : TypeStack}
    (h : Reached ctx kept s outer types) (hcur : s.current = none) :
    Step ctx kept ps s { s.push s.stack with current := some s.drafts.size }
      ∧ Open ctx kept { s.push s.stack with current := some s.drafts.size } s.drafts.size := by
  have hpush := hw.push h.known
  exact ⟨⟨hpush.enter hcur s.stack, (Extends.push s s.stack).enter (Nat.le_refl _) s.stack⟩,
    .enter (getElem?_push_self s s.stack)⟩

mutual

/-- A node is walked as it is typed. -/
theorem walkNode_ends (hctx : Walkable ctx) : (n : Node) → {ps : List Nat} → {s : State} →
    {j : Nat} → {labels : List Label} → {ltypes : Program.Labels} → {outer types : TypeStack} →
    {out : Option TypeStack} → Walking ctx kept ps s → Open ctx kept s j →
    LabelsFit ctx s outer labels ltypes → s.stack = outer ++ types →
    ctx.program.TypedNode ctx.func ltypes n types out → Admits ctx kept n.instrs →
    Ends (walkNode ctx labels n) s fun _ s' => Walked ctx kept ps s s' labels outer n types out
  | .instr i, ps, s, j, labels, ltypes, outer, types, out, hw, ho, hl, hstack, hn, hkept => by
      rw [walkNode]
      rw [Node.instrs] at hkept
      cases hn with
      | instr hi => exact walkInstr_ends hctx hw ho hl hi hstack hkept
  | .block loop sig body, ps, s, j, labels, ltypes, outer, types, out, hw, ho, hl, hstack, hn,
      hkept => by
      rw [walkNode]
      obtain ⟨b, hinline⟩ := inlineNode_total _ hn 0
      refine .lift hinline ?_
      cases hn with
      | block hsig hbody =>
        cases b with
        | true =>
            exact keepInline_ends hctx hw ho (.block hsig hbody) hinline (fun _ h => by cases h)
              hkept hstack rfl labels
        | false =>
            rw [Node.instrs] at hkept
            have hwalks := walkSeq_ends hctx body hbody hkept
            cases loop with
            | true => exact loop_ends hctx hsig hwalks hw ho hl hstack
            | false => exact block_ends hctx hsig hwalks hw ho hl hstack
  | .ifThen sig body, ps, s, j, labels, ltypes, outer, types, out, hw, ho, hl, hstack, hn,
      hkept => by
      rw [walkNode]
      obtain ⟨b, hinline⟩ := inlineNode_total _ hn 0
      refine .lift hinline ?_
      cases hn with
      | @ifThen _ _ _ mid hsig heq hbody =>
        cases b with
        | true =>
            rw [List.append_assoc mid] at hstack
            have htyped := @Program.TypedNode.ifThen _ _ _ _ _ mid hsig heq hbody
            rw [List.append_assoc mid] at htyped
            rw [List.append_assoc mid]
            exact keepInline_ends hctx hw ho htyped hinline (fun _ h => by cases h) hkept hstack
              List.length_append labels
        | false =>
            rw [Node.instrs] at hkept
            exact ifThen_ends hctx hsig heq (walkSeq_ends hctx body hbody hkept) hw ho hl hstack
  | .ifElse sig body alternative, ps, s, j, labels, ltypes, outer, types, out, hw, ho, hl, hstack,
      hn, hkept => by
      rw [walkNode]
      obtain ⟨b, hinline⟩ := inlineNode_total _ hn 0
      refine .lift hinline ?_
      cases hn with
      | @ifElse _ _ _ _ mid hsig hbody halternative =>
        cases b with
        | true =>
            rw [List.append_assoc mid] at hstack
            have htyped := @Program.TypedNode.ifElse _ _ _ _ _ _ mid hsig hbody halternative
            rw [List.append_assoc mid] at htyped
            rw [List.append_assoc mid]
            exact keepInline_ends hctx hw ho htyped hinline (fun _ h => by cases h) hkept hstack
              List.length_append labels
        | false =>
            rw [Node.instrs] at hkept
            exact ifElse_ends hctx hsig (walkSeq_ends hctx body hbody hkept.of_append.1)
              (walkSeq_ends hctx alternative halternative hkept.of_append.2) hw ho hl hstack

/-- A sequence is walked as it is typed. -/
theorem walkSeq_ends (hctx : Walkable ctx) : (ns : List Node) → {ltypes : Program.Labels} →
    {types : TypeStack} → {results : List ValueType} →
    ctx.program.TypedSeq ctx.func ltypes ns types results →
    Admits ctx kept (Body.instrs ns) → SeqWalks ctx kept ltypes ns types results
  | [], ltypes, types, results, hns, hkept => by
      intro ps s labels outer hw hr hl
      rw [walkSeq]
      cases hns with
      | nil =>
          refine .pure ⟨⟨hw, .refl s⟩, hr.passed, fun z _ t ht => ?_⟩
          rw [ht]
          exact .nil
  | n :: ns, ltypes, types, results, hns, hkept => by
      intro ps s labels outer hw hr hl
      rw [Body.instrs] at hkept
      -- From a block that code goes to on.
      have hgo {s : State} {j : Nat} (hw : Walking ctx kept ps s) (ho : Open ctx kept s j)
          (hl : LabelsFit ctx s outer labels ltypes) (hstack : s.stack = outer ++ types) :
          Ends (do walkNode ctx labels n; walkSeq ctx labels ns) s fun _ s' =>
            Step ctx kept ps s s' ∧ Passed ctx kept s' outer results ∧ Codes s s' fun blocks =>
              SeqCode ctx.program ctx.func blocks labels outer (n :: ns) types results := by
        cases hns with
        | cons hn hrest =>
            refine .bind (walkNode_ends hctx n hw ho hl hstack hn hkept.of_append.1) ?_
            rintro _ s₁ ⟨hstep, hafter, hnode⟩
            refine (walkSeq_ends hctx ns hrest hkept.of_append.2 ps s₁ labels outer hstep.walking
              hafter (labelsFit_ext hl hstep.ext)).mono ?_
            rintro _ s' ⟨hstep', hpassed, hseq⟩
            refine ⟨.trans hstep.ext hstep', hpassed, fun z hz t ht => ?_⟩
            have hcode := hnode z (hstep'.ext.later.trans hz) t ht
            cases hrest : s₁.rest? z with
            | none => exact .dead (hrest ▸ hcode)
            | some t' => exact .cons (hrest ▸ hcode) (hseq z hz t' hrest)
        | last hn =>
            refine .bind (walkNode_ends hctx n hw ho hl hstack hn hkept.of_append.1) ?_
            rintro _ s₁ ⟨hstep, hafter, hnode⟩
            rw [walkSeq]
            refine .pure ⟨hstep, .inl hafter, fun z hz t ht => ?_⟩
            have hcode := hnode z hz t ht
            rw [rest?_of_none hafter.1] at hcode
            exact .dead hcode
      rw [walkSeq]
      refine .get ?_
      rcases hr.current with hcur | ⟨j, ho⟩
      · obtain ⟨hstep, hopen⟩ := hr.opened hw hcur
        rw [hcur]
        refine .get (.step (newBlock_eq s _) (.modify ?_))
        refine (hgo hstep.walking hopen (labelsFit_ext hl hstep.ext) hr.stack).mono ?_
        rintro _ s' ⟨hstep', hpassed, -⟩
        refine ⟨.trans hstep.ext hstep', hpassed, fun z hz t ht => ?_⟩
        rw [rest?_of_none hcur] at ht
        cases ht
      · rw [ho.current]
        exact hgo hw ho hl hr.stack

end

end WasmShader.Split
