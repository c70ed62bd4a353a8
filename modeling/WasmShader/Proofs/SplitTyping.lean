import WasmShader.Machine.Split
import WasmShader.Proofs.BlockForm
import WasmShader.Proofs.CallOrder

/-!
# The walk over a body

While a checked body is walked, the blocks that are finished are typed, and the code of the
block that is being collected leads from the operands on its entry to those that the walk
keeps track of (`Drafted` and `Open`). A step changes no block but the current one and those
it adds (`Extends`), so a block that was set aside is still empty when the walk gets to it.
-/

namespace WasmShader

/-! ## Code that control passes -/

/-- Code that leads from operands to operands, and never away. -/
inductive Program.TypedPath (p : Program) (f : Function) (entry : TypeStack) :
    List Node → TypeStack → Prop
  | nil : TypedPath p f entry [] entry
  | snoc {body : List Node} {n : Node} {mid out : TypeStack} : TypedPath p f entry body mid →
      TypedNode p f [] n mid (some out) → TypedPath p f entry (body ++ [n]) out

theorem Program.TypedPath.append {p : Program} {f : Function} {entry mid : TypeStack}
    {body rest : List Node} {results : List ValueType} (h : p.TypedPath f entry body mid)
    (hrest : p.TypedSeq f [] rest mid results) : p.TypedSeq f [] (body ++ rest) entry results := by
  induction h generalizing rest with
  | nil => exact hrest
  | snoc _ hn ih =>
      rw [List.append_assoc]
      exact ih (.cons hn hrest)

theorem Program.TypedPath.typedSeq {p : Program} {f : Function} {entry out : TypeStack}
    {body : List Node} (h : p.TypedPath f entry body out) : p.TypedSeq f [] body entry out := by
  have hseq := h.append .nil
  rw [List.append_nil] at hseq
  exact hseq

theorem instrs_append (ns ms : List Node) :
    Body.instrs (ns ++ ms) = Body.instrs ns ++ Body.instrs ms := by
  induction ns with
  | nil => rfl
  | cons n ns ih => rw [List.cons_append, Body.instrs, Body.instrs, ih, List.append_assoc]

theorem instrs_singleton (n : Node) : Body.instrs [n] = n.instrs := by
  rw [Body.instrs, Body.instrs, List.append_nil]

/-! ## Machines with more blocks -/

/-- The second machine has the blocks of the first, and may have more. -/
structure Machine.Extends (m m' : Machine) : Prop where
  func : m'.func = m.func
  entry : ∀ i types, m.entryTypes? i = some types → m'.entryTypes? i = some types

theorem Edge.Typed.mono {m m' : Machine} {stack : TypeStack} {e : Edge} (h : e.Typed m stack)
    (hext : m.Extends m') : e.Typed m' stack :=
  ⟨h.room, hext.entry _ _ h.target⟩

theorem Terminator.Typed.mono {p : Program} {m m' : Machine} {stack : TypeStack} {t : Terminator}
    (h : t.Typed p m stack) (hext : m.Extends m') : t.Typed p m' stack := by
  cases h with
  | goto he => exact .goto (he.mono hext)
  | branch ht hf => exact .branch (ht.mono hext) (hf.mono hext)
  | switch hcases hlast => exact .switch (fun e he => (hcases e he).mono hext) (hlast.mono hext)
  | call htakes hnext => exact .call htakes (hext.entry _ _ hnext)
  | host htakes hnext => exact .host htakes (hext.entry _ _ hnext)
  | ret =>
      rw [← hext.func]
      exact .ret
  | trap => exact .trap

theorem Block.Typed.mono {p : Program} {a : Analysis} {kept : Nat → Prop} {m m' : Machine}
    {b : Block} (h : b.Typed p a kept m) (hext : m.Extends m') : b.Typed p a kept m' :=
  ⟨by rw [hext.func]; exact h.body, by rw [hext.func]; exact h.direct, h.stays, h.known,
    h.term.mono hext⟩

/-! ## Code in other surroundings -/

section Surroundings

variable {p : Program} {f : Function} {labels : Program.Labels}

/-- An instruction that control passes has the same type above other operands. -/
theorem Program.TypedInstr.frame {i : Instr} {types out : TypeStack}
    (h : p.TypedInstr f labels i types (some out)) (hne : i.operation ≠ .brIf) (outer : TypeStack)
    (labels' : Program.Labels) : p.TypedInstr f labels' i (outer ++ types) (some (outer ++ out)) := by
  cases h with
  | numeric hop => rw [← List.append_assoc, ← List.append_assoc]; exact .numeric hop
  | nop hop => exact .nop hop
  | constant hv => rw [← List.append_assoc]; exact .constant hv
  | drop hop => rw [← List.append_assoc]; exact .drop hop
  | select hop => rw [← List.append_assoc, ← List.append_assoc]; exact .select hop
  | localGet hop himm ht => rw [← List.append_assoc]; exact .localGet hop himm ht
  | localSet hop himm ht => rw [← List.append_assoc]; exact .localSet hop himm ht
  | localTee hop himm ht => rw [← List.append_assoc]; exact .localTee hop himm ht
  | globalGet hop himm hg => rw [← List.append_assoc]; exact .globalGet hop himm hg
  | globalSet hop himm hg hm => rw [← List.append_assoc]; exact .globalSet hop himm hg hm
  | call hop himm hsig => rw [← List.append_assoc, ← List.append_assoc]; exact .call hop himm hsig
  | callIndirect hop himm ht herr =>
      rw [← List.append_assoc outer, ← List.append_assoc outer]
      exact .callIndirect hop himm ht herr
  | memorySize hop => rw [← List.append_assoc]; exact .memorySize hop
  | memoryGrow hop => rw [← List.append_assoc]; exact .memoryGrow hop
  | brIf hop => exact absurd hop hne

/-- What the effect of an instruction says of operands that it is typed for. -/
theorem Program.TypedInstr.effect {i : Instr} {types out : TypeStack}
    (h : p.TypedInstr f labels i types (some out)) (hne : i.operation ≠ .brIf)
    (outer : TypeStack) :
    ∃ e rest, p.effect f i (outer ++ types) = .ok e ∧ types = rest ++ e.pops
      ∧ out = rest ++ e.pushes := by
  cases h with
  | @numeric op rest hop => exact ⟨_, rest, by rw [Program.effect, hop], rfl, rfl⟩
  | @nop stack hop =>
      exact ⟨{}, _, by rw [Program.effect, hop], (List.append_nil _).symm, (List.append_nil _).symm⟩
  | @constant v stack hv =>
      refine ⟨{ pushes := [v.type] }, _, ?_, (List.append_nil _).symm, rfl⟩
      cases hv with
      | i32 hop _ => rw [Program.effect, hop]; rfl
      | i64 hop _ => rw [Program.effect, hop]; rfl
      | f32 hop _ => rw [Program.effect, hop]; rfl
      | f64 hop _ => rw [Program.effect, hop]; rfl
      | v128 hop _ => rw [Program.effect, hop]; rfl
  | @drop t rest hop =>
      refine ⟨{ pops := [t] }, _, ?_, rfl, (List.append_nil _).symm⟩
      rw [Program.effect, hop, ← List.append_assoc]
      simp only [List.getLast?_concat]
  | @select t rest hop =>
      refine ⟨⟨[t, t, .i32], [t]⟩, rest, ?_, rfl, rfl⟩
      rw [Program.effect, hop, ← List.append_assoc]
      have hlen : ((outer ++ rest) ++ [t, t, .i32]).length = (outer ++ rest).length + 3 :=
        List.length_append
      have hentry : entry ((outer ++ rest) ++ [t, t, .i32])
          (((outer ++ rest) ++ [t, t, .i32]).length - 2) = .ok t := by
        rw [entry, hlen, List.getElem?_append_right (by omega),
          show (outer ++ rest).length + 3 - 2 - (outer ++ rest).length = 1 by omega]
        rfl
      dsimp only
      rw [if_neg (by omega), hentry]
      rfl
  | @localGet idx t stack hop himm ht =>
      refine ⟨{ pushes := [t] }, _, ?_, (List.append_nil _).symm, rfl⟩
      rw [Program.effect, hop, himm]
      simp only [Program.localType, ht]
      rfl
  | @localSet idx t rest hop himm ht =>
      refine ⟨{ pops := [t] }, _, ?_, rfl, (List.append_nil _).symm⟩
      rw [Program.effect, hop, himm]
      simp only [Program.localType, ht]
      rfl
  | @localTee idx t rest hop himm ht =>
      refine ⟨⟨[t], [t]⟩, rest, ?_, rfl, rfl⟩
      rw [Program.effect, hop, himm]
      simp only [Program.localType, ht]
      rfl
  | @globalGet idx g stack hop himm hg =>
      refine ⟨{ pushes := [g.type] }, _, ?_, (List.append_nil _).symm, rfl⟩
      rw [Program.effect, hop, himm]
      simp only [Program.globalAt, hg]
      rfl
  | @globalSet idx g rest hop himm hg hm =>
      refine ⟨{ pops := [g.type] }, _, ?_, rfl, (List.append_nil _).symm⟩
      rw [Program.effect, hop, himm]
      simp only [Program.globalAt, hg]
      change (if g.isMutable = true then _ else _) = _
      rw [if_pos hm]
      rfl
  | @call target sig rest hop himm hsig =>
      refine ⟨⟨sig.params, sig.results⟩, rest, ?_, rfl, rfl⟩
      rw [Program.effect, hop, himm]
      simp only [Program.calleeSignature, hsig]
      rfl
  | @callIndirect typeIdx table t rest hop himm ht herr =>
      refine ⟨⟨t.sig.params ++ [.i32], t.sig.results⟩, rest, ?_, rfl, rfl⟩
      rw [Program.effect, hop, himm]
      simp only [Program.indirectSignature, ht, herr]
      rfl
  | @memorySize stack hop =>
      exact ⟨{ pushes := [.i32] }, _, by rw [Program.effect, hop], (List.append_nil _).symm, rfl⟩
  | @memoryGrow rest hop => exact ⟨⟨[.i32], [.i32]⟩, rest, by rw [Program.effect, hop], rfl, rfl⟩
  | brIf hop => exact absurd hop hne

end Surroundings

/-! ## Questions to the host -/

/-- What an instruction asks of the host. -/
def Instr.hostKey? (p : Program) (i : Instr) : Option HostKey :=
  match i.operation, i.imm with
  | .call, .call target =>
    if p.isImport target.toNat then some (.importCall target.toNat) else none
  | .callIndirect, .callIndirect typeIdx _ => some (.callIndirect typeIdx.toNat)
  | .memorySize, _ => some (.memory .memorySize)
  | .memoryGrow, _ => some (.memory .memoryGrow)
  | _, _ => none

/-- The function has an instruction that asks the host something. -/
def Function.Asks (p : Program) (f : Function) (key : HostKey) : Prop :=
  ∃ body, f.body = .ok body ∧ ∃ i ∈ Body.instrs body, i.hostKey? p = some key

namespace Split

variable {α β : Type}

/-! ## Runs of the walk -/

/-- The step succeeds, and its end is as described. -/
def Ends (x : Walk α) (s : State) (Q : α → State → Prop) : Prop :=
  ∃ a s', x s = .ok (a, s') ∧ Q a s'

namespace Ends

variable {x : Walk α} {k : α → Walk β} {s : State} {Q : α → State → Prop} {R : β → State → Prop}

theorem pure {a : α} (h : Q a s) : Ends (Pure.pure a) s Q := ⟨a, s, rfl, h⟩

/-- A step whose end is known. -/
theorem step {a : α} {s' : State} (hx : x s = .ok (a, s')) (hk : Ends (k a) s' R) :
    Ends (x >>= k) s R := by
  obtain ⟨b, s'', hb, hR⟩ := hk
  refine ⟨b, s'', ?_, hR⟩
  change (x s >>= fun r => k r.1 r.2) = _
  rw [hx]
  exact hb

theorem bind (hx : Ends x s Q) (hk : ∀ a s', Q a s' → Ends (k a) s' R) : Ends (x >>= k) s R := by
  obtain ⟨a, s', hx, hQ⟩ := hx
  exact step hx (hk a s' hQ)

theorem mono {Q' : α → State → Prop} (h : Ends x s Q) (himp : ∀ a s', Q a s' → Q' a s') :
    Ends x s Q' := by
  obtain ⟨a, s', hx, hQ⟩ := h
  exact ⟨a, s', hx, himp a s' hQ⟩

theorem get {k : State → Walk β} (h : Ends (k s) s R) : Ends (MonadState.get >>= k) s R :=
  step rfl h

theorem modify {change : State → State} {k : Unit → Walk β} (h : Ends (k ()) (change s) R) :
    Ends (modifyThe State change >>= k) s R :=
  step rfl h

/-- A computation that does not look at the state. -/
theorem lift {y : Except Abort α} {a : α} (h : y = .ok a) (hk : Ends (k a) s R) :
    Ends ((liftM y : Walk α) >>= k) s R := by
  refine step ?_ hk
  subst h
  rfl

end Ends

/-! ## Drafts -/

/-- The machine that the drafts make. Where a terminator is missing it has any. -/
def State.machine (s : State) (f : Function) : Machine :=
  ⟨f, s.drafts.toList.mapIdx fun i d => ⟨i, d.entry, d.body, d.stack, d.term.getD (.trap .unreachable)⟩⟩

theorem entryTypes?_machine (s : State) (f : Function) (i : Nat) :
    (s.machine f).entryTypes? i = s.drafts[i]?.map (·.entry) := by
  rw [Machine.entryTypes?, State.machine, List.getElem?_mapIdx, Array.getElem?_toList, Option.map_map]
  rfl

/-- The walk has gone on: it has changed no block but the current one, and that only by
adding to it. -/
structure Extends (s s' : State) : Prop where
  hosts : s.hosts.funcs <+: s'.hosts.funcs ∧ s'.hosts.layout = s.hosts.layout
  drafts : ∀ i d, s.drafts[i]? = some d → ∃ d', s'.drafts[i]? = some d' ∧ d'.entry = d.entry
    ∧ d.body <+: d'.body ∧ (s.current ≠ some i ∨ d.term.isSome = true → d' = d)
  current : ∀ i, s'.current = some i → s.current = some i ∨ s.drafts.size ≤ i

theorem lt_size_of_getElem? {xs : Array α} {i : Nat} {a : α} (h : xs[i]? = some a) :
    i < xs.size := by
  rw [Array.getElem?_eq_some_iff] at h
  exact h.1

namespace Extends

variable {s s' s'' : State}

theorem refl (s : State) : Extends s s :=
  ⟨⟨List.prefix_rfl, rfl⟩, fun _ d h => ⟨d, h, rfl, List.prefix_rfl, fun _ => rfl⟩,
    fun _ h => .inl h⟩

theorem size_le (h : Extends s s') : s.drafts.size ≤ s'.drafts.size := by
  by_contra hlt
  have hsome : s.drafts[s'.drafts.size]? = some s.drafts[s'.drafts.size] :=
    Array.getElem?_eq_getElem (by omega)
  obtain ⟨d', hd', -⟩ := h.drafts _ _ hsome
  have := lt_size_of_getElem? hd'
  omega

theorem trans (h : Extends s s') (h' : Extends s' s'') : Extends s s'' := by
  refine ⟨⟨h.hosts.1.trans h'.hosts.1, h'.hosts.2.trans h.hosts.2⟩, fun i d hd => ?_,
    fun i hi => ?_⟩
  · obtain ⟨d', hd', hentry, hbody, hsame⟩ := h.drafts i d hd
    obtain ⟨d'', hd'', hentry', hbody', hsame'⟩ := h'.drafts i d' hd'
    refine ⟨d'', hd'', hentry'.trans hentry, hbody.trans hbody', fun hold => ?_⟩
    obtain rfl := hsame hold
    refine hsame' (hold.imp_left fun hne hcur => ?_)
    rcases h.current i hcur with hcur | hle
    · exact hne hcur
    · have := lt_size_of_getElem? hd
      omega
  · rcases h'.current i hi with hcur | hle
    · exact h.current i hcur
    · have := h.size_le
      exact .inr (by omega)

theorem machine (h : Extends s s') (f : Function) : (s.machine f).Extends (s'.machine f) := by
  refine ⟨rfl, fun i types hi => ?_⟩
  rw [entryTypes?_machine] at hi ⊢
  obtain ⟨d, hd, rfl⟩ := Option.map_eq_some_iff.mp hi
  obtain ⟨d', hd', hentry, -⟩ := h.drafts i d hd
  rw [hd', Option.map_some, hentry]

end Extends

/-! ## Constructs that stay as they are -/

/-- What the walk relies on. -/
structure Walkable (ctx : Context) : Prop where
  formed : ctx.program.Formed
  func : ctx.func.type.Known
  locals : AllKnown ctx.func.locals
  direct : ∀ fn, ctx.analysis.directSafe fn = true → ctx.program.isImport fn = false
  mem : ctx.func ∈ ctx.program.funcs

/-- The code calls no defined functions but those that are kept. -/
def CallsKept (p : Program) (kept : Nat → Prop) (instrs : List Instr) : Prop :=
  ∀ i ∈ instrs, ∀ target, i.operation = .call → i.imm = .call target →
    p.isImport target.toNat = false → kept target.toNat

theorem CallsKept.of_append {p : Program} {kept : Nat → Prop} {is js : List Instr}
    (h : CallsKept p kept (is ++ js)) : CallsKept p kept is ∧ CallsKept p kept js :=
  ⟨fun i hi => h i (List.mem_append_left _ hi), fun i hi => h i (List.mem_append_right _ hi)⟩

/-- The code calls defined functions that are kept, and asks what the function asks. -/
structure Admits (ctx : Context) (kept : Nat → Prop) (instrs : List Instr) : Prop where
  calls : CallsKept ctx.program kept instrs
  asks : ∀ i ∈ instrs, ∀ key, i.hostKey? ctx.program = some key →
    ctx.func.Asks ctx.program key

theorem Admits.of_append {ctx : Context} {kept : Nat → Prop} {is js : List Instr}
    (h : Admits ctx kept (is ++ js)) : Admits ctx kept is ∧ Admits ctx kept js := by
  obtain ⟨hleft, hright⟩ := h.calls.of_append
  exact ⟨⟨hleft, fun i hi => h.asks i (List.mem_append_left _ hi)⟩,
    ⟨hright, fun i hi => h.asks i (List.mem_append_right _ hi)⟩⟩

section Inline

variable {ctx : Context} {kept : Nat → Prop}

/-- Every instruction is right for a block. -/
def InBlock (ctx : Context) (kept : Nat → Prop) (instrs : List Instr) : Prop :=
  ∀ i ∈ instrs, i.IsDirect ctx.program ctx.analysis kept ctx.func.index ∧ i.operation ≠ .ret

theorem InBlock.append {is js : List Instr} (h : InBlock ctx kept is) (h' : InBlock ctx kept js) :
    InBlock ctx kept (is ++ js) := fun i hi =>
  (List.mem_append.mp hi).elim (h i) (h' i)

theorem inBlock_of_canCallDirect (hctx : Walkable ctx) {fn target : Nat}
    (h : ctx.analysis.canCallDirect fn target = true) : ctx.program.isImport target = false := by
  rw [Analysis.canCallDirect, Bool.and_eq_true] at h
  exact hctx.direct target h.1

theorem inlineInstr_spec (hctx : Walkable ctx) {depth : Nat} {i : Instr}
    (h : inlineInstr ctx depth i = .ok true) (hkept : CallsKept ctx.program kept [i]) :
    i.IsDirect ctx.program ctx.analysis kept ctx.func.index ∧ i.operation ≠ .ret := by
  unfold inlineInstr at h
  refine ⟨⟨fun hop => ?_, fun hop => ?_, fun hop => ?_, fun target hop himm => ?_⟩, fun hop => ?_⟩
  all_goals rw [hop] at h
  · cases h
  · cases h
  · cases h
  · rw [himm] at h
    have hdirect : ctx.analysis.canCallDirect ctx.func.index target.toNat = true :=
      Except.ok.inj h
    have himport := inBlock_of_canCallDirect hctx hdirect
    exact ⟨himport, hdirect, hkept i (List.mem_singleton.mpr rfl) target hop himm himport⟩
  · cases h

theorem inlineInstr_typed {f : Function} {p : Program} {inner labels : Program.Labels} {i : Instr}
    {types : TypeStack} {out : Option TypeStack}
    (h : p.TypedInstr f (inner ++ labels) i types out)
    (hinline : inlineInstr ctx inner.length i = .ok true) : p.TypedInstr f inner i types out := by
  have hlabel {depth : Nat} {ts : List ValueType} (hts : (inner ++ labels)[depth]? = some ts)
      (hlt : depth < inner.length) : inner[depth]? = some ts := by
    rwa [List.getElem?_append_left hlt] at hts
  unfold inlineInstr at hinline
  cases h with
  | numeric hop => exact .numeric hop
  | nop hop => exact .nop hop
  | unreachable hop => exact .unreachable hop
  | constant hv => exact .constant hv
  | drop hop => exact .drop hop
  | select hop => exact .select hop
  | localGet hop himm ht => exact .localGet hop himm ht
  | localSet hop himm ht => exact .localSet hop himm ht
  | localTee hop himm ht => exact .localTee hop himm ht
  | globalGet hop himm hg => exact .globalGet hop himm hg
  | globalSet hop himm hg hm => exact .globalSet hop himm hg hm
  | call hop himm hsig => exact .call hop himm hsig
  | callIndirect hop himm ht herr => exact .callIndirect hop himm ht herr
  | memorySize hop => exact .memorySize hop
  | memoryGrow hop => exact .memoryGrow hop
  | br hop himm hts =>
      rw [hop, himm] at hinline
      exact .br hop himm (hlabel hts (of_decide_eq_true (Except.ok.inj hinline)))
  | brIf hop himm hts =>
      rw [hop, himm] at hinline
      exact .brIf hop himm (hlabel hts (of_decide_eq_true (Except.ok.inj hinline)))
  | brTable hop himm hlast hall =>
      rw [hop, himm] at hinline
      have hlt := Except.ok.inj hinline
      rw [Bool.and_eq_true, decide_eq_true_eq, List.all_eq_true] at hlt
      exact .brTable hop himm (hlabel hlast hlt.1)
        fun d hd => hlabel (hall d hd) (of_decide_eq_true (hlt.2 d hd))
  | ret hop => exact .ret hop

theorem bind_ite_eq_ok {x y : Except Abort Bool}
    (h : (do if ← x then y else return false) = .ok true) : x = .ok true ∧ y = .ok true := by
  obtain ⟨b, hb, h⟩ := Program.bind_eq_ok h
  cases b with
  | false => cases h
  | true => exact ⟨hb, h⟩

mutual

theorem inlineNode_spec (hctx : Walkable ctx) : (n : Node) → {depth : Nat} →
    inlineNode ctx depth n = .ok true → CallsKept ctx.program kept n.instrs →
    InBlock ctx kept n.instrs
  | .instr i, depth, h, hkept => by
      rw [inlineNode] at h
      rw [Node.instrs] at hkept ⊢
      intro j hj
      rw [List.mem_singleton.mp hj]
      exact inlineInstr_spec hctx h hkept
  | .block loop sig body, depth, h, hkept => by
      rw [inlineNode] at h
      rw [Node.instrs] at hkept ⊢
      exact inlineSeq_spec hctx body h hkept
  | .ifThen sig body, depth, h, hkept => by
      rw [inlineNode] at h
      rw [Node.instrs] at hkept ⊢
      exact inlineSeq_spec hctx body h hkept
  | .ifElse sig body alternative, depth, h, hkept => by
      rw [inlineNode] at h
      rw [Node.instrs] at hkept ⊢
      obtain ⟨hbody, halternative⟩ := bind_ite_eq_ok h
      exact (inlineSeq_spec hctx body hbody hkept.of_append.1).append
        (inlineSeq_spec hctx alternative halternative hkept.of_append.2)

theorem inlineSeq_spec (hctx : Walkable ctx) : (ns : List Node) → {depth : Nat} →
    inlineSeq ctx depth ns = .ok true → CallsKept ctx.program kept (Body.instrs ns) →
    InBlock ctx kept (Body.instrs ns)
  | [], depth, _, _ => by
      rw [Body.instrs]
      exact nofun
  | n :: ns, depth, h, hkept => by
      rw [inlineSeq] at h
      rw [Body.instrs] at hkept ⊢
      obtain ⟨hn, hns⟩ := bind_ite_eq_ok h
      exact (inlineNode_spec hctx n hn hkept.of_append.1).append
        (inlineSeq_spec hctx ns hns hkept.of_append.2)

end

mutual

theorem inlineNode_typed {p : Program} {f : Function} {labels : Program.Labels} : (n : Node) →
    {inner : Program.Labels} → {types : TypeStack} → {out : Option TypeStack} →
    p.TypedNode f (inner ++ labels) n types out → inlineNode ctx inner.length n = .ok true →
    p.TypedNode f inner n types out
  | .instr i, inner, types, out, h, hinline => by
      rw [inlineNode] at hinline
      cases h with
      | instr hi => exact .instr (inlineInstr_typed hi hinline)
  | .block loop sig body, inner, types, out, h, hinline => by
      rw [inlineNode] at hinline
      cases h with
      | block hsig hbody => exact .block hsig (inlineSeq_typed body hbody hinline)
  | .ifThen sig body, inner, types, out, h, hinline => by
      rw [inlineNode] at hinline
      cases h with
      | ifThen hsig heq hbody => exact .ifThen hsig heq (inlineSeq_typed body hbody hinline)
  | .ifElse sig body alternative, inner, types, out, h, hinline => by
      rw [inlineNode] at hinline
      obtain ⟨hfirst, hsecond⟩ := bind_ite_eq_ok hinline
      cases h with
      | ifElse hsig hbody halternative =>
          exact .ifElse hsig (inlineSeq_typed body hbody hfirst)
            (inlineSeq_typed alternative halternative hsecond)

theorem inlineSeq_typed {p : Program} {f : Function} {labels : Program.Labels} :
    (ns : List Node) → {ts : List ValueType} → {inner : Program.Labels} → {types : TypeStack} →
    {results : List ValueType} → p.TypedSeq f (ts :: (inner ++ labels)) ns types results →
    inlineSeq ctx (inner.length + 1) ns = .ok true → p.TypedSeq f (ts :: inner) ns types results
  | [], ts, inner, types, results, h, _ => by
      cases h with
      | nil => exact .nil
  | n :: ns, ts, inner, types, results, h, hinline => by
      rw [inlineSeq] at hinline
      obtain ⟨hn, hns⟩ := bind_ite_eq_ok hinline
      rw [← List.cons_append] at h
      cases h with
      | cons hnode hrest =>
          exact .cons (inlineNode_typed n hnode hn) (inlineSeq_typed ns hrest hns)
      | last hnode => exact .last (inlineNode_typed n hnode hn)

end

/-- A construct that stays as it is has the same type above other operands and without the
labels around it. -/
theorem inlineNode_frame {p : Program} {f : Function} {labels : Program.Labels} {n : Node}
    {types out : TypeStack} (h : p.TypedNode f labels n types (some out))
    (hinline : inlineNode ctx 0 n = .ok true) (hn : ∀ i, n ≠ .instr i) (outer : TypeStack) :
    p.TypedNode f [] n (outer ++ types) (some (outer ++ out)) := by
  have hnil : p.TypedNode f ([] ++ labels) n types (some out) := h
  have h' : p.TypedNode f [] n types (some out) := inlineNode_typed n hnil hinline
  cases h' with
  | instr _ => exact absurd rfl (hn _)
  | block hsig hbody =>
      rw [← List.append_assoc, ← List.append_assoc]
      exact .block hsig hbody
  | ifThen hsig heq hbody =>
      rw [← List.append_assoc, ← List.append_assoc, ← List.append_assoc]
      exact .ifThen hsig heq hbody
  | ifElse hsig hbody halternative =>
      rw [← List.append_assoc, ← List.append_assoc, ← List.append_assoc]
      exact .ifElse hsig hbody halternative

end Inline

end Split

/-! ## Host functions -/

/-- The host functions stand at their numbers, take what the program says, and are asked by
functions of it, each for another question. -/
structure HostTable.Sound (p : Program) (t : HostTable) : Prop where
  numbered : ∀ (k : Nat) (h : HostFunc), t.funcs[k]? = some h → h.id = .host k.toUInt32
  takes : ∀ h ∈ t.funcs, ∃ sig, Callee.Takes p sig (.host h)
  asked : ∀ h ∈ t.funcs, ∃ f ∈ p.funcs, f.Asks p h.key
  keys : (t.funcs.map (·.key)).Nodup

theorem HostTable.key_request {t t' : HostTable} {key : HostKey} {name : String}
    {params results : List ValueType} {h : HostFunc}
    (hreq : t.request key name params results = (h, t')) : h.key = key := by
  unfold HostTable.request at hreq
  split at hreq
  · next hfind =>
    cases hreq
    have hfound := List.find?_some hfind
    exact beq_iff_eq.mp hfound
  · cases hreq
    rfl

theorem HostTable.request_sound {p : Program} {t : HostTable} (ht : t.Sound p) {key : HostKey}
    {sig : Signature} (hkey : Structured.requestSignature? p (.host key) = some sig)
    (hknown : sig.Known) (hasks : ∃ f ∈ p.funcs, f.Asks p key) (name : String) {h : HostFunc}
    {t' : HostTable} (hreq : t.request key name sig.params sig.results = (h, t')) :
    t'.Sound p ∧ (t.funcs <+: t'.funcs ∧ t'.layout = t.layout) ∧ h ∈ t'.funcs
      ∧ Callee.Takes p sig (.host h) := by
  have hsame := HostTable.key_request hreq
  unfold HostTable.request at hreq
  split at hreq
  · next h₀ hfind =>
    cases hreq
    have hmem := List.mem_of_find?_eq_some hfind
    obtain ⟨sig', htakes⟩ := ht.takes h hmem
    obtain rfl : sig' = sig := by
      have hsig := (htakes.host h rfl).1
      rw [hsame, hkey] at hsig
      exact (Option.some.inj hsig).symm
    exact ⟨ht, ⟨List.prefix_rfl, rfl⟩, hmem, htakes⟩
  · next hfind =>
    cases hreq
    let h : HostFunc := ⟨.host t.funcs.length.toUInt32, key, name, sig.params, sig.results⟩
    have htakes : Callee.Takes p sig (.host h) :=
      ⟨hknown, nofun, by rintro _ ⟨⟩; exact ⟨hkey, rfl, rfl⟩⟩
    refine ⟨⟨fun k g hg => ?_, fun g hg => ?_, fun g hg => ?_, ?_⟩,
      ⟨List.prefix_append _ _, rfl⟩, List.mem_append_right _ (List.mem_singleton.mpr rfl), htakes⟩
    · change (t.funcs ++ [h])[k]? = some g at hg
      by_cases hk : k < t.funcs.length
      · rw [List.getElem?_append_left hk] at hg
        exact ht.numbered k g hg
      · rw [List.getElem?_append_right (by omega)] at hg
        obtain ⟨hzero, rfl⟩ := List.getElem?_eq_some_iff.mp hg
        rw [List.length_singleton] at hzero
        obtain rfl : k = t.funcs.length := by omega
        simp only [Nat.sub_self]
        rfl
    · rcases List.mem_append.mp hg with hg | hg
      · exact ht.takes g hg
      · rw [List.mem_singleton.mp hg]
        exact ⟨sig, htakes⟩
    · rcases List.mem_append.mp hg with hg | hg
      · exact ht.asked g hg
      · rw [List.mem_singleton.mp hg]
        exact hasks
    · rw [List.map_append, List.nodup_append]
      refine ⟨ht.keys, List.nodup_singleton _, fun k hk k' hk' heq => ?_⟩
      obtain ⟨g, hg, hkey⟩ := List.mem_map.mp hk
      have hnot := List.find?_eq_none.mp hfind g hg
      rw [heq, List.mem_singleton.mp hk'] at hkey
      exact hnot (beq_iff_eq.mpr hkey)

namespace Split

/-! ## What holds during the walk -/

/-- What the terminator transfers control to: a host function of the table that the function
asks, or a function that is kept and cannot be called directly. -/
structure Leads (ctx : Context) (kept : Nat → Prop) (hosts : List HostFunc) (t : Terminator) :
    Prop where
  host : ∀ h args results next, t = .host h args results next →
    h ∈ hosts ∧ ctx.func.Asks ctx.program h.key
  call : ∀ callee args results next, t = .call callee args results next →
    kept callee ∧ ctx.analysis.canCallDirect ctx.func.index callee = false

theorem Leads.mono {ctx : Context} {kept : Nat → Prop} {hosts hosts' : List HostFunc}
    {t : Terminator} (h : Leads ctx kept hosts t) (hmore : hosts <+: hosts') :
    Leads ctx kept hosts' t :=
  ⟨fun hf args results next ht => (h.host hf args results next ht).imp_left (hmore.subset ·),
    h.call⟩

/-- The block that returns from the function. -/
def returning (results : List ValueType) : Draft :=
  { entry := results, stack := results, term := some (.ret results) }

/-- The blocks that are finished are typed. -/
structure Drafted (ctx : Context) (kept : Nat → Prop) (s : State) : Prop where
  typed : ∀ (i : Nat) (d : Draft) t, s.drafts[i]? = some d → d.term = some t →
    Block.Typed ctx.program ctx.analysis kept (s.machine ctx.func) ⟨i, d.entry, d.body, d.stack, t⟩
  leads : ∀ (i : Nat) (d : Draft) t, s.drafts[i]? = some d → d.term = some t →
    Leads ctx kept s.hosts.funcs t
  known : ∀ (i : Nat) (d : Draft), s.drafts[i]? = some d → AllKnown d.entry
  returns : ∀ i, s.returnBlock = some i → s.drafts[i]? = some (returning ctx.func.type.results)
  hosts : s.hosts.Sound ctx.program

/-- The current block is not finished, and its code leads to the operands of the walk. -/
structure Open (ctx : Context) (kept : Nat → Prop) (s : State) (i : Nat) : Prop where
  current : s.current = some i
  draft : ∃ d, s.drafts[i]? = some d ∧ d.term = none
    ∧ ctx.program.TypedPath ctx.func d.entry d.body s.stack
    ∧ InBlock ctx kept (Body.instrs d.body)

section Steps

variable {ctx : Context} {kept : Nat → Prop} {s s' : State} {i : Nat}

theorem known_of_typedPath (hctx : Walkable ctx) {entry out : TypeStack} {body : List Node}
    (h : ctx.program.TypedPath ctx.func entry body out) (hentry : AllKnown entry) :
    AllKnown out := by
  induction h with
  | nil => exact hentry
  | snoc _ hn ih => exact typedNode_known hctx.formed hctx.locals hn ih

theorem Open.known (hctx : Walkable ctx) (h : Open ctx kept s i) (hs : Drafted ctx kept s) :
    AllKnown s.stack := by
  obtain ⟨d, hd, -, hpath, -⟩ := h.draft
  exact known_of_typedPath hctx hpath (hs.known i d hd)

theorem Drafted.congr (h : Drafted ctx kept s) (hdrafts : s'.drafts = s.drafts)
    (hreturn : s'.returnBlock = s.returnBlock) (hhosts : s'.hosts = s.hosts) :
    Drafted ctx kept s' := by
  have hmachine : s'.machine ctx.func = s.machine ctx.func := by
    rw [State.machine, State.machine, hdrafts]
  refine ⟨?_, ?_, ?_, ?_, ?_⟩
  · rw [hdrafts, hmachine]; exact h.typed
  · rw [hdrafts, hhosts]; exact h.leads
  · rw [hdrafts]; exact h.known
  · rw [hreturn, hdrafts]; exact h.returns
  · rw [hhosts]; exact h.hosts

/-- The table of host functions has grown. -/
theorem Drafted.withHosts (h : Drafted ctx kept s) {hosts : HostTable}
    (hsound : hosts.Sound ctx.program) (hmore : s.hosts.funcs <+: hosts.funcs) :
    Drafted ctx kept { s with hosts } :=
  ⟨h.typed, fun i d t hd ht => (h.leads i d t hd ht).mono hmore, h.known, h.returns, hsound⟩

theorem Extends.withHosts {hosts : HostTable} (hmore : s.hosts.funcs <+: hosts.funcs)
    (hlayout : hosts.layout = s.hosts.layout) : Extends s { s with hosts } :=
  ⟨⟨hmore, hlayout⟩, (Extends.refl s).drafts, fun _ h => .inl h⟩

/-! ## New blocks -/

/-- The state with an empty block more. -/
def State.push (s : State) (entry : List ValueType) : State :=
  { s with drafts := s.drafts.push { entry } }

theorem getElem?_push_of_lt {entry : List ValueType} {j : Nat} (h : j < s.drafts.size) :
    (s.push entry).drafts[j]? = s.drafts[j]? := by
  rw [State.push, Array.getElem?_push, if_neg (by omega)]

theorem getElem?_push_self (s : State) (entry : List ValueType) :
    (s.push entry).drafts[s.drafts.size]? = some { entry } := by
  rw [State.push, Array.getElem?_push, if_pos rfl]

theorem Extends.push (s : State) (entry : List ValueType) : Extends s (s.push entry) :=
  ⟨⟨List.prefix_rfl, rfl⟩, fun i d hd => ⟨d, by
      rw [getElem?_push_of_lt (lt_size_of_getElem? hd)]; exact hd, rfl, List.prefix_rfl,
      fun _ => rfl⟩, fun _ h => .inl h⟩

theorem of_getElem?_push {entry : List ValueType} {j : Nat} {d : Draft}
    (h : (s.push entry).drafts[j]? = some d) :
    s.drafts[j]? = some d ∨ j = s.drafts.size ∧ d = { entry } := by
  by_cases hj : j < s.drafts.size
  · rw [getElem?_push_of_lt hj] at h
    exact .inl h
  · rw [State.push, Array.getElem?_push] at h
    split at h
    · next heq => cases h; exact .inr ⟨heq, rfl⟩
    · rw [Array.getElem?_eq_none (by omega)] at h
      cases h

theorem Drafted.push (h : Drafted ctx kept s) {entry : List ValueType} (hentry : AllKnown entry) :
    Drafted ctx kept (s.push entry) := by
  have hext := (Extends.push s entry).machine ctx.func
  refine ⟨fun i d t hd ht => ?_, fun i d t hd ht => ?_, fun i d hd => ?_, fun i hi => ?_, h.hosts⟩
  · rcases of_getElem?_push hd with hd | ⟨-, rfl⟩
    · exact (h.typed i d t hd ht).mono hext
    · cases ht
  · rcases of_getElem?_push hd with hd | ⟨-, rfl⟩
    · exact h.leads i d t hd ht
    · cases ht
  · rcases of_getElem?_push hd with hd | ⟨-, rfl⟩
    · exact h.known i d hd
    · exact hentry
  · rw [getElem?_push_of_lt (lt_size_of_getElem? (h.returns i hi))]
    exact h.returns i hi

theorem Open.of_draft (h : Open ctx kept s i) (hcurrent : s'.current = s.current)
    (hstack : s'.stack = s.stack) (hdraft : ∀ d, s.drafts[i]? = some d → s'.drafts[i]? = some d) :
    Open ctx kept s' i := by
  obtain ⟨d, hd, hterm, hpath, hin⟩ := h.draft
  exact ⟨hcurrent.trans h.current, d, hdraft d hd, hterm, by rw [hstack]; exact hpath, hin⟩

/-- A block that nothing has been put into, and that is not the current one. -/
structure Fresh (s : State) (i : Nat) (entry : List ValueType) : Prop where
  draft : s.drafts[i]? = some { entry }
  notCurrent : s.current ≠ some i

theorem Fresh.extends {entry : List ValueType} (h : Fresh s i entry) (hext : Extends s s') :
    Fresh s' i entry := by
  obtain ⟨d', hd', -, -, hsame⟩ := hext.drafts i _ h.draft
  refine ⟨by rw [hd', hsame (.inl h.notCurrent)], fun hcur => ?_⟩
  rcases hext.current i hcur with hcur | hle
  · exact h.notCurrent hcur
  · have := lt_size_of_getElem? h.draft
    omega

/-! ## Changes of the current block -/

/-- The state with a block changed. -/
def State.edit (s : State) (i : Nat) (change : Draft → Draft) : State :=
  { s with drafts := s.drafts.modify i change }

theorem editCurrent_eq (h : s.current = some i) (change : Draft → Draft) :
    editCurrent change s = .ok ((), s.edit i change) := by
  obtain ⟨drafts, current, stack, returnBlock, hosts⟩ := s
  cases h
  rfl

theorem getElem?_edit (s : State) (i j : Nat) (change : Draft → Draft) :
    (s.edit i change).drafts[j]? = if i = j then s.drafts[j]?.map change else s.drafts[j]? := by
  rw [State.edit, Array.getElem?_modify]

theorem Extends.edit {change : Draft → Draft} {d : Draft} (hcurrent : s.current = some i)
    (hd : s.drafts[i]? = some d) (hterm : d.term = none) (hentry : (change d).entry = d.entry)
    (hbody : d.body <+: (change d).body) : Extends s (s.edit i change) := by
  refine ⟨⟨List.prefix_rfl, rfl⟩, fun j e he => ?_, fun _ h => .inl h⟩
  rw [getElem?_edit]
  split
  · next heq =>
    subst heq
    rw [hd] at he
    cases he
    refine ⟨change d, by rw [hd]; rfl, hentry, hbody, fun hold => ?_⟩
    rcases hold with hne | hsome
    · exact absurd hcurrent hne
    · rw [hterm] at hsome
      cases hsome
  · exact ⟨e, he, rfl, List.prefix_rfl, fun _ => rfl⟩

theorem machine_edit {change : Draft → Draft} {d : Draft} (hd : s.drafts[i]? = some d)
    (hentry : (change d).entry = d.entry) (f : Function) :
    (s.machine f).Extends ((s.edit i change).machine f) := by
  refine ⟨rfl, fun j types hj => ?_⟩
  rw [entryTypes?_machine] at hj ⊢
  rw [getElem?_edit]
  split
  · next heq =>
    subst heq
    rw [hd] at hj ⊢
    rw [← hj]
    exact congrArg some hentry
  · exact hj

theorem Drafted.edit (h : Drafted ctx kept s) {change : Draft → Draft} {d : Draft}
    (hd : s.drafts[i]? = some d) (hnone : d.term = none) (hentry : (change d).entry = d.entry)
    (hterm : ∀ t, (change d).term = some t → Block.Typed ctx.program ctx.analysis kept
        (s.machine ctx.func) ⟨i, (change d).entry, (change d).body, (change d).stack, t⟩
      ∧ Leads ctx kept s.hosts.funcs t) :
    Drafted ctx kept (s.edit i change) := by
  have hmachine := machine_edit hd hentry ctx.func
  have hcases {j : Nat} {e : Draft} (he : (s.edit i change).drafts[j]? = some e) :
      s.drafts[j]? = some e ∨ j = i ∧ e = change d := by
    rw [getElem?_edit] at he
    split at he
    · next heq =>
      subst heq
      rw [hd] at he
      cases he
      exact .inr ⟨rfl, rfl⟩
    · exact .inl he
  refine ⟨fun j e t he ht => ?_, fun j e t he ht => ?_, fun j e he => ?_, fun j hj => ?_, h.hosts⟩
  · rcases hcases he with he | ⟨rfl, rfl⟩
    · exact (h.typed j e t he ht).mono hmachine
    · exact (hterm t ht).1.mono hmachine
  · rcases hcases he with he | ⟨rfl, rfl⟩
    · exact h.leads j e t he ht
    · exact (hterm t ht).2
  · rcases hcases he with he | ⟨rfl, rfl⟩
    · exact h.known j e he
    · rw [hentry]
      exact h.known _ d hd
  · -- The block that returns is finished.
    have hret := h.returns j hj
    rw [getElem?_edit, if_neg, hret]
    rintro rfl
    rw [hd] at hret
    cases hret
    cases hnone

/-- The current block with its terminator. -/
def State.closed (s : State) (i : Nat) (term : Terminator) : State :=
  s.edit i fun d => { d with stack := s.stack, term := some term }

theorem Extends.closed (h : Open ctx kept s i) (term : Terminator) : Extends s (s.closed i term) := by
  obtain ⟨d, hd, hterm, -⟩ := h.draft
  exact .edit h.current hd hterm rfl List.prefix_rfl

theorem Drafted.closed (hctx : Walkable ctx) (hs : Drafted ctx kept s) (h : Open ctx kept s i)
    {term : Terminator} (hterm : term.Typed ctx.program (s.machine ctx.func) s.stack)
    (hleads : Leads ctx kept s.hosts.funcs term) : Drafted ctx kept (s.closed i term) := by
  obtain ⟨d, hd, hnone, hpath, hin⟩ := h.draft
  refine hs.edit hd hnone rfl ?_
  rintro t ⟨⟩
  exact ⟨⟨hpath.typedSeq, fun j hj => (hin j hj).1, fun j hj => (hin j hj).2, h.known hctx hs, hterm⟩,
    hleads⟩

/-- The walk goes on in a block that was set aside. -/
theorem Open.enter {entry : List ValueType} (h : s.drafts[i]? = some { entry }) :
    Open ctx kept { s with current := some i, stack := entry } i :=
  ⟨rfl, { entry }, h, rfl, .nil, nofun⟩

theorem enter_eq {entry : List ValueType} (h : s.drafts[i]? = some { entry }) :
    Split.enter i s = .ok ((), { s with current := some i, stack := entry }) := by
  have hget : (s.drafts.getD i default).entry = entry := by
    rw [Array.getD_eq_getD_getElem?, h]
    rfl
  change Except.ok ((), { s with
    current := some i, stack := (s.drafts.getD i default).entry }) = _
  rw [hget]

theorem Extends.enter {s₀ : State} (h : Extends s₀ s) (hi : s₀.drafts.size ≤ i) (stack : TypeStack) :
    Extends s₀ { s with current := some i, stack } :=
  ⟨h.hosts, h.drafts, by rintro j ⟨⟩; exact .inr hi⟩

theorem Extends.leave (h : Extends s s') (stack : TypeStack) :
    Extends s { s' with current := none, stack } :=
  ⟨h.hosts, h.drafts, nofun⟩

/-- A node at the end of the current block. -/
def State.appended (s : State) (i : Nat) (n : Node) (stack : TypeStack) : State :=
  { s.edit i fun d => { d with body := d.body ++ [n] } with stack }

theorem appended_spec (hs : Drafted ctx kept s) (h : Open ctx kept s i) {n : Node} {out : TypeStack}
    (hn : ctx.program.TypedNode ctx.func [] n s.stack (some out))
    (hin : InBlock ctx kept n.instrs) :
    Drafted ctx kept (s.appended i n out) ∧ Extends s (s.appended i n out)
      ∧ Open ctx kept (s.appended i n out) i := by
  obtain ⟨d, hd, hterm, hpath, hbody⟩ := h.draft
  have hext : Extends s (s.edit i fun d => { d with body := d.body ++ [n] }) :=
    .edit h.current hd hterm rfl (List.prefix_append _ _)
  have hedit : Drafted ctx kept (s.edit i fun d => { d with body := d.body ++ [n] }) := by
    refine hs.edit hd hterm rfl fun t ht => ?_
    rw [hterm] at ht
    cases ht
  refine ⟨hedit.congr rfl rfl rfl, ⟨hext.hosts, hext.drafts, fun _ hj => .inl hj⟩,
    h.current, { d with body := d.body ++ [n] }, ?_, hterm, hpath.snoc hn, ?_⟩
  · change (s.edit i _).drafts[i]? = _
    rw [getElem?_edit, if_pos rfl, hd]
    rfl
  · rw [instrs_append, instrs_singleton]
    exact hbody.append hin

end Steps

end Split

end WasmShader
