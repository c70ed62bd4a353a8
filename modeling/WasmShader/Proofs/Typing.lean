import Mathlib
import WasmShader.Program.Check

/-!
# Typing derivations

`Program.check` is a function; this module gives the rules it follows, as derivations that
proofs can go along. A derivation says of an instruction, node or sequence which operand
types it finds and which it leaves, or that control never gets behind it. A body that has
been checked has one, provided that it is formed: every instruction has an immediate of its
kind, no code stands behind an instruction that control does not pass, and all types are
among the five that have a representation.
-/

namespace WasmShader

/-! ## Formed bodies -/

/-- The immediate is of the kind that the operation takes. -/
def Instr.isFormed (i : Instr) : Bool :=
  match i.operation, i.imm with
  | .br, .branch _ | .brIf, .branch _ | .brTable, .branchTable _ _ | .call, .call _
  | .callIndirect, .callIndirect _ _ | .localGet, .localVar _ | .localSet, .localVar _
  | .localTee, .localVar _ | .globalGet, .globalVar _ | .globalSet, .globalVar _
  | .i32Const, .i32 _ | .i64Const, .i64 _ | .f32Const, .f32 _ | .f64Const, .f64 _
  | .vector, .v128 _ _ => true
  | .br, _ | .brIf, _ | .brTable, _ | .call, _ | .callIndirect, _ | .localGet, _
  | .localSet, _ | .localTee, _ | .globalGet, _ | .globalSet, _ | .i32Const, _ | .i64Const, _
  | .f32Const, _ | .f64Const, _ | .vector, _ => false
  | _, _ => true

/-- The instruction of an opcode is in the table. -/
theorem mem_table_of_operation {i : Instr} {op : NumericOp} (h : i.operation = .numeric op) :
    op ∈ NumericOp.table.toList := by
  unfold Instr.operation Operation.ofOpcode at h
  split at h
  all_goals first | cases h | skip
  split at h
  · cases h
  · split at h
    · next hop =>
      cases h
      unfold NumericOp.ofOpcode? at hop
      split at hop
      · cases hop
      · exact Array.mem_toList_iff.mpr (Array.mem_of_getElem? hop)
    · cases h

/-- All types have a representation. -/
def AllKnown (types : List ValueType) : Prop := ∀ t ∈ types, t.isKnown = true

theorem AllKnown.append {ts us : List ValueType} (h : AllKnown ts) (h' : AllKnown us) :
    AllKnown (ts ++ us) := fun t ht => (List.mem_append.mp ht).elim (h t) (h' t)

theorem AllKnown.of_append {ts us : List ValueType} (h : AllKnown (ts ++ us)) :
    AllKnown ts ∧ AllKnown us :=
  ⟨fun t ht => h t (List.mem_append_left _ ht), fun t ht => h t (List.mem_append_right _ ht)⟩

theorem AllKnown.take {ts : List ValueType} (h : AllKnown ts) (n : Nat) : AllKnown (ts.take n) :=
  fun t ht => h t (List.mem_of_mem_take ht)

theorem AllKnown.drop {ts : List ValueType} (h : AllKnown ts) (n : Nat) : AllKnown (ts.drop n) :=
  fun t ht => h t (List.mem_of_mem_drop ht)

theorem AllKnown.singleton {t : ValueType} (h : t.isKnown = true) : AllKnown [t] :=
  fun _ hu => List.mem_singleton.mp hu ▸ h

theorem known_of_mem_table {op : NumericOp} (h : op ∈ NumericOp.table.toList) :
    AllKnown op.signature.results := by
  have hall : ∀ op ∈ NumericOp.table.toList, ∀ t ∈ op.signature.results, t.isKnown = true := by
    decide +kernel
  exact hall op h

structure Signature.Known (s : Signature) : Prop where
  params : AllKnown s.params
  results : AllKnown s.results

/-- Control never passes on behind the node. -/
def Node.isTerminal : Node → Bool
  | .instr i => i.operation.isTerminal
  | _ => false

mutual

/-- The node is formed. -/
def Node.Formed : Node → Prop
  | .instr i => i.isFormed = true
  | .block _ sig body => sig.Known ∧ Body.Formed body
  | .ifThen sig body => sig.Known ∧ Body.Formed body
  | .ifElse sig body alternative => sig.Known ∧ Body.Formed body ∧ Body.Formed alternative

/-- All nodes are formed, and nothing stands behind a terminal one. -/
def Body.Formed : List Node → Prop
  | [] => True
  | n :: ns => n.Formed ∧ (n.isTerminal = true → ns = []) ∧ Body.Formed ns

end

/-! ## Rules -/

/-- The instruction pushes a constant. -/
inductive Instr.Constant (i : Instr) : Value → Prop
  | i32 {v : Int32} : i.operation = .i32Const → i.imm = .i32 v → i.Constant (.ofI32 v)
  | i64 {v : Int64} : i.operation = .i64Const → i.imm = .i64 v → i.Constant (.ofI64 v)
  | f32 {b : UInt32} : i.operation = .f32Const → i.imm = .f32 b → i.Constant (.ofBits32 b)
  | f64 {b : UInt64} : i.operation = .f64Const → i.imm = .f64 b → i.Constant (.ofBits64 b)
  | v128 {lo hi : UInt64} : i.operation = .vector → i.imm = .v128 lo hi →
      i.Constant (.ofV128 lo hi)

theorem Instr.Constant.known {i : Instr} {v : Value} (h : i.Constant v) :
    v.type.isKnown = true := by
  cases h <;> rfl

namespace Program

/-- An instruction that finds the types of one stack and leaves those of another, or is
never passed. The types in `labels` are what the labels around it carry. -/
inductive TypedInstr (p : Program) (f : Function) (labels : Labels) (i : Instr) :
    TypeStack → Option TypeStack → Prop
  | numeric {op : NumericOp} {rest : TypeStack} : i.operation = .numeric op →
      TypedInstr p f labels i (rest ++ op.signature.params) (some (rest ++ op.signature.results))
  | nop {stack : TypeStack} : i.operation = .nop → TypedInstr p f labels i stack (some stack)
  | unreachable {stack : TypeStack} : i.operation = .unreachable →
      TypedInstr p f labels i stack none
  | constant {v : Value} {stack : TypeStack} : i.Constant v →
      TypedInstr p f labels i stack (some (stack ++ [v.type]))
  | drop {t : ValueType} {rest : TypeStack} : i.operation = .drop →
      TypedInstr p f labels i (rest ++ [t]) (some rest)
  | select {t : ValueType} {rest : TypeStack} : i.operation = .select →
      TypedInstr p f labels i (rest ++ [t, t, .i32]) (some (rest ++ [t]))
  | localGet {idx : UInt32} {t : ValueType} {stack : TypeStack} : i.operation = .localGet →
      i.imm = .localVar idx → f.locals[idx.toNat]? = some t →
      TypedInstr p f labels i stack (some (stack ++ [t]))
  | localSet {idx : UInt32} {t : ValueType} {rest : TypeStack} : i.operation = .localSet →
      i.imm = .localVar idx → f.locals[idx.toNat]? = some t →
      TypedInstr p f labels i (rest ++ [t]) (some rest)
  | localTee {idx : UInt32} {t : ValueType} {rest : TypeStack} : i.operation = .localTee →
      i.imm = .localVar idx → f.locals[idx.toNat]? = some t →
      TypedInstr p f labels i (rest ++ [t]) (some (rest ++ [t]))
  | globalGet {idx : UInt32} {g : Global} {stack : TypeStack} : i.operation = .globalGet →
      i.imm = .globalVar idx → p.globals[idx.toNat]? = some g →
      TypedInstr p f labels i stack (some (stack ++ [g.type]))
  | globalSet {idx : UInt32} {g : Global} {rest : TypeStack} : i.operation = .globalSet →
      i.imm = .globalVar idx → p.globals[idx.toNat]? = some g → g.isMutable = true →
      TypedInstr p f labels i (rest ++ [g.type]) (some rest)
  | call {target : UInt32} {sig : Signature} {rest : TypeStack} : i.operation = .call →
      i.imm = .call target → p.signature? target.toNat = some sig →
      TypedInstr p f labels i (rest ++ sig.params) (some (rest ++ sig.results))
  | callIndirect {typeIdx table : UInt32} {t : TypeEntry} {rest : TypeStack} :
      i.operation = .callIndirect → i.imm = .callIndirect typeIdx table →
      p.types[typeIdx.toNat]? = some t → t.err = none →
      TypedInstr p f labels i (rest ++ (t.sig.params ++ [.i32])) (some (rest ++ t.sig.results))
  | memorySize {stack : TypeStack} : i.operation = .memorySize →
      TypedInstr p f labels i stack (some (stack ++ [.i32]))
  | memoryGrow {rest : TypeStack} : i.operation = .memoryGrow →
      TypedInstr p f labels i (rest ++ [.i32]) (some (rest ++ [.i32]))
  | br {depth : UInt32} {types : List ValueType} {rest : TypeStack} : i.operation = .br →
      i.imm = .branch depth → labels[depth.toNat]? = some types →
      TypedInstr p f labels i (rest ++ types) none
  | brIf {depth : UInt32} {types : List ValueType} {rest : TypeStack} : i.operation = .brIf →
      i.imm = .branch depth → labels[depth.toNat]? = some types →
      TypedInstr p f labels i (rest ++ types ++ [.i32]) (some (rest ++ types))
  | brTable {depths : List UInt32} {fallback : UInt32} {types : List ValueType}
      {rest : TypeStack} : i.operation = .brTable → i.imm = .branchTable depths fallback →
      labels[fallback.toNat]? = some types →
      (∀ depth ∈ depths, labels[depth.toNat]? = some types) →
      TypedInstr p f labels i (rest ++ types ++ [.i32]) none
  | ret {rest : TypeStack} : i.operation = .ret →
      TypedInstr p f labels i (rest ++ f.type.results) none

mutual

/-- A node that finds the types of one stack and leaves those of another, or is never
passed. -/
inductive TypedNode (p : Program) (f : Function) :
    Labels → Node → TypeStack → Option TypeStack → Prop
  | instr {labels : Labels} {i : Instr} {stack : TypeStack} {out : Option TypeStack} :
      TypedInstr p f labels i stack out → TypedNode p f labels (.instr i) stack out
  | block {labels : Labels} {loop : Bool} {sig : Signature} {body : List Node}
      {outer : TypeStack} : sig.Known →
      TypedSeq p f (labelTypes loop sig :: labels) body sig.params sig.results →
      TypedNode p f labels (.block loop sig body) (outer ++ sig.params)
        (some (outer ++ sig.results))
  | ifThen {labels : Labels} {sig : Signature} {body : List Node} {outer : TypeStack} :
      sig.Known → sig.params = sig.results →
      TypedSeq p f (sig.results :: labels) body sig.params sig.results →
      TypedNode p f labels (.ifThen sig body) (outer ++ sig.params ++ [.i32])
        (some (outer ++ sig.results))
  | ifElse {labels : Labels} {sig : Signature} {body alternative : List Node}
      {outer : TypeStack} : sig.Known →
      TypedSeq p f (sig.results :: labels) body sig.params sig.results →
      TypedSeq p f (sig.results :: labels) alternative sig.params sig.results →
      TypedNode p f labels (.ifElse sig body alternative) (outer ++ sig.params ++ [.i32])
        (some (outer ++ sig.results))

/-- A sequence that finds the types of a stack and, if it is passed, leaves exactly
`results`. -/
inductive TypedSeq (p : Program) (f : Function) :
    Labels → List Node → TypeStack → List ValueType → Prop
  | nil {labels : Labels} {results : List ValueType} : TypedSeq p f labels [] results results
  | cons {labels : Labels} {n : Node} {ns : List Node} {stack mid : TypeStack}
      {results : List ValueType} : TypedNode p f labels n stack (some mid) →
      TypedSeq p f labels ns mid results → TypedSeq p f labels (n :: ns) stack results
  | last {labels : Labels} {n : Node} {stack : TypeStack} {results : List ValueType} :
      TypedNode p f labels n stack none → TypedSeq p f labels [n] stack results

end

/-! ## Checked code is typed -/

theorem bind_eq_ok {ε α β : Type} {x : Except ε α} {k : α → Except ε β} {b : β}
    (h : (x >>= k) = .ok b) : ∃ a, x = .ok a ∧ k a = .ok b := by
  cases x with
  | error e => cases h
  | ok a => exact ⟨a, rfl, h⟩

theorem liftFailure_eq_ok {α : Type} {x : Except Failure α} {a : α}
    (h : liftFailure x = .ok a) : x = .ok a := by
  cases x with
  | error e => cases h
  | ok b => cases h; rfl

theorem firstMismatch_eq_none {want got : List ValueType} (hlen : want.length = got.length)
    (h : TypeStack.firstMismatch want got = none) : want = got := by
  induction want generalizing got with
  | nil => exact (List.length_eq_zero_iff.mp hlen.symm).symm
  | cons w ws ih =>
      cases got with
      | nil => cases hlen
      | cons g gs =>
          rw [TypeStack.firstMismatch] at h
          split at h
          · next heq => rw [heq, ih (Nat.succ.inj hlen) h]
          · cases h

theorem below_append_top (s : TypeStack) (n : Nat) : s.below n ++ s.top n = s :=
  List.take_append_drop _ s

/-- Taking types off a stack that succeeds finds them on top. -/
theorem pop_eq_ok {func : String} {want : List ValueType} {s rest : TypeStack}
    (h : TypeStack.pop func want s = .ok rest) : s = rest ++ want := by
  rw [TypeStack.pop] at h
  split at h
  · cases h
  · next hlen =>
    split at h
    · cases h
    · next hmatch =>
      cases h
      have htop : want = s.top want.length := by
        refine firstMismatch_eq_none ?_ hmatch
        rw [TypeStack.top, List.length_drop]
        omega
      calc s = s.below want.length ++ s.top want.length := (below_append_top s _).symm
        _ = s.below want.length ++ want := by rw [← htop]

theorem apply_eq_ok {func : String} {e : Effect} {s out : TypeStack}
    (h : TypeStack.apply func e s = .ok out) :
    ∃ rest, s = rest ++ e.pops ∧ out = rest ++ e.pushes := by
  obtain ⟨rest, hpop, hout⟩ := bind_eq_ok h
  cases hout
  exact ⟨rest, pop_eq_ok hpop, rfl⟩

theorem firstMismatch_self (ts : List ValueType) : TypeStack.firstMismatch ts ts = none := by
  induction ts with
  | nil => rfl
  | cons t ts ih => rw [TypeStack.firstMismatch, if_pos rfl, ih]

/-- What stands on top can be taken off. -/
theorem pop_append {func : String} (rest : TypeStack) (want : List ValueType) :
    TypeStack.pop func want (rest ++ want) = .ok rest := by
  have hlen : (rest ++ want).length - want.length = rest.length := by simp
  rw [TypeStack.pop, if_neg (by simp), TypeStack.top, TypeStack.below, hlen, List.drop_left,
    firstMismatch_self, List.take_left]

theorem apply_append {func : String} (rest : TypeStack) (e : Effect) :
    TypeStack.apply func e (rest ++ e.pops) = .ok (rest ++ e.pushes) := by
  rw [TypeStack.apply, pop_append]
  rfl

theorem carries_eq_ok {f : Function} {stack : TypeStack} {want : List ValueType} {u : Unit}
    (h : carries f stack want = .ok u) : ∃ rest, stack = rest ++ want := by
  rw [carries] at h
  split at h
  · cases h
  · next hc =>
    rw [Bool.or_eq_true, decide_eq_true_eq, decide_eq_true_eq, not_or, Classical.not_not] at hc
    refine ⟨stack.below want.length, ?_⟩
    calc stack = stack.below want.length ++ stack.top want.length := (below_append_top stack _).symm
      _ = stack.below want.length ++ want := by rw [hc.2]

theorem labelAt_eq_ok {f : Function} {labels : Labels} {depth : UInt32} {types : List ValueType}
    (h : labelAt f labels depth = .ok types) : labels[depth.toNat]? = some types := by
  rw [labelAt] at h
  split at h
  · next heq => cases h; exact heq
  · cases h

theorem checkLabels_eq_ok {f : Function} {labels : Labels} {want : List ValueType}
    {depths : List UInt32} {u : Unit} (h : checkLabels f labels want depths = .ok u) :
    ∀ depth ∈ depths, labels[depth.toNat]? = some want := by
  induction depths with
  | nil => intro d hd; cases hd
  | cons d ds ih =>
      rw [checkLabels] at h
      obtain ⟨types, hat, hrest⟩ := bind_eq_ok h
      split at hrest
      · cases hrest
      · next hne =>
        rw [ne_eq, Classical.not_not] at hne
        intro depth hmem
        cases hmem with
        | head => rw [labelAt_eq_ok hat, hne]
        | tail _ hmem => exact ih hrest depth hmem

theorem localType_eq_ok {f : Function} {imm : Immediate} {t : ValueType}
    (h : localType f imm = .ok t) :
    ∃ idx, imm = .localVar idx ∧ f.locals[idx.toNat]? = some t := by
  unfold localType at h
  split at h
  · next idx =>
    split at h
    · next heq => cases h; exact ⟨idx, rfl, heq⟩
    · cases h
  · cases h

theorem globalAt_eq_ok {p : Program} {f : Function} {imm : Immediate} {n : Nat} {g : Global}
    (h : p.globalAt f imm = .ok (n, g)) :
    ∃ idx, imm = .globalVar idx ∧ n = idx.toNat ∧ p.globals[idx.toNat]? = some g := by
  unfold globalAt at h
  split at h
  · next idx =>
    split at h
    · next heq => cases h; exact ⟨idx, rfl, rfl, heq⟩
    · cases h
  · cases h

theorem calleeSignature_eq_ok {p : Program} {f : Function} {imm : Immediate} {sig : Signature}
    (h : p.calleeSignature f imm = .ok sig) :
    ∃ target, imm = .call target ∧ p.signature? target.toNat = some sig := by
  unfold calleeSignature at h
  split at h
  · next target =>
    split at h
    · next heq => cases h; exact ⟨target, rfl, heq⟩
    · cases h
  · cases h

theorem indirectSignature_eq_ok {p : Program} {f : Function} {imm : Immediate}
    {sig : Signature} (h : p.indirectSignature f imm = .ok sig) :
    ∃ typeIdx table t, imm = .callIndirect typeIdx table ∧ p.types[typeIdx.toNat]? = some t
      ∧ t.err = none ∧ sig = t.sig := by
  unfold indirectSignature at h
  split at h
  · next typeIdx table =>
    split at h
    · cases h
    · next t heq =>
      split at h
      · cases h
      · next herr => cases h; exact ⟨typeIdx, table, t, rfl, heq, herr, rfl⟩
  · cases h

/-- The effect of an instruction that is not a branch, with the derivation it gives. -/
theorem typedInstr_of_effect {p : Program} {f : Function} {labels : Labels} {i : Instr}
    {e : Effect} {rest : TypeStack} (hformed : i.isFormed = true)
    (hterm : i.operation.isTerminal = false) (hne : i.operation ≠ .brIf)
    (he : p.effect f i (rest ++ e.pops) = .ok e) :
    TypedInstr p f labels i (rest ++ e.pops) (some (rest ++ e.pushes)) := by
  rw [effect] at he
  unfold Instr.isFormed at hformed
  cases hop : i.operation with
  | numeric op => simp only [hop] at he; cases he; exact .numeric hop
  | nop => simp only [hop] at he; cases he; simpa using TypedInstr.nop hop
  | unreachable => rw [hop] at hterm; cases hterm
  | br => rw [hop] at hterm; cases hterm
  | brTable => rw [hop] at hterm; cases hterm
  | ret => rw [hop] at hterm; cases hterm
  | brIf => exact absurd hop hne
  | i32Const =>
      simp only [hop] at he hformed; cases he
      cases himm : i.imm with
      | i32 v => rw [List.append_nil]; exact .constant (.i32 hop himm)
      | _ => rw [himm] at hformed; cases hformed
  | i64Const =>
      simp only [hop] at he hformed; cases he
      cases himm : i.imm with
      | i64 v => rw [List.append_nil]; exact .constant (.i64 hop himm)
      | _ => rw [himm] at hformed; cases hformed
  | f32Const =>
      simp only [hop] at he hformed; cases he
      cases himm : i.imm with
      | f32 v => rw [List.append_nil]; exact .constant (.f32 hop himm)
      | _ => rw [himm] at hformed; cases hformed
  | f64Const =>
      simp only [hop] at he hformed; cases he
      cases himm : i.imm with
      | f64 v => rw [List.append_nil]; exact .constant (.f64 hop himm)
      | _ => rw [himm] at hformed; cases hformed
  | vector =>
      simp only [hop] at he hformed; cases he
      cases himm : i.imm with
      | v128 lo hi => rw [List.append_nil]; exact .constant (.v128 hop himm)
      | _ => rw [himm] at hformed; cases hformed
  | drop =>
      simp only [hop] at he
      split at he
      · cases he
      · cases he; simpa using TypedInstr.drop hop
  | select =>
      simp only [hop] at he
      split at he
      · cases he
      · obtain ⟨t, _, ht⟩ := bind_eq_ok he
        cases ht
        exact .select hop
  | localGet =>
      simp only [hop] at he
      obtain ⟨t, ht, hout⟩ := bind_eq_ok he
      cases hout
      obtain ⟨idx, himm, hidx⟩ := localType_eq_ok ht
      simpa using TypedInstr.localGet hop himm hidx
  | localSet =>
      simp only [hop] at he
      obtain ⟨t, ht, hout⟩ := bind_eq_ok he
      cases hout
      obtain ⟨idx, himm, hidx⟩ := localType_eq_ok ht
      simpa using TypedInstr.localSet hop himm hidx
  | localTee =>
      simp only [hop] at he
      obtain ⟨t, ht, hout⟩ := bind_eq_ok he
      cases hout
      obtain ⟨idx, himm, hidx⟩ := localType_eq_ok ht
      exact .localTee hop himm hidx
  | globalGet =>
      simp only [hop] at he
      obtain ⟨⟨_, g⟩, hg, hout⟩ := bind_eq_ok he
      cases hout
      obtain ⟨idx, himm, _, hidx⟩ := globalAt_eq_ok hg
      simpa using TypedInstr.globalGet hop himm hidx
  | globalSet =>
      simp only [hop] at he
      obtain ⟨⟨_, g⟩, hg, hout⟩ := bind_eq_ok he
      obtain ⟨idx, himm, _, hidx⟩ := globalAt_eq_ok hg
      dsimp only at hout
      split at hout
      · next hmut => cases hout; simpa using TypedInstr.globalSet hop himm hidx hmut
      · cases hout
  | call =>
      simp only [hop] at he
      obtain ⟨sig, hsig, hout⟩ := bind_eq_ok he
      cases hout
      obtain ⟨target, himm, htarget⟩ := calleeSignature_eq_ok hsig
      exact .call hop himm htarget
  | callIndirect =>
      simp only [hop] at he
      obtain ⟨sig, hsig, hout⟩ := bind_eq_ok he
      cases hout
      obtain ⟨typeIdx, table, t, himm, ht, herr, rfl⟩ := indirectSignature_eq_ok hsig
      exact .callIndirect hop himm ht herr
  | memorySize => simp only [hop] at he; cases he; simpa using TypedInstr.memorySize hop
  | memoryGrow => simp only [hop] at he; cases he; exact .memoryGrow hop
  | memoryAccess => simp only [hop] at he; cases he
  | block => simp only [hop] at he; cases he
  | loop => simp only [hop] at he; cases he
  | ifElse => simp only [hop] at he; cases he
  | elseMark => simp only [hop] at he; cases he
  | endMark => simp only [hop] at he; cases he
  | unknown => simp only [hop] at he; cases he

/-- A checked instruction is typed. -/
theorem typedInstr_of_check {p : Program} {f : Function} {labels : Labels} {i : Instr}
    {stack : TypeStack} {out : Option TypeStack} (hformed : i.isFormed = true)
    (h : p.checkInstr f labels i stack = .ok out) : TypedInstr p f labels i stack out := by
  rw [checkInstr] at h
  obtain ⟨e, he, h⟩ := bind_eq_ok h
  obtain ⟨after, hafter, h⟩ := bind_eq_ok h
  obtain ⟨rest, rfl, rfl⟩ := apply_eq_ok (liftFailure_eq_ok hafter)
  cases hop : i.operation with
  | br =>
      simp only [hop] at h
      simp only [effect, hop] at he
      cases he
      split at h
      · next depth himm =>
        obtain ⟨types, htypes, h⟩ := bind_eq_ok h
        obtain ⟨_, hcarries, h⟩ := bind_eq_ok h
        cases h
        obtain ⟨below, hbelow⟩ := carries_eq_ok hcarries
        simp only [List.append_nil] at hbelow ⊢
        rw [hbelow]
        exact .br hop himm (labelAt_eq_ok htypes)
      · cases h
  | brIf =>
      simp only [hop] at h
      simp only [effect, hop] at he
      cases he
      split at h
      · next depth himm =>
        obtain ⟨types, htypes, h⟩ := bind_eq_ok h
        obtain ⟨_, hcarries, h⟩ := bind_eq_ok h
        cases h
        obtain ⟨below, hbelow⟩ := carries_eq_ok hcarries
        simp only [List.append_nil] at hbelow ⊢
        rw [hbelow]
        exact .brIf hop himm (labelAt_eq_ok htypes)
      · cases h
  | brTable =>
      simp only [hop] at h
      simp only [effect, hop] at he
      cases he
      split at h
      · next depths fallback himm =>
        obtain ⟨types, htypes, h⟩ := bind_eq_ok h
        obtain ⟨_, hlabels, h⟩ := bind_eq_ok h
        obtain ⟨_, hcarries, h⟩ := bind_eq_ok h
        cases h
        obtain ⟨below, hbelow⟩ := carries_eq_ok hcarries
        simp only [List.append_nil] at hbelow ⊢
        rw [hbelow]
        exact .brTable hop himm (labelAt_eq_ok htypes) (checkLabels_eq_ok hlabels)
      · cases h
  | ret =>
      simp only [hop] at h
      simp only [effect, hop] at he
      cases he
      obtain ⟨_, hcarries, h⟩ := bind_eq_ok h
      cases h
      obtain ⟨below, hbelow⟩ := carries_eq_ok hcarries
      simp only [List.append_nil] at hbelow ⊢
      rw [hbelow]
      exact .ret hop
  | unreachable => simp only [hop] at h; cases h; exact .unreachable hop
  | _ =>
      simp only [hop] at h
      cases h
      exact typedInstr_of_effect hformed (by rw [hop]; rfl) (by rw [hop]; simp) he

/-- Only what control does not pass leaves no stack behind. -/
theorem isTerminal_of_typedInstr_none {p : Program} {f : Function} {labels : Labels} {i : Instr}
    {stack : TypeStack} (h : TypedInstr p f labels i stack none) :
    i.operation.isTerminal = true := by
  cases h with
  | unreachable hop => rw [hop]; rfl
  | br hop => rw [hop]; rfl
  | brTable hop => rw [hop]; rfl
  | ret hop => rw [hop]; rfl

theorem isTerminal_of_typedNode_none {p : Program} {f : Function} {labels : Labels} {n : Node}
    {stack : TypeStack} (h : TypedNode p f labels n stack none) : n.isTerminal = true := by
  cases h with
  | instr hi => exact isTerminal_of_typedInstr_none hi

mutual

/-- A checked node is typed. -/
theorem typedNode_of_check {p : Program} {f : Function} :
    (n : Node) → {labels : Labels} → {stack : TypeStack} → {out : Option TypeStack} →
    n.Formed → p.checkNode f labels n stack = .ok out → TypedNode p f labels n stack out
  | .instr i, labels, stack, out, hformed, h => by
      rw [Node.Formed] at hformed
      rw [checkNode] at h
      exact .instr (typedInstr_of_check hformed h)
  | .block loop sig body, labels, stack, out, hformed, h => by
      rw [Node.Formed] at hformed
      rw [checkNode] at h
      obtain ⟨outer, houter, h⟩ := bind_eq_ok h
      obtain ⟨_, hbody, h⟩ := bind_eq_ok h
      cases h
      rw [pop_eq_ok (liftFailure_eq_ok houter)]
      exact .block hformed.1 (typedSeq_of_check body hformed.2 hbody)
  | .ifThen sig body, labels, stack, out, hformed, h => by
      rw [Node.Formed] at hformed
      rw [checkNode] at h
      obtain ⟨rest, hrest, h⟩ := bind_eq_ok h
      obtain ⟨outer, houter, h⟩ := bind_eq_ok h
      split at h
      · cases h
      · next heq =>
        obtain ⟨_, hbody, h⟩ := bind_eq_ok h
        cases h
        rw [pop_eq_ok (liftFailure_eq_ok hrest), pop_eq_ok (liftFailure_eq_ok houter)]
        exact .ifThen hformed.1 (Classical.not_not.mp heq)
          (typedSeq_of_check body hformed.2 hbody)
  | .ifElse sig body alternative, labels, stack, out, hformed, h => by
      rw [Node.Formed] at hformed
      rw [checkNode] at h
      obtain ⟨rest, hrest, h⟩ := bind_eq_ok h
      obtain ⟨outer, houter, h⟩ := bind_eq_ok h
      obtain ⟨_, hbody, h⟩ := bind_eq_ok h
      obtain ⟨_, halternative, h⟩ := bind_eq_ok h
      cases h
      rw [pop_eq_ok (liftFailure_eq_ok hrest), pop_eq_ok (liftFailure_eq_ok houter)]
      exact .ifElse hformed.1 (typedSeq_of_check body hformed.2.1 hbody)
        (typedSeq_of_check alternative hformed.2.2 halternative)

/-- A checked sequence is typed. -/
theorem typedSeq_of_check {p : Program} {f : Function} :
    (ns : List Node) → {labels : Labels} → {stack : TypeStack} → {results : List ValueType} →
    {u : Unit} → Body.Formed ns → p.checkSeq f labels results ns stack = .ok u →
    TypedSeq p f labels ns stack results
  | [], labels, stack, results, u, _, h => by
      rw [checkSeq] at h
      split at h
      · next heq => rw [heq]; exact .nil
      · cases h
  | n :: ns, labels, stack, results, u, hformed, h => by
      rw [Body.Formed] at hformed
      rw [checkSeq] at h
      obtain ⟨out, hn, h⟩ := bind_eq_ok h
      have hnode := typedNode_of_check n hformed.1 hn
      cases out with
      | none =>
          rw [hformed.2.1 (isTerminal_of_typedNode_none hnode)]
          exact .last hnode
      | some mid => exact .cons hnode (typedSeq_of_check ns hformed.2.2 h)

end

/-- The body of a checked function is typed. -/
theorem typedSeq_of_check_function {p : Program} {f : Function} {u : Unit}
    (hformed : ∀ body, f.body = .ok body → Body.Formed body) (h : p.check f = .ok u) :
    ∃ body, f.body = .ok body ∧ TypedSeq p f [f.type.results] body [] f.type.results := by
  rw [check] at h
  split at h
  · cases h
  · next body hbody => exact ⟨body, hbody, typedSeq_of_check body (hformed body hbody) h⟩

end Program

end WasmShader
