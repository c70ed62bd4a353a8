import WasmShader.Proofs.Typing

/-!
# Stack typing

The rules of the format for what code takes off the operand stack and what it leaves there
(`CodeType`), stated without a stack: an instruction has a type of its own, a sequence composes the
types of its parts, and all code may stand above operands that it leaves alone. Behind an
instruction that control does not pass, anything goes.

`check` is an algorithm: it walks the code once, with one stack of types, and never asks which
operands to leave alone. It takes exactly the functions whose bodies have the type that the rules
want (`check_iff_codeType`).
-/

namespace WasmShader

/-! ## Types of numeric instructions -/

/-- The opcodes of numeric instructions, from the first to the last that take and give the same. -/
def numericTypes : List (Nat × Nat × Signature) :=
  -- tests and comparisons
  [ (0x45, 0x45, ⟨[.i32], [.i32]⟩), (0x46, 0x4F, ⟨[.i32, .i32], [.i32]⟩),
    (0x50, 0x50, ⟨[.i64], [.i32]⟩), (0x51, 0x5A, ⟨[.i64, .i64], [.i32]⟩),
    (0x5B, 0x60, ⟨[.f32, .f32], [.i32]⟩), (0x61, 0x66, ⟨[.f64, .f64], [.i32]⟩),
    -- arithmetic
    (0x67, 0x69, ⟨[.i32], [.i32]⟩), (0x6A, 0x78, ⟨[.i32, .i32], [.i32]⟩),
    (0x79, 0x7B, ⟨[.i64], [.i64]⟩), (0x7C, 0x8A, ⟨[.i64, .i64], [.i64]⟩),
    (0x8B, 0x91, ⟨[.f32], [.f32]⟩), (0x92, 0x98, ⟨[.f32, .f32], [.f32]⟩),
    (0x99, 0x9F, ⟨[.f64], [.f64]⟩), (0xA0, 0xA6, ⟨[.f64, .f64], [.f64]⟩),
    -- conversions
    (0xA7, 0xA7, ⟨[.i64], [.i32]⟩), (0xA8, 0xA9, ⟨[.f32], [.i32]⟩),
    (0xAA, 0xAB, ⟨[.f64], [.i32]⟩), (0xAC, 0xAD, ⟨[.i32], [.i64]⟩),
    (0xAE, 0xAF, ⟨[.f32], [.i64]⟩), (0xB0, 0xB1, ⟨[.f64], [.i64]⟩),
    (0xB2, 0xB3, ⟨[.i32], [.f32]⟩), (0xB4, 0xB5, ⟨[.i64], [.f32]⟩),
    (0xB6, 0xB6, ⟨[.f64], [.f32]⟩), (0xB7, 0xB8, ⟨[.i32], [.f64]⟩),
    (0xB9, 0xBA, ⟨[.i64], [.f64]⟩), (0xBB, 0xBB, ⟨[.f32], [.f64]⟩),
    (0xBC, 0xBC, ⟨[.f32], [.i32]⟩), (0xBD, 0xBD, ⟨[.f64], [.i64]⟩),
    (0xBE, 0xBE, ⟨[.i32], [.f32]⟩), (0xBF, 0xBF, ⟨[.i64], [.f64]⟩),
    (0xC0, 0xC1, ⟨[.i32], [.i32]⟩), (0xC2, 0xC4, ⟨[.i64], [.i64]⟩)]

/-- What the numeric instruction of an opcode takes and gives. -/
def numericType? (opcode : UInt8) : Option Signature :=
  (numericTypes.find? fun (first, last, _) =>
    first ≤ opcode.toNat && opcode.toNat ≤ last).map (·.2.2)

/-- What a numeric operation takes and gives. -/
def Operation.numericSignature? : Operation → Option Signature
  | .numeric op => some op.signature
  | _ => none

/-- What the names of numeric instructions say of their types is what the format says. -/
theorem numericSignature?_ofOpcode (opcode : UInt8) :
    (Operation.ofOpcode opcode).numericSignature? = numericType? opcode := by
  have hall : ∀ n < 256, (Operation.ofOpcode (UInt8.ofNat n)).numericSignature?
      = numericType? (UInt8.ofNat n) := by decide +kernel
  have h := hall opcode.toNat opcode.toNat_lt
  rwa [UInt8.ofNat_toNat] at h

namespace Program

variable {p : Program} {f : Function} {i : Instr}

/-! ## Rules -/

/-- The type of the constant that an operation pushes. -/
def constantType? : Operation → Option ValueType
  | .i32Const => some .i32
  | .i64Const => some .i64
  | .f32Const => some .f32
  | .f64Const => some .f64
  | .vector => some .v128
  | _ => none

/-- What an instruction that is no branch takes and gives. -/
inductive InstrType (p : Program) (f : Function) (i : Instr) :
    List ValueType → List ValueType → Prop
  | numeric {sig : Signature} : numericType? i.opcode = some sig →
      InstrType p f i sig.params sig.results
  | nop : i.operation = .nop → InstrType p f i [] []
  | constant {t : ValueType} : constantType? i.operation = some t → InstrType p f i [] [t]
  | drop {t : ValueType} : i.operation = .drop → InstrType p f i [t] []
  | select {t : ValueType} : i.operation = .select → InstrType p f i [t, t, .i32] [t]
  | localGet {idx : UInt32} {t : ValueType} : i.operation = .localGet → i.imm = .localVar idx →
      f.locals[idx.toNat]? = some t → InstrType p f i [] [t]
  | localSet {idx : UInt32} {t : ValueType} : i.operation = .localSet → i.imm = .localVar idx →
      f.locals[idx.toNat]? = some t → InstrType p f i [t] []
  | localTee {idx : UInt32} {t : ValueType} : i.operation = .localTee → i.imm = .localVar idx →
      f.locals[idx.toNat]? = some t → InstrType p f i [t] [t]
  | globalGet {idx : UInt32} {g : Global} : i.operation = .globalGet → i.imm = .globalVar idx →
      p.globals[idx.toNat]? = some g → InstrType p f i [] [g.type]
  | globalSet {idx : UInt32} {g : Global} : i.operation = .globalSet → i.imm = .globalVar idx →
      p.globals[idx.toNat]? = some g → g.isMutable = true → InstrType p f i [g.type] []
  | call {target : UInt32} {sig : Signature} : i.operation = .call → i.imm = .call target →
      p.signature? target.toNat = some sig → InstrType p f i sig.params sig.results
  | callIndirect {typeIdx table : UInt32} {t : TypeEntry} : i.operation = .callIndirect →
      i.imm = .callIndirect typeIdx table → p.types[typeIdx.toNat]? = some t → t.err = none →
      InstrType p f i (t.sig.params ++ [.i32]) t.sig.results
  | memorySize : i.operation = .memorySize → InstrType p f i [] [.i32]
  | memoryGrow : i.operation = .memoryGrow → InstrType p f i [.i32] [.i32]

/-- Control never passes the instruction, and these operands it wants on top. -/
inductive Leaves (f : Function) (labels : Labels) (i : Instr) : List ValueType → Prop
  | unreachable : i.operation = .unreachable → Leaves f labels i []
  | br {depth : UInt32} {types : List ValueType} : i.operation = .br → i.imm = .branch depth →
      labels[depth.toNat]? = some types → Leaves f labels i types
  | brTable {depths : List UInt32} {fallback : UInt32} {types : List ValueType} :
      i.operation = .brTable → i.imm = .branchTable depths fallback →
      labels[fallback.toNat]? = some types →
      (∀ depth ∈ depths, labels[depth.toNat]? = some types) →
      Leaves f labels i (types ++ [.i32])
  | ret : i.operation = .ret → Leaves f labels i f.type.results

/-- What code takes and gives, under labels that carry the given types, the innermost first. -/
inductive CodeType (p : Program) (f : Function) :
    Labels → List Node → List ValueType → List ValueType → Prop
  | nil {labels : Labels} : CodeType p f labels [] [] []
  | instr {labels : Labels} {i : Instr} {ins outs : List ValueType} : InstrType p f i ins outs →
      CodeType p f labels [.instr i] ins outs
  | brIf {labels : Labels} {i : Instr} {depth : UInt32} {types : List ValueType} :
      i.operation = .brIf → i.imm = .branch depth → labels[depth.toNat]? = some types →
      CodeType p f labels [.instr i] (types ++ [.i32]) types
  /-- Behind what control does not pass there is any type, and any code. -/
  | leave {labels : Labels} {i : Instr} {dead : List Node} {rest wanted outs : List ValueType} :
      Leaves f labels i wanted → CodeType p f labels (.instr i :: dead) (rest ++ wanted) outs
  | block {labels : Labels} {sig : Signature} {body : List Node} :
      CodeType p f (sig.results :: labels) body sig.params sig.results →
      CodeType p f labels [.block false sig body] sig.params sig.results
  | loop {labels : Labels} {sig : Signature} {body : List Node} :
      CodeType p f (sig.params :: labels) body sig.params sig.results →
      CodeType p f labels [.block true sig body] sig.params sig.results
  | ifThen {labels : Labels} {sig : Signature} {body : List Node} : sig.params = sig.results →
      CodeType p f (sig.results :: labels) body sig.params sig.results →
      CodeType p f labels [.ifThen sig body] (sig.params ++ [.i32]) sig.results
  | ifElse {labels : Labels} {sig : Signature} {body alternative : List Node} :
      CodeType p f (sig.results :: labels) body sig.params sig.results →
      CodeType p f (sig.results :: labels) alternative sig.params sig.results →
      CodeType p f labels [.ifElse sig body alternative] (sig.params ++ [.i32]) sig.results
  /-- Code may stand above operands that it leaves alone. -/
  | above {labels : Labels} {ns : List Node} {below ins outs : List ValueType} :
      CodeType p f labels ns ins outs → CodeType p f labels ns (below ++ ins) (below ++ outs)
  | append {labels : Labels} {ns ms : List Node} {ins mid outs : List ValueType} :
      CodeType p f labels ns ins mid → CodeType p f labels ms mid outs →
      CodeType p f labels (ns ++ ms) ins outs

/-! ## Instructions -/

theorem numericType?_of_operation {op : NumericOp} (hop : i.operation = .numeric op) :
    numericType? i.opcode = some op.signature := by
  rw [← numericSignature?_ofOpcode]
  change i.operation.numericSignature? = _
  rw [hop]
  rfl

theorem operation_of_numericType? {sig : Signature} (h : numericType? i.opcode = some sig) :
    ∃ op, i.operation = .numeric op ∧ op.signature = sig := by
  rw [← numericSignature?_ofOpcode] at h
  change i.operation.numericSignature? = _ at h
  cases hop : i.operation with
  | numeric op =>
      rw [hop] at h
      exact ⟨op, rfl, Option.some.inj h⟩
  | _ => rw [hop] at h; cases h

/-- The effect of an instruction that is no branch is its type. -/
theorem instrType_of_effect {e : Effect} {stack : TypeStack}
    (hpasses : i.operation.isTerminal = false) (hbrIf : i.operation ≠ .brIf)
    (he : p.effect f i stack = .ok e) : InstrType p f i e.pops e.pushes := by
  rw [effect] at he
  cases hop : i.operation with
  | numeric op =>
      simp only [hop] at he
      cases he
      exact .numeric (numericType?_of_operation hop)
  | nop => simp only [hop] at he; cases he; exact .nop hop
  | unreachable | br | brTable | ret => rw [hop] at hpasses; cases hpasses
  | brIf => exact absurd hop hbrIf
  | i32Const | i64Const | f32Const | f64Const | vector =>
      simp only [hop] at he
      cases he
      exact .constant (by rw [hop]; rfl)
  | drop =>
      simp only [hop] at he
      split at he
      · cases he
      · cases he; exact .drop hop
  | select =>
      simp only [hop] at he
      split at he
      · cases he
      · obtain ⟨t, -, he⟩ := bind_eq_ok he
        cases he
        exact .select hop
  | localGet =>
      simp only [hop] at he
      obtain ⟨t, ht, he⟩ := bind_eq_ok he
      cases he
      obtain ⟨idx, himm, hidx⟩ := localType_eq_ok ht
      exact .localGet hop himm hidx
  | localSet =>
      simp only [hop] at he
      obtain ⟨t, ht, he⟩ := bind_eq_ok he
      cases he
      obtain ⟨idx, himm, hidx⟩ := localType_eq_ok ht
      exact .localSet hop himm hidx
  | localTee =>
      simp only [hop] at he
      obtain ⟨t, ht, he⟩ := bind_eq_ok he
      cases he
      obtain ⟨idx, himm, hidx⟩ := localType_eq_ok ht
      exact .localTee hop himm hidx
  | globalGet =>
      simp only [hop] at he
      obtain ⟨⟨_, g⟩, hg, he⟩ := bind_eq_ok he
      cases he
      obtain ⟨idx, himm, -, hidx⟩ := globalAt_eq_ok hg
      exact .globalGet hop himm hidx
  | globalSet =>
      simp only [hop] at he
      obtain ⟨⟨_, g⟩, hg, he⟩ := bind_eq_ok he
      obtain ⟨idx, himm, -, hidx⟩ := globalAt_eq_ok hg
      dsimp only at he
      split at he
      · next hmutable => cases he; exact .globalSet hop himm hidx hmutable
      · cases he
  | call =>
      simp only [hop] at he
      obtain ⟨sig, hsig, he⟩ := bind_eq_ok he
      cases he
      obtain ⟨target, himm, htarget⟩ := calleeSignature_eq_ok hsig
      exact .call hop himm htarget
  | callIndirect =>
      simp only [hop] at he
      obtain ⟨sig, hsig, he⟩ := bind_eq_ok he
      cases he
      obtain ⟨typeIdx, table, t, himm, ht, herr, rfl⟩ := indirectSignature_eq_ok hsig
      exact .callIndirect hop himm ht herr
  | memorySize => simp only [hop] at he; cases he; exact .memorySize hop
  | memoryGrow => simp only [hop] at he; cases he; exact .memoryGrow hop
  | memoryAccess | block | loop | ifElse | elseMark | endMark | unknown =>
      simp only [hop] at he
      cases he

/-- An instruction with a type is no branch, and this is its effect where it finds its operands. -/
theorem effect_of_instrType {ins outs : List ValueType} (h : InstrType p f i ins outs)
    (rest : TypeStack) : p.effect f i (rest ++ ins) = .ok ⟨ins, outs⟩ := by
  rw [effect]
  cases h with
  | numeric hsig =>
      obtain ⟨op, hop, rfl⟩ := operation_of_numericType? hsig
      rw [hop]
  | nop hop => rw [hop]
  | constant ht =>
      cases hop : i.operation with
      | i32Const | i64Const | f32Const | f64Const | vector => rw [hop] at ht; cases ht; rfl
      | _ => rw [hop] at ht; cases ht
  | drop hop =>
      rw [hop]
      dsimp only
      rw [List.getLast?_concat]
  | @select t hop =>
      rw [hop]
      dsimp only
      have hlen : (rest ++ [t, t, ValueType.i32]).length - 2 = rest.length + 1 := by simp
      have ht : entry (rest ++ [t, t, ValueType.i32]) (rest.length + 1) = .ok t := by
        rw [entry, List.getElem?_append_right (by omega)]
        simp
      rw [if_neg (by simp), hlen, ht]
      rfl
  | localGet hop himm hidx | localSet hop himm hidx | localTee hop himm hidx =>
      rw [hop, himm]
      dsimp only [localType]
      rw [hidx]
      rfl
  | globalGet hop himm hidx =>
      rw [hop, himm]
      dsimp only [globalAt]
      rw [hidx]
      rfl
  | globalSet hop himm hidx hmutable =>
      rw [hop, himm]
      dsimp only [globalAt]
      rw [hidx]
      change (if _ then _ else _) = _
      rw [if_pos hmutable]
      rfl
  | call hop himm htarget =>
      rw [hop, himm]
      dsimp only [calleeSignature]
      rw [htarget]
      rfl
  | callIndirect hop himm ht herr =>
      rw [hop, himm]
      dsimp only [indirectSignature]
      rw [ht]
      dsimp only
      rw [herr]
      rfl
  | memorySize hop => rw [hop]
  | memoryGrow hop => rw [hop]

/-! ## Stacks -/

theorem carries_append (rest : TypeStack) (want : List ValueType) :
    carries f (rest ++ want) want = .ok () := by
  have hlen : (rest ++ want).length - want.length = rest.length := by simp
  rw [carries, TypeStack.top, hlen, List.drop_left]
  simp

theorem labelAt_of_getElem? {labels : Labels} {depth : UInt32} {types : List ValueType}
    (h : labels[depth.toNat]? = some types) : labelAt f labels depth = .ok types := by
  rw [labelAt, h]

theorem checkLabels_of_forall {labels : Labels} {want : List ValueType} {depths : List UInt32}
    (h : ∀ depth ∈ depths, labels[depth.toNat]? = some want) :
    checkLabels f labels want depths = .ok () := by
  induction depths with
  | nil => rfl
  | cons d ds ih =>
      rw [checkLabels, labelAt_of_getElem? (h d List.mem_cons_self)]
      change (if _ then _ else _) = _
      rw [if_neg (not_not.mpr rfl), ih fun depth hmem => h depth (List.mem_cons_of_mem d hmem)]

/-! ## What is taken has a type -/

variable {labels : Labels}

/-- An instruction that is taken and passed has a type, above the operands it leaves alone. -/
theorem codeType_of_checkInstr {stack after : TypeStack}
    (h : p.checkInstr f labels i stack = .ok (some after)) :
    CodeType p f labels [.instr i] stack after := by
  rw [checkInstr] at h
  obtain ⟨e, he, h⟩ := bind_eq_ok h
  obtain ⟨left, hleft, h⟩ := bind_eq_ok h
  obtain ⟨rest, rfl, rfl⟩ := apply_eq_ok (liftFailure_eq_ok hleft)
  cases hop : i.operation with
  | brIf =>
      simp only [hop] at h
      simp only [effect, hop] at he
      cases he
      split at h
      · next depth himm =>
        obtain ⟨types, htypes, h⟩ := bind_eq_ok h
        obtain ⟨_, hcarries, h⟩ := bind_eq_ok h
        cases h
        obtain ⟨below, hbelow⟩ := carries_eq_ok hcarries
        rw [List.append_nil] at hbelow ⊢
        rw [hbelow, List.append_assoc]
        exact .above (.brIf hop himm (labelAt_eq_ok htypes))
      · cases h
  | br =>
      simp only [hop] at h
      split at h
      · obtain ⟨_, _, h⟩ := bind_eq_ok h
        obtain ⟨_, _, h⟩ := bind_eq_ok h
        cases h
      · cases h
  | brTable =>
      simp only [hop] at h
      split at h
      · obtain ⟨_, _, h⟩ := bind_eq_ok h
        obtain ⟨_, _, h⟩ := bind_eq_ok h
        obtain ⟨_, _, h⟩ := bind_eq_ok h
        cases h
      · cases h
  | ret =>
      simp only [hop] at h
      obtain ⟨_, _, h⟩ := bind_eq_ok h
      cases h
  | unreachable => simp only [hop] at h; cases h
  | _ =>
      simp only [hop] at h
      cases h
      exact .above (.instr (instrType_of_effect (by rw [hop]; rfl) (by rw [hop]; simp) he))

/-- An instruction that is taken and never passed finds what it wants on top. -/
theorem leaves_of_checkInstr {stack : TypeStack}
    (h : p.checkInstr f labels i stack = .ok none) :
    ∃ rest wanted, Leaves f labels i wanted ∧ stack = rest ++ wanted := by
  rw [checkInstr] at h
  obtain ⟨e, he, h⟩ := bind_eq_ok h
  obtain ⟨left, hleft, h⟩ := bind_eq_ok h
  obtain ⟨rest, rfl, rfl⟩ := apply_eq_ok (liftFailure_eq_ok hleft)
  cases hop : i.operation with
  | br =>
      simp only [hop] at h
      simp only [effect, hop] at he
      cases he
      split at h
      · next depth himm =>
        obtain ⟨types, htypes, h⟩ := bind_eq_ok h
        obtain ⟨_, hcarries, -⟩ := bind_eq_ok h
        obtain ⟨below, hbelow⟩ := carries_eq_ok hcarries
        rw [List.append_nil] at hbelow ⊢
        exact ⟨below, types, .br hop himm (labelAt_eq_ok htypes), hbelow⟩
      · cases h
  | brIf =>
      simp only [hop] at h
      split at h
      · obtain ⟨_, _, h⟩ := bind_eq_ok h
        obtain ⟨_, _, h⟩ := bind_eq_ok h
        cases h
      · cases h
  | brTable =>
      simp only [hop] at h
      simp only [effect, hop] at he
      cases he
      split at h
      · next depths fallback himm =>
        obtain ⟨types, htypes, h⟩ := bind_eq_ok h
        obtain ⟨_, hlabels, h⟩ := bind_eq_ok h
        obtain ⟨_, hcarries, -⟩ := bind_eq_ok h
        obtain ⟨below, hbelow⟩ := carries_eq_ok hcarries
        rw [List.append_nil] at hbelow
        refine ⟨below, types ++ [.i32],
          .brTable hop himm (labelAt_eq_ok htypes) (checkLabels_eq_ok hlabels), ?_⟩
        rw [hbelow, List.append_assoc]
      · cases h
  | ret =>
      simp only [hop] at h
      simp only [effect, hop] at he
      cases he
      obtain ⟨_, hcarries, -⟩ := bind_eq_ok h
      obtain ⟨below, hbelow⟩ := carries_eq_ok hcarries
      rw [List.append_nil] at hbelow ⊢
      exact ⟨below, _, .ret hop, hbelow⟩
  | unreachable =>
      simp only [effect, hop] at he
      cases he
      exact ⟨rest, [], .unreachable hop, rfl⟩
  | _ => simp only [hop] at h; cases h

mutual

/-- A node that is taken and passed has a type. -/
theorem codeType_of_checkNode : (n : Node) → {labels : Labels} → {stack after : TypeStack} →
    p.checkNode f labels n stack = .ok (some after) → CodeType p f labels [n] stack after
  | .instr i, labels, stack, after, h => by
      rw [checkNode] at h
      exact codeType_of_checkInstr h
  | .block loop sig body, labels, stack, after, h => by
      rw [checkNode] at h
      obtain ⟨below, hbelow, h⟩ := bind_eq_ok h
      obtain ⟨_, hbody, h⟩ := bind_eq_ok h
      cases h
      rw [pop_eq_ok (liftFailure_eq_ok hbelow)]
      have htype := codeType_of_checkSeq body hbody
      cases loop with
      | false => exact .above (.block htype)
      | true => exact .above (.loop htype)
  | .ifThen sig body, labels, stack, after, h => by
      rw [checkNode] at h
      obtain ⟨left, hleft, h⟩ := bind_eq_ok h
      obtain ⟨below, hbelow, h⟩ := bind_eq_ok h
      split at h
      · cases h
      · next hsame =>
        obtain ⟨_, hbody, h⟩ := bind_eq_ok h
        cases h
        rw [pop_eq_ok (liftFailure_eq_ok hleft), pop_eq_ok (liftFailure_eq_ok hbelow),
          List.append_assoc]
        exact .above (.ifThen (Classical.not_not.mp hsame) (codeType_of_checkSeq body hbody))
  | .ifElse sig body alternative, labels, stack, after, h => by
      rw [checkNode] at h
      obtain ⟨left, hleft, h⟩ := bind_eq_ok h
      obtain ⟨below, hbelow, h⟩ := bind_eq_ok h
      obtain ⟨_, hbody, h⟩ := bind_eq_ok h
      obtain ⟨_, halternative, h⟩ := bind_eq_ok h
      cases h
      rw [pop_eq_ok (liftFailure_eq_ok hleft), pop_eq_ok (liftFailure_eq_ok hbelow),
        List.append_assoc]
      exact .above (.ifElse (codeType_of_checkSeq body hbody)
        (codeType_of_checkSeq alternative halternative))

/-- A sequence that is taken has a type. -/
theorem codeType_of_checkSeq : (ns : List Node) → {labels : Labels} → {stack : TypeStack} →
    {results : List ValueType} → {u : Unit} → p.checkSeq f labels results ns stack = .ok u →
    CodeType p f labels ns stack results
  | [], labels, stack, results, u, h => by
      rw [checkSeq] at h
      split at h
      · next hsame =>
        rw [hsame, ← List.append_nil results]
        exact .above .nil
      · cases h
  | n :: ns, labels, stack, results, u, h => by
      rw [checkSeq] at h
      obtain ⟨out, hn, h⟩ := bind_eq_ok h
      cases out with
      | some after => exact .append (codeType_of_checkNode n hn) (codeType_of_checkSeq ns h)
      | none =>
          -- only an instruction is never passed
          cases n with
          | instr i =>
              rw [checkNode] at hn
              obtain ⟨rest, wanted, hleaves, rfl⟩ := leaves_of_checkInstr hn
              exact .leave hleaves
          | block loop sig body =>
              rw [checkNode] at hn
              obtain ⟨_, _, hn⟩ := bind_eq_ok hn
              obtain ⟨_, _, hn⟩ := bind_eq_ok hn
              cases hn
          | ifThen sig body =>
              rw [checkNode] at hn
              obtain ⟨_, _, hn⟩ := bind_eq_ok hn
              obtain ⟨_, _, hn⟩ := bind_eq_ok hn
              split at hn
              · cases hn
              · obtain ⟨_, _, hn⟩ := bind_eq_ok hn
                cases hn
          | ifElse sig body alternative =>
              rw [checkNode] at hn
              obtain ⟨_, _, hn⟩ := bind_eq_ok hn
              obtain ⟨_, _, hn⟩ := bind_eq_ok hn
              obtain ⟨_, _, hn⟩ := bind_eq_ok hn
              obtain ⟨_, _, hn⟩ := bind_eq_ok hn
              cases hn

end

/-! ## What has a type is taken -/

/-- An instruction that finds its operands has them replaced by what it gives. -/
theorem bind_effect {α : Type} {e : Effect} {stack : TypeStack} (rest : TypeStack)
    (he : p.effect f i stack = .ok e) (hstack : stack = rest ++ e.pops)
    (k : TypeStack → Except Abort α) :
    (do let e ← p.effect f i stack
        let after ← liftFailure (stack.apply f.name e)
        k after) = k (rest ++ e.pushes) := by
  rw [he, hstack]
  change (liftFailure (TypeStack.apply f.name e (rest ++ e.pops)) >>= k) = _
  rw [apply_append]
  rfl

/-- An instruction with a type of its own is no branch. -/
theorem passes_of_instrType {ins outs : List ValueType} (h : InstrType p f i ins outs) :
    i.operation.isTerminal = false ∧ i.operation ≠ .brIf := by
  cases h with
  | numeric hsig =>
      obtain ⟨op, hop, -⟩ := operation_of_numericType? hsig
      rw [hop]
      exact ⟨rfl, fun h => by cases h⟩
  | constant ht =>
      cases hop : i.operation with
      | i32Const | i64Const | f32Const | f64Const | vector => exact ⟨rfl, by decide⟩
      | _ => rw [hop] at ht; cases ht
  | nop hop | drop hop | select hop | localGet hop | localSet hop | localTee hop | globalGet hop
  | globalSet hop | call hop | callIndirect hop | memorySize hop | memoryGrow hop =>
      rw [hop]
      exact ⟨rfl, by decide⟩

/-- An instruction with a type of its own is taken and passed, above any operands. -/
theorem checkInstr_of_instrType {ins outs : List ValueType} (h : InstrType p f i ins outs)
    (rest : TypeStack) : p.checkInstr f labels i (rest ++ ins) = .ok (some (rest ++ outs)) := by
  obtain ⟨hpasses, hbrIf⟩ := passes_of_instrType h
  rw [checkInstr, bind_effect rest (effect_of_instrType h rest) rfl]
  cases hop : i.operation with
  | br | brTable | ret | unreachable => rw [hop] at hpasses; cases hpasses
  | brIf => exact absurd hop hbrIf
  | _ => rfl

theorem checkInstr_brIf {depth : UInt32} {types : List ValueType} (hop : i.operation = .brIf)
    (himm : i.imm = .branch depth) (hlabel : labels[depth.toNat]? = some types)
    (rest : TypeStack) :
    p.checkInstr f labels i (rest ++ (types ++ [.i32])) = .ok (some (rest ++ types)) := by
  have heffect : p.effect f i (rest ++ (types ++ [.i32])) = .ok ⟨[.i32], []⟩ := by
    rw [effect, hop]
  rw [checkInstr, bind_effect (rest ++ types) heffect (List.append_assoc _ _ _).symm, hop, himm,
    List.append_nil]
  change (labelAt f labels depth >>= _) = _
  rw [labelAt_of_getElem? hlabel]
  change (carries f (rest ++ types) types >>= _) = _
  rw [carries_append]
  rfl

/-- An instruction that finds what it wants on top is taken and never passed. -/
theorem checkInstr_of_leaves {wanted : List ValueType} (h : Leaves f labels i wanted)
    (rest : TypeStack) : p.checkInstr f labels i (rest ++ wanted) = .ok none := by
  cases h with
  | unreachable hop =>
      have heffect : p.effect f i (rest ++ []) = .ok ⟨[], []⟩ := by rw [effect, hop]
      rw [checkInstr, bind_effect rest heffect rfl, hop]
      rfl
  | br hop himm hlabel =>
      have heffect : p.effect f i (rest ++ wanted) = .ok ⟨[], []⟩ := by rw [effect, hop]
      rw [checkInstr, bind_effect _ heffect (List.append_nil _).symm, hop, himm, List.append_nil]
      change (labelAt f labels _ >>= _) = _
      rw [labelAt_of_getElem? hlabel]
      change (carries f (rest ++ wanted) wanted >>= _) = _
      rw [carries_append]
      rfl
  | @brTable depths fallback types hop himm hlabel hlabels =>
      have heffect : p.effect f i (rest ++ (types ++ [.i32])) = .ok ⟨[.i32], []⟩ := by
        rw [effect, hop]
      rw [checkInstr, bind_effect (rest ++ types) heffect (List.append_assoc _ _ _).symm, hop, himm,
        List.append_nil]
      change (labelAt f labels fallback >>= _) = _
      rw [labelAt_of_getElem? hlabel]
      change (checkLabels f labels types depths >>= _) = _
      rw [checkLabels_of_forall hlabels]
      change (carries f (rest ++ types) types >>= _) = _
      rw [carries_append]
      rfl
  | ret hop =>
      have heffect : p.effect f i (rest ++ f.type.results) = .ok ⟨[], []⟩ := by rw [effect, hop]
      rw [checkInstr, bind_effect _ heffect (List.append_nil _).symm, hop, List.append_nil]
      change (carries f (rest ++ f.type.results) f.type.results >>= _) = _
      rw [carries_append]
      rfl

/-- A node that is passed hands what it leaves to the code behind it. -/
theorem checkSeq_cons {n : Node} {ms : List Node} {stack after : TypeStack}
    {results : List ValueType} (hn : p.checkNode f labels n stack = .ok (some after))
    (hms : p.checkSeq f labels results ms after = .ok ()) :
    p.checkSeq f labels results (n :: ms) stack = .ok () := by
  rw [checkSeq, hn]
  exact hms

theorem checkNode_block {loop : Bool} {sig : Signature} {body : List Node} (rest : TypeStack)
    (hbody : p.checkSeq f (labelTypes loop sig :: labels) sig.results body sig.params = .ok ()) :
    p.checkNode f labels (.block loop sig body) (rest ++ sig.params)
      = .ok (some (rest ++ sig.results)) := by
  rw [checkNode, pop_append]
  change (p.checkSeq f _ _ _ _ >>= _) = _
  rw [hbody]
  rfl

theorem checkNode_ifThen {sig : Signature} {body : List Node} (rest : TypeStack)
    (hsame : sig.params = sig.results)
    (hbody : p.checkSeq f (sig.results :: labels) sig.results body sig.params = .ok ()) :
    p.checkNode f labels (.ifThen sig body) (rest ++ (sig.params ++ [.i32]))
      = .ok (some (rest ++ sig.results)) := by
  rw [checkNode, ← List.append_assoc, pop_append]
  change (liftFailure (TypeStack.pop f.name sig.params (rest ++ sig.params)) >>= _) = _
  rw [pop_append]
  change (if _ then _ else _) = _
  rw [if_neg (not_not.mpr hsame), hbody]
  rfl

theorem checkNode_ifElse {sig : Signature} {body alternative : List Node} (rest : TypeStack)
    (hbody : p.checkSeq f (sig.results :: labels) sig.results body sig.params = .ok ())
    (halternative :
      p.checkSeq f (sig.results :: labels) sig.results alternative sig.params = .ok ()) :
    p.checkNode f labels (.ifElse sig body alternative) (rest ++ (sig.params ++ [.i32]))
      = .ok (some (rest ++ sig.results)) := by
  rw [checkNode, ← List.append_assoc, pop_append]
  change (liftFailure (TypeStack.pop f.name sig.params (rest ++ sig.params)) >>= _) = _
  rw [pop_append]
  change (p.checkSeq f _ _ body _ >>= _) = _
  rw [hbody]
  change (p.checkSeq f _ _ alternative _ >>= _) = _
  rw [halternative]
  rfl

theorem checkSeq_self (results : List ValueType) :
    p.checkSeq f labels results [] results = .ok () := by
  rw [checkSeq, if_pos rfl]

/-- In front of code that is taken, code with a type is taken, above any operands. The induction is
on the derivation, so what stands behind and what stands below have to vary: a composition puts more
code behind its first part, and a frame puts more operands below. -/
theorem checkSeq_append_of_codeType {ns : List Node} {ins outs : List ValueType}
    (h : CodeType p f labels ns ins outs) {ms : List Node} {rest : TypeStack}
    {results : List ValueType} (hms : p.checkSeq f labels results ms (rest ++ outs) = .ok ()) :
    p.checkSeq f labels results (ns ++ ms) (rest ++ ins) = .ok () := by
  induction h generalizing ms rest results with
  | nil => exact hms
  | instr hi =>
      refine checkSeq_cons ?_ hms
      rw [checkNode]
      exact checkInstr_of_instrType hi rest
  | brIf hop himm hlabel =>
      refine checkSeq_cons ?_ hms
      rw [checkNode]
      exact checkInstr_brIf hop himm hlabel rest
  | @leave labels i dead below wanted outs hleaves =>
      rw [List.cons_append, checkSeq, checkNode, ← List.append_assoc,
        checkInstr_of_leaves hleaves (rest ++ below)]
      rfl
  | @block labels sig body _ ih =>
      have hbody : p.checkSeq f (sig.results :: labels) sig.results (body ++ []) ([] ++ sig.params)
          = .ok () := ih (checkSeq_self sig.results)
      rw [List.append_nil, List.nil_append] at hbody
      exact checkSeq_cons (checkNode_block rest hbody) hms
  | @loop labels sig body _ ih =>
      have hbody : p.checkSeq f (sig.params :: labels) sig.results (body ++ []) ([] ++ sig.params)
          = .ok () := ih (checkSeq_self sig.results)
      rw [List.append_nil, List.nil_append] at hbody
      exact checkSeq_cons (checkNode_block rest hbody) hms
  | @ifThen labels sig body hsame _ ih =>
      have hbody : p.checkSeq f (sig.results :: labels) sig.results (body ++ []) ([] ++ sig.params)
          = .ok () := ih (checkSeq_self sig.results)
      rw [List.append_nil, List.nil_append] at hbody
      exact checkSeq_cons (checkNode_ifThen rest hsame hbody) hms
  | @ifElse labels sig body alternative _ _ ih ihAlternative =>
      have hbody : p.checkSeq f (sig.results :: labels) sig.results (body ++ []) ([] ++ sig.params)
          = .ok () := ih (checkSeq_self sig.results)
      have halternative : p.checkSeq f (sig.results :: labels) sig.results (alternative ++ [])
          ([] ++ sig.params) = .ok () := ihAlternative (checkSeq_self sig.results)
      rw [List.append_nil, List.nil_append] at hbody halternative
      exact checkSeq_cons (checkNode_ifElse rest hbody halternative) hms
  | above _ ih =>
      rw [← List.append_assoc] at hms ⊢
      exact ih hms
  | append _ _ ih ih' =>
      rw [List.append_assoc]
      exact ih (ih' hms)

/-- A sequence with a type is taken. -/
theorem checkSeq_of_codeType {ns : List Node} {ins outs : List ValueType}
    (h : CodeType p f labels ns ins outs) : p.checkSeq f labels outs ns ins = .ok () := by
  have hall : p.checkSeq f labels outs (ns ++ []) ([] ++ ins) = .ok () :=
    checkSeq_append_of_codeType h (checkSeq_self outs)
  rwa [List.append_nil, List.nil_append] at hall

/-- A function is taken if and only if it has a body and the body takes nothing and gives the
results of the function, under the label of the function. -/
theorem check_iff_codeType (p : Program) (f : Function) :
    p.check f = .ok () ↔
      ∃ body, f.body = .ok body ∧ CodeType p f [f.type.results] body [] f.type.results := by
  rw [check]
  cases hbody : f.body with
  | error e =>
      constructor
      · intro h
        cases h
      · rintro ⟨body, h, -⟩
        cases h
  | ok body =>
      constructor
      · intro h
        exact ⟨body, rfl, codeType_of_checkSeq body h⟩
      · rintro ⟨_, hsame, htype⟩
        cases hsame
        exact checkSeq_of_codeType htype

end Program

end WasmShader
