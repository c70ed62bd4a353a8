import WasmShader.Proofs.ModuleCodec
import WasmShader.Proofs.SignedNumbers

/-!
# The code of instructions

An opcode fixes what kind of immediate follows it. Reading goes by the opcode and writing by the
immediate; they agree on the instructions whose immediate is of the kind that the opcode fixes
(`Instr.InFormat`), and these are all that reading gives. So code that was written reads as the
instructions that it was written for, and instructions that were read, however their numbers were
spelled, take no more bytes when they are written (`decodeAll_encodeAll`).
-/

namespace WasmShader

/-- The kinds of immediates. -/
inductive ImmediateKind
  | none | block | branch | branchTable | call | callIndirect | localVar | globalVar | memory
  | memoryIndex | i32 | i64 | f32 | f64 | v128
  deriving DecidableEq

def Immediate.kind : Immediate → ImmediateKind
  | .none => .none
  | .block _ => .block
  | .branch _ => .branch
  | .branchTable _ _ => .branchTable
  | .call _ => .call
  | .callIndirect _ _ => .callIndirect
  | .localVar _ => .localVar
  | .globalVar _ => .globalVar
  | .memory _ _ => .memory
  | .memoryIndex _ => .memoryIndex
  | .i32 _ => .i32
  | .i64 _ => .i64
  | .f32 _ => .f32
  | .f64 _ => .f64
  | .v128 _ _ => .v128

/-- The kind of immediate behind an opcode of the format. -/
def Operation.immediateKind? : Operation → Option ImmediateKind
  | .unreachable | .nop | .elseMark | .endMark | .ret | .drop | .select | .numeric _ => some .none
  | .block | .loop | .ifElse => some .block
  | .br | .brIf => some .branch
  | .brTable => some .branchTable
  | .call => some .call
  | .callIndirect => some .callIndirect
  | .localGet | .localSet | .localTee => some .localVar
  | .globalGet | .globalSet => some .globalVar
  | .memoryAccess => some .memory
  | .memorySize | .memoryGrow => some .memoryIndex
  | .i32Const => some .i32
  | .i64Const => some .i64
  | .f32Const => some .f32
  | .f64Const => some .f64
  | .vector => some .v128
  | .unknown => Option.none

/-- The labels of a table branch are counted with 32 bits; no other immediate has a count. -/
def Immediate.Countable : Immediate → Prop
  | .branchTable labels _ => labels.length < 2 ^ 32
  | _ => True

/-- The instruction is one of the format: the opcode is known, and what follows it is an immediate
of the kind that it fixes. -/
structure Instr.InFormat (i : Instr) : Prop where
  kind : i.operation.immediateKind? = some i.imm.kind
  countable : i.imm.Countable

/-! ## Bytes of a fixed number -/

theorem length_littleEndian (count n : Nat) : (littleEndian count n).length = count := by
  induction count generalizing n with
  | zero => rfl
  | succ count ih => rw [littleEndian, List.length_cons, ih]

theorem ofLittleEndian_littleEndian {count n : Nat} (h : n < 256 ^ count) :
    ofLittleEndian (littleEndian count n) = n := by
  induction count generalizing n with
  | zero =>
      rw [Nat.pow_zero, Nat.lt_one_iff] at h
      rw [h]
      rfl
  | succ count ih =>
      rw [Nat.pow_succ] at h
      have hbyte : (n % 256).toUInt8.toNat = n % 256 := Nat.mod_eq_of_lt (by omega)
      rw [littleEndian, ofLittleEndian, hbyte, ih (by omega)]
      omega

theorem ofLittleEndian_lt (bs : Bytes) : ofLittleEndian bs < 256 ^ bs.length := by
  induction bs with
  | nil => exact Nat.one_pos
  | cons b bs ih =>
      have hb := b.toNat_lt
      rw [ofLittleEndian, List.length_cons, Nat.pow_succ]
      omega

namespace Reader

theorem fixed_append {n : Nat} {bs : Bytes} (h : bs.length = n) (rest : Bytes) :
    fixed n (bs ++ rest) = .ok (bs, rest) := by
  rw [fixed, if_pos (by rw [List.length_append]; omega), ← h, List.take_left, List.drop_left]

theorem of_fixed_eq_ok {n : Nat} {bs x rest : Bytes} (h : fixed n bs = .ok (x, rest)) :
    x.length = n ∧ bs = x ++ rest := by
  unfold fixed at h
  split at h
  · next hle =>
    cases h
    exact ⟨List.length_take_of_le hle, (List.take_append_drop n bs).symm⟩
  · cases h

end Reader

namespace Binary

open Leb128 (readU32 writeNat writeU32)
open Reader (bind_of_ok of_bind_eq_ok noting_eq_ok)

section Codecs

variable {α β γ : Type} {r : Reader α} {s : Reader β} {w : α → Bytes} {v : β → Bytes}
  {P : α → Prop} {Q : β → Prop} {u : γ → Bytes}

theorem Codec.noting (h : Codec r w P) (note : String) : Codec (Reader.noting note r) w P where
  reads ha rest := noting_eq_ok.mpr (h.reads ha rest)
  gives hread := h.gives (noting_eq_ok.mp hread)

/-- What is made of a value is written as the value is. -/
theorem Codec.image (h : Codec r w P) (mk : α → γ) (hu : ∀ a, P a → u (mk a) = w a) :
    Codec (do return mk (← r)) u fun c => ∃ a, P a ∧ mk a = c where
  reads := by
    rintro _ ⟨a, ha, rfl⟩ rest
    rw [hu a ha, bind_of_ok (h.reads ha rest)]
    rfl
  gives := by
    intro bs c rest hread
    obtain ⟨a, bs', ha, hread⟩ := of_bind_eq_ok hread
    cases hread
    obtain ⟨hP, hlen⟩ := h.gives ha
    rw [hu a hP]
    exact ⟨⟨a, hP, rfl⟩, hlen⟩

/-- What is made of two values is written as the one and then the other. -/
theorem Codec.image₂ (h : Codec r w P) (h' : Codec s v Q) (mk : α → β → γ)
    (hu : ∀ a b, u (mk a b) = w a ++ v b) :
    Codec (do let a ← r; return mk a (← s)) u fun c => ∃ a b, (P a ∧ Q b) ∧ mk a b = c where
  reads := by
    rintro _ ⟨a, b, ⟨ha, hb⟩, rfl⟩ rest
    rw [hu, List.append_assoc, bind_of_ok (h.reads ha _), bind_of_ok (h'.reads hb _)]
    rfl
  gives := by
    intro bs c rest hread
    obtain ⟨a, bs', ha, hread⟩ := of_bind_eq_ok hread
    obtain ⟨b, bs'', hb, hread⟩ := of_bind_eq_ok hread
    cases hread
    obtain ⟨hP, hlen⟩ := h.gives ha
    obtain ⟨hQ, hlen'⟩ := h'.gives hb
    rw [hu, List.length_append]
    exact ⟨⟨a, b, ⟨hP, hQ⟩, rfl⟩, by omega⟩

end Codecs

theorem codec_fixed (n : Nat) : Codec (Instr.readFixed n) (littleEndian n) (· < 256 ^ n) where
  reads := by
    intro v hv rest
    rw [Instr.readFixed, bind_of_ok (Reader.fixed_append (length_littleEndian n v) rest),
      ofLittleEndian_littleEndian hv]
    rfl
  gives := by
    intro bs v rest hread
    obtain ⟨x, bs', hx, hread⟩ := of_bind_eq_ok hread
    cases hread
    obtain ⟨hlen, rfl⟩ := Reader.of_fixed_eq_ok hx
    refine ⟨hlen ▸ ofLittleEndian_lt x, ?_⟩
    rw [length_littleEndian, List.length_append, hlen]

/-! ## Immediates -/

theorem readLabels_append (labels : List UInt32) (rest : Bytes) :
    Instr.readLabels labels.length (labels.flatMap writeU32 ++ rest) = .ok (labels, rest) := by
  induction labels with
  | nil => rfl
  | cons label labels ih =>
      rw [List.length_cons, Instr.readLabels, List.flatMap_cons, List.append_assoc,
        bind_of_ok (codec_u32.reads trivial _), bind_of_ok ih]
      rfl

theorem of_readLabels_eq_ok {n : Nat} {bs rest : Bytes} {labels : List UInt32}
    (h : Instr.readLabels n bs = .ok (labels, rest)) :
    labels.length = n ∧ (labels.flatMap writeU32).length + rest.length ≤ bs.length := by
  induction n generalizing bs labels with
  | zero =>
      cases h
      exact ⟨rfl, by rw [List.flatMap_nil, List.length_nil]; omega⟩
  | succ n ih =>
      rw [Instr.readLabels] at h
      obtain ⟨label, bs', hlabel, h⟩ := of_bind_eq_ok h
      obtain ⟨more, bs'', hmore, h⟩ := of_bind_eq_ok h
      cases h
      obtain ⟨-, hlen⟩ := codec_u32.gives hlabel
      obtain ⟨hcount, hlen'⟩ := ih hmore
      rw [List.length_cons, List.flatMap_cons, List.length_append]
      omega

theorem codec_branchTable : Codec Instr.readBranchTable Instr.encodeImmediate
    fun imm => imm.kind = .branchTable ∧ imm.Countable where
  reads := by
    rintro imm ⟨hkind, hcount⟩ rest
    cases imm with
    | branchTable labels fallback =>
        have hcount : labels.length.toUInt32.toNat = labels.length := toNat_toUInt32 hcount
        have hnumber : writeNat labels.length = writeU32 labels.length.toUInt32 := by
          rw [writeU32, hcount]
        have henough : ¬(labels.flatMap writeU32 ++ (writeU32 fallback ++ rest)).length
            < labels.length := by
          have hle := length_le_flatMap (fun n => Leb128.length_writeNat_pos n.toNat) labels
          rw [List.length_append]
          exact Nat.not_lt.mpr (Nat.le_trans hle (Nat.le_add_right _ _))
        rw [Instr.readBranchTable, Instr.encodeImmediate, hnumber, List.append_assoc,
          List.append_assoc, bind_of_ok (codec_u32.reads trivial _),
          bind_of_ok (r := Reader.remaining) rfl, hcount, if_neg henough]
        dsimp only
        rw [bind_of_ok (readLabels_append labels _), bind_of_ok (codec_u32.reads trivial _)]
        rfl
    | _ => cases hkind
  gives := by
    intro bs imm rest hread
    rw [Instr.readBranchTable] at hread
    obtain ⟨count, bs₁, hcount, hread⟩ := of_bind_eq_ok hread
    obtain ⟨left, bs₂, hleft, hread⟩ := of_bind_eq_ok hread
    cases hleft
    split at hread
    · cases hread
    · obtain ⟨labels, bs₃, hlabels, hread⟩ := of_bind_eq_ok hread
      obtain ⟨fallback, bs₄, hfallback, hread⟩ := of_bind_eq_ok hread
      cases hread
      obtain ⟨hlen, hsize⟩ := of_readLabels_eq_ok hlabels
      have hnumber := (codec_u32.gives hcount).2
      have hlast := (codec_u32.gives hfallback).2
      have hsmall := count.toNat_lt
      refine ⟨⟨rfl, by rw [Immediate.Countable]; omega⟩, ?_⟩
      rw [writeU32] at hnumber
      rw [Instr.encodeImmediate, List.length_append, List.length_append, hlen]
      omega

/-- The sixteen bytes of a vector. -/
theorem codec_vectorBytes : Codec
    (do
      let bytes ← Reader.fixed 16
      return Immediate.v128 (ofLittleEndian (bytes.take 8)).toUInt64
        (ofLittleEndian (bytes.drop 8)).toUInt64)
    (fun imm => match imm with
      | .v128 lo hi => littleEndian 8 lo.toNat ++ littleEndian 8 hi.toNat
      | _ => [])
    fun imm => imm.kind = .v128 where
  reads := by
    intro imm hkind rest
    cases imm with
    | v128 lo hi =>
        have hlo := length_littleEndian 8 lo.toNat
        have hhi := length_littleEndian 8 hi.toNat
        dsimp only
        rw [bind_of_ok (Reader.fixed_append (by rw [List.length_append]; omega) rest),
          List.take_left' hlo, List.drop_left' hlo, ofLittleEndian_littleEndian lo.toNat_lt,
          ofLittleEndian_littleEndian hi.toNat_lt, Nat.toUInt64_eq, UInt64.ofNat_toNat,
          Nat.toUInt64_eq, UInt64.ofNat_toNat]
        rfl
    | _ => cases hkind
  gives := by
    intro bs imm rest hread
    obtain ⟨x, bs', hx, hread⟩ := of_bind_eq_ok hread
    cases hread
    obtain ⟨hlen, rfl⟩ := Reader.of_fixed_eq_ok hx
    refine ⟨rfl, ?_⟩
    dsimp only
    rw [List.length_append, length_littleEndian, length_littleEndian, List.length_append, hlen]

theorem codec_vector {opcode : UInt8} (hop : Operation.ofOpcode opcode = .vector) :
    Codec (Instr.readImmediate opcode) Instr.encodeImmediate
      fun imm => imm.kind = .v128 ∧ imm.Countable where
  reads := by
    rintro imm ⟨hkind, -⟩ rest
    unfold Instr.readImmediate
    rw [hop]
    cases imm with
    | v128 lo hi =>
        have hbytes := (codec_vectorBytes.noting
          ("opcode " ++ Text.hexLiteral 2 opcode.toNat)).reads hkind rest
        dsimp only at hbytes ⊢
        rw [Instr.encodeImmediate, List.append_assoc, List.append_assoc,
          bind_of_ok (noting_eq_ok.mpr (codec_u32.reads trivial _)), if_neg (by simp)]
        rw [List.append_assoc] at hbytes
        exact hbytes
    | _ => cases hkind
  gives := by
    intro bs imm rest hread
    unfold Instr.readImmediate at hread
    rw [hop] at hread
    dsimp only at hread
    obtain ⟨sub, bs₁, hsub, hread⟩ := of_bind_eq_ok hread
    split at hread
    · cases hread
    · next hconst =>
      have hsize := (codec_u32.gives (noting_eq_ok.mp hsub)).2
      obtain ⟨hkind, hlen⟩ := (codec_vectorBytes.noting _).gives hread
      rw [not_not.mp hconst] at hsize
      cases imm with
      | v128 lo hi =>
          refine ⟨⟨rfl, trivial⟩, ?_⟩
          dsimp only at hlen
          rw [Instr.encodeImmediate, List.append_assoc, List.length_append]
          omega
      | _ => cases hkind

theorem codec_none : Codec (Pure.pure .none : Reader Immediate) Instr.encodeImmediate
    fun imm => imm.kind = .none ∧ imm.Countable where
  reads := by
    rintro imm ⟨hkind, -⟩ rest
    cases imm with
    | none => rfl
    | _ => cases hkind
  gives := by
    intro bs imm rest hread
    cases hread
    exact ⟨⟨rfl, trivial⟩, Nat.le_of_eq (Nat.zero_add _)⟩

/-- What follows an opcode of the format is read as what was written, and as nothing else than
immediates of its kind. -/
theorem codec_immediate {opcode : UInt8} {kind : ImmediateKind}
    (hkind : (Operation.ofOpcode opcode).immediateKind? = some kind) :
    Codec (Instr.readImmediate opcode) Instr.encodeImmediate
      fun imm => imm.kind = kind ∧ imm.Countable := by
  cases hop : Operation.ofOpcode opcode
  case unknown => rw [hop] at hkind; cases hkind
  case vector => rw [hop] at hkind; cases hkind; exact codec_vector hop
  all_goals
    rw [hop] at hkind
    cases hkind
    unfold Instr.readImmediate
    rw [hop]
    dsimp only
  case brTable => exact codec_branchTable.noting _
  case unreachable | nop | elseMark | endMark | ret | drop | select | numeric => exact codec_none
  case block | loop | ifElse =>
    refine ((codec_s32.image Immediate.block fun _ _ => rfl).noting _).congr fun imm => ?_
    cases imm <;> simp [Immediate.kind, Immediate.Countable]
  case br | brIf =>
    refine ((codec_u32.image Immediate.branch fun _ _ => rfl).noting _).congr fun imm => ?_
    cases imm <;> simp [Immediate.kind, Immediate.Countable]
  case call =>
    refine ((codec_u32.image Immediate.call fun _ _ => rfl).noting _).congr fun imm => ?_
    cases imm <;> simp [Immediate.kind, Immediate.Countable]
  case localGet | localSet | localTee =>
    refine ((codec_u32.image Immediate.localVar fun _ _ => rfl).noting _).congr fun imm => ?_
    cases imm <;> simp [Immediate.kind, Immediate.Countable]
  case globalGet | globalSet =>
    refine ((codec_u32.image Immediate.globalVar fun _ _ => rfl).noting _).congr fun imm => ?_
    cases imm <;> simp [Immediate.kind, Immediate.Countable]
  case memorySize | memoryGrow =>
    refine ((codec_u32.image Immediate.memoryIndex fun _ _ => rfl).noting _).congr fun imm => ?_
    cases imm <;> simp [Immediate.kind, Immediate.Countable]
  case callIndirect =>
    refine ((codec_u32.image₂ codec_u32 Immediate.callIndirect fun _ _ => rfl).noting _).congr fun imm => ?_
    cases imm <;> simp [Immediate.kind, Immediate.Countable]
  case memoryAccess =>
    refine ((codec_u32.image₂ codec_u32 Immediate.memory fun _ _ => rfl).noting _).congr fun imm => ?_
    cases imm <;> simp [Immediate.kind, Immediate.Countable]
  case i32Const =>
    refine ((codec_s32.image Immediate.i32 fun _ _ => rfl).noting _).congr fun imm => ?_
    cases imm <;> simp [Immediate.kind, Immediate.Countable]
  case i64Const =>
    refine ((codec_s64.image Immediate.i64 fun _ _ => rfl).noting _).congr fun imm => ?_
    cases imm <;> simp [Immediate.kind, Immediate.Countable]
  case f32Const =>
    refine (((codec_fixed 4).image (fun n => Immediate.f32 n.toUInt32) fun n hn => ?_).noting
      _).congr fun imm => ?_
    · rw [Instr.encodeImmediate, toNat_toUInt32 hn]
    · cases imm with
      | f32 bits =>
          exact ⟨fun _ => ⟨bits.toNat, bits.toNat_lt, by rw [Nat.toUInt32_eq, UInt32.ofNat_toNat]⟩,
            fun _ => ⟨rfl, trivial⟩⟩
      | _ => simp [Immediate.kind]
  case f64Const =>
    refine (((codec_fixed 8).image (fun n => Immediate.f64 n.toUInt64) fun n hn => ?_).noting
      _).congr fun imm => ?_
    · rw [Instr.encodeImmediate, UInt64.toNat_ofNat_of_lt' hn]
    · cases imm with
      | f64 bits =>
          exact ⟨fun _ => ⟨bits.toNat, bits.toNat_lt, by rw [Nat.toUInt64_eq, UInt64.ofNat_toNat]⟩,
            fun _ => ⟨rfl, trivial⟩⟩
      | _ => simp [Immediate.kind]

/-! ## Instructions -/

/-- An opcode that is read is one of the format. -/
theorem exists_kind_of_readImmediate {opcode : UInt8} {bs rest : Bytes} {imm : Immediate}
    (h : Instr.readImmediate opcode bs = .ok (imm, rest)) :
    ∃ kind, (Operation.ofOpcode opcode).immediateKind? = some kind := by
  cases hop : Operation.ofOpcode opcode with
  | unknown =>
      unfold Instr.readImmediate at h
      rw [hop] at h
      cases h
  | _ => exact ⟨_, rfl⟩

theorem codec_instr : Codec Instr.read Instr.encode Instr.InFormat where
  reads := by
    rintro ⟨opcode, imm⟩ ⟨hkind, hcount⟩ rest
    exact read_cons.mpr ⟨rfl, (codec_immediate hkind).reads ⟨rfl, hcount⟩ rest⟩
  gives := by
    intro bs i rest h
    cases bs with
    | nil => cases h
    | cons b bs =>
        obtain ⟨rfl, himm⟩ := read_cons.mp h
        obtain ⟨kind, hkind⟩ := exists_kind_of_readImmediate himm
        obtain ⟨⟨heq, hcount⟩, hlen⟩ := (codec_immediate hkind).gives himm
        refine ⟨⟨heq ▸ hkind, hcount⟩, ?_⟩
        rw [Instr.encode, List.length_cons, List.length_cons]
        omega

end Binary

namespace Instr

open Binary

theorem readAll_encodeAll {fuel : Nat} {instrs : List Instr} (h : ∀ i ∈ instrs, i.InFormat)
    (hfuel : instrs.length ≤ fuel) : readAll fuel (encodeAll instrs) = .ok instrs := by
  induction instrs generalizing fuel with
  | nil => exact readAll_nil fuel
  | cons i instrs ih =>
      cases fuel with
      | zero => exact absurd hfuel (Nat.not_succ_le_zero _)
      | succ fuel =>
          obtain ⟨hi, hrest⟩ := List.forall_mem_cons.mp h
          have hread := codec_instr.reads hi (encodeAll instrs)
          exact readAll_cons hread (ih hrest (Nat.le_of_succ_le_succ hfuel))

theorem inFormat_of_readAll {fuel : Nat} {code : Bytes} {instrs : List Instr}
    (h : readAll fuel code = .ok instrs) :
    (∀ i ∈ instrs, i.InFormat) ∧ (encodeAll instrs).length ≤ code.length := by
  induction fuel generalizing code instrs with
  | zero =>
      cases code <;> cases h <;> exact ⟨nofun, Nat.zero_le _⟩
  | succ fuel ih =>
      cases code with
      | nil => cases h; exact ⟨nofun, Nat.le_refl 0⟩
      | cons b code =>
          obtain ⟨i, rest, is, hi, his, rfl⟩ := of_readAll_eq_ok h
          obtain ⟨hin, hlen⟩ := codec_instr.gives hi
          obtain ⟨hall, hlen'⟩ := ih his
          refine ⟨List.forall_mem_cons.mpr ⟨hin, hall⟩, ?_⟩
          rw [encodeAll, List.flatMap_cons, List.length_append]
          rw [encodeAll] at hlen'
          omega

/-- Every instruction takes a byte. -/
theorem length_le_encodeAll (instrs : List Instr) : instrs.length ≤ (encodeAll instrs).length :=
  length_le_flatMap (w := encode) (fun i => Nat.le_add_left 1 (encodeImmediate i.imm).length) instrs

theorem decodeAll_of_inFormat {instrs : List Instr} (h : ∀ i ∈ instrs, i.InFormat) :
    decodeAll (encodeAll instrs) = .ok instrs :=
  readAll_encodeAll h (length_le_encodeAll instrs)

/-- An instruction is one of the format exactly if some code reads as it. -/
theorem inFormat_iff_decoded (i : Instr) : i.InFormat ↔ ∃ code, decodeAll code = .ok [i] := by
  constructor
  · exact fun h => ⟨encodeAll [i], decodeAll_of_inFormat (List.forall_mem_singleton.mpr h)⟩
  · rintro ⟨code, h⟩
    exact (inFormat_of_readAll h).1 i List.mem_cons_self

/-- Instructions of the format are read back from their code. What is read from any code is such
instructions; they take no more bytes when they are written, and are read back again. -/
theorem decodeAll_encodeAll :
    (∀ instrs : List Instr, (∀ i ∈ instrs, i.InFormat) →
      decodeAll (encodeAll instrs) = .ok instrs) ∧
    ∀ (code : Bytes) (instrs : List Instr), decodeAll code = .ok instrs →
      (∀ i ∈ instrs, i.InFormat) ∧ (encodeAll instrs).length ≤ code.length
        ∧ decodeAll (encodeAll instrs) = .ok instrs := by
  refine ⟨fun instrs h => decodeAll_of_inFormat h, fun code instrs h => ?_⟩
  obtain ⟨hall, hlen⟩ := inFormat_of_readAll h
  exact ⟨hall, hlen, decodeAll_of_inFormat hall⟩

/-- Code with numbers that are not in their shortest form: a constant of 32 bits with a byte that
says nothing and one with bits above its width, a table branch, a constant of 64 bits, a vector. -/
def spelledCode : Bytes :=
  [0x41, 0xff, 0x7f, 0x41, 0x80, 0x80, 0x80, 0x80, 0x78, 0x0e, 0x82, 0x00, 1, 0x82, 0x00, 3,
   0x42, 0x80, 0x80, 0x80, 0x80, 0x80, 0x80, 0x80, 0x80, 0x80, 0x7f,
   0xfd, 0x8c, 0x00, 0, 1, 2, 3, 4, 5, 6, 7, 8, 9, 10, 11, 12, 13, 14, 15]

def spelledInstrs : List Instr :=
  [⟨0x41, .i32 (-1)⟩, ⟨0x41, .i32 (-2 ^ 31)⟩, ⟨0x0e, .branchTable [1, 2] 3⟩,
   ⟨0x42, .i64 (-2 ^ 63)⟩, ⟨0xfd, .v128 0x0706050403020100 0x0f0e0d0c0b0a0908⟩]

theorem decodeAll_encodeAll_spelled :
    ((∀ i ∈ spelledInstrs, i.InFormat) ∧ decodeAll (encodeAll spelledInstrs) = .ok spelledInstrs)
    ∧ decodeAll spelledCode = .ok spelledInstrs
    ∧ (encodeAll spelledInstrs).length ≤ spelledCode.length
    ∧ decodeAll (encodeAll spelledInstrs) = .ok spelledInstrs := by
  have hdecode : decodeAll spelledCode = .ok spelledInstrs := by decide +kernel
  obtain ⟨hall, hlen, hagain⟩ := decodeAll_encodeAll.2 spelledCode spelledInstrs hdecode
  exact ⟨⟨hall, decodeAll_encodeAll.1 spelledInstrs hall⟩, hdecode, hlen, hagain⟩

end Instr

end WasmShader
