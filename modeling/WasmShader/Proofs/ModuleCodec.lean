import WasmShader.Proofs.Codec

/-!
# The entries of a module

For each kind of entry, the values that its reader and its writer agree on: those whose bounds,
names and sizes fit the numbers that are written for them. A global's initialiser is one constant
instruction and its end.
-/

namespace WasmShader.Binary

open Leb128 (readU32 writeNat writeU32 length_writeNat_pos length_writeNat_mono)
open Reader (bind_of_ok of_bind_eq_ok noting_eq_ok Framed)

/-! ## Entries -/

section Pairs

variable {α β γ : Type} {r : Reader α} {s : Reader β} {w : α → Bytes} {v : β → Bytes}
  {P : α → Prop} {Q : β → Prop}

/-- Two values one after the other. -/
theorem Codec.pair (h : Codec r w P) (h' : Codec s v Q) (mk : α → β → γ) (fst : γ → α)
    (snd : γ → β) (hmk : ∀ c, mk (fst c) (snd c) = c) (hfst : ∀ a b, fst (mk a b) = a)
    (hsnd : ∀ a b, snd (mk a b) = b) :
    Codec (do let a ← r; return mk a (← s)) (fun c => w (fst c) ++ v (snd c))
      (fun c => P (fst c) ∧ Q (snd c)) where
  reads := by
    intro c hc rest
    rw [List.append_assoc, bind_of_ok (h.reads hc.1 _), bind_of_ok (h'.reads hc.2 _), hmk]
    rfl
  gives := by
    intro bs c rest hread
    obtain ⟨a, bs', ha, hread⟩ := of_bind_eq_ok hread
    obtain ⟨b, bs'', hb, hread⟩ := of_bind_eq_ok hread
    cases hread
    obtain ⟨hP, hlen⟩ := h.gives ha
    obtain ⟨hQ, hlen'⟩ := h'.gives hb
    rw [hfst, hsnd, List.length_append]
    exact ⟨⟨hP, hQ⟩, by omega⟩

/-- The same reader and writer for values described in another way. -/
theorem Codec.congr (h : Codec r w P) {P' : α → Prop} (hP : ∀ a, P' a ↔ P a) : Codec r w P' where
  reads ha rest := h.reads ((hP _).mp ha) rest
  gives hread := ⟨(hP _).mpr (h.gives hread).1, (h.gives hread).2⟩

end Pairs

/-- The types can be counted. -/
def FuncType.Fits (t : FuncType) : Prop :=
  t.params.length < 2 ^ 32 ∧ t.results.length < 2 ^ 32

theorem codec_bytes : Codec (readVector Reader.byte) (writeVector fun b => [b])
    fun bs : Bytes => bs.length < 2 ^ 32 :=
  (codec_byte.vector fun _ => Nat.le_refl 1).congr fun _ =>
    ⟨fun h => ⟨h, fun _ _ => trivial⟩, fun h => h.few⟩

theorem codec_funcType : Codec readFuncType writeFuncType FuncType.Fits := by
  have hpair := codec_bytes.pair codec_bytes FuncType.mk FuncType.params
    FuncType.results (fun _ => rfl) (fun _ _ => rfl) (fun _ _ => rfl)
  refine ⟨fun ht rest => ?_, fun hread => ?_⟩
  · rw [readFuncType, writeFuncType, List.cons_append, bind_of_ok (r := Reader.byte) rfl]
    exact hpair.reads ht rest
  · rw [readFuncType] at hread
    obtain ⟨form, bs', hform, hread⟩ := of_bind_eq_ok hread
    split at hread
    · cases hread
    · obtain ⟨hfits, hlen⟩ := hpair.gives hread
      have hbyte := (codec_byte.gives hform).2
      refine ⟨hfits, ?_⟩
      rw [writeFuncType, List.length_cons]
      rw [List.length_singleton] at hbyte
      omega

/-- The bounds can be written with 32 bits. -/
def Limits.Fits (l : Limits) : Prop :=
  l.min.toNat < 2 ^ 32 ∧ ∀ max, l.max = some max → max.toNat < 2 ^ 32

theorem toUInt32_toUInt64 {n : UInt64} (h : n.toNat < 2 ^ 32) : n.toUInt32.toUInt64 = n := by
  apply UInt64.toNat_inj.mp
  rw [UInt32.toNat_toUInt64, UInt64.toNat_toUInt32]
  exact Nat.mod_eq_of_lt h

theorem codec_limits : Codec readLimits writeLimits Limits.Fits where
  reads := by
    rintro ⟨min, max⟩ ⟨hmin, hmax⟩ rest
    rw [readLimits, writeLimits]
    dsimp only at hmin hmax ⊢
    cases max with
    | none =>
        rw [List.cons_append, bind_of_ok (r := Reader.byte) rfl,
          bind_of_ok (codec_u32.reads trivial _), if_pos rfl, toUInt32_toUInt64 hmin]
        rfl
    | some max =>
        rw [List.cons_append, bind_of_ok (r := Reader.byte) rfl, List.append_assoc,
          bind_of_ok (codec_u32.reads trivial _), if_neg (by decide), if_pos rfl,
          bind_of_ok (codec_u32.reads trivial _), toUInt32_toUInt64 hmin,
          toUInt32_toUInt64 (hmax max rfl)]
        rfl
  gives := by
    intro bs l rest hread
    rw [readLimits] at hread
    obtain ⟨flag, bs₁, hflag, hread⟩ := of_bind_eq_ok hread
    obtain ⟨min, bs₂, hmin, hread⟩ := of_bind_eq_ok hread
    have hbyte := (codec_byte.gives hflag).2
    have hnumber := (codec_u32.gives hmin).2
    rw [List.length_singleton] at hbyte
    have hsmall (n : UInt32) : n.toUInt64.toNat < 2 ^ 32 := by
      rw [UInt32.toNat_toUInt64]
      exact n.toNat_lt
    split at hread
    · cases hread
      refine ⟨⟨hsmall min, nofun⟩, ?_⟩
      rw [writeLimits, List.length_cons, UInt32.toUInt32_toUInt64]
      omega
    · split at hread
      · obtain ⟨max, bs₃, hmax, hread⟩ := of_bind_eq_ok hread
        cases hread
        have hnumber' := (codec_u32.gives hmax).2
        refine ⟨⟨hsmall min, fun n hn => by cases hn; exact hsmall max⟩, ?_⟩
        rw [writeLimits, List.length_cons, List.length_append, UInt32.toUInt32_toUInt64,
          UInt32.toUInt32_toUInt64]
        omega
      · cases hread

theorem codec_tableType : Codec readTableType writeTableType fun t => t.limits.Fits :=
  (codec_byte.pair codec_limits TableType.mk TableType.elem
    TableType.limits (fun _ => rfl) (fun _ _ => rfl) (fun _ _ => rfl)).congr
    fun _ => ⟨fun h => ⟨trivial, h⟩, fun h => h.2⟩

theorem codec_globalType : Codec readGlobalType writeGlobalType fun _ => True where
  reads := by
    rintro ⟨type, isMutable⟩ - rest
    cases isMutable <;> rfl
  gives := by
    intro bs g rest hread
    rw [readGlobalType] at hread
    obtain ⟨type, bs₁, htype, hread⟩ := of_bind_eq_ok hread
    obtain ⟨flag, bs₂, hflag, hread⟩ := of_bind_eq_ok hread
    have hbyte := (codec_byte.gives htype).2
    have hbyte' := (codec_byte.gives hflag).2
    split at hread
    · cases hread
    · cases hread
      refine ⟨trivial, ?_⟩
      rw [writeGlobalType, List.length_cons, List.length_singleton]
      rw [List.length_singleton] at hbyte hbyte'
      omega

/-- The import has the description of its kind. -/
def ImportDesc.Fits : ImportDesc → Prop
  | .func _ | .global _ => True
  | .table type => type.limits.Fits
  | .memory limits => limits.Fits
  | .bare _ => False

/-- The names can be counted, and the description is there. -/
def Import.Fits (i : Import) : Prop :=
  i.module.length < 2 ^ 32 ∧ i.name.length < 2 ^ 32 ∧ i.desc.Fits

/-- Reads what an import brings in. -/
def readImportDesc : Reader ImportDesc := do
  let kind ← Reader.byte
  if kind = 0 then return .func (← readU32)
  else if kind = 1 then return .table (← readTableType)
  else if kind = 2 then return .memory (← readLimits)
  else if kind = 3 then return .global (← readGlobalType)
  else throw (.plain ("unknown import kind: " ++ toString kind.toNat))

theorem readImport_eq : readImport = (do
    let module ← readName
    let name ← readName
    return ⟨module, name, ← readImportDesc⟩ : Reader Import) := by
  refine bind_congr fun module => bind_congr fun name => ?_
  rw [readImportDesc, bind_assoc]
  refine bind_congr fun kind => ?_
  split
  · rw [bind_assoc]
    exact bind_congr fun _ => (pure_bind _ _).symm
  · split
    · rw [bind_assoc]
      exact bind_congr fun _ => (pure_bind _ _).symm
    · split
      · rw [bind_assoc]
        exact bind_congr fun _ => (pure_bind _ _).symm
      · split
        · rw [bind_assoc]
          exact bind_congr fun _ => (pure_bind _ _).symm
        · rfl

theorem codec_importDesc : Codec readImportDesc writeImportDesc ImportDesc.Fits where
  reads := by
    intro desc hdesc rest
    rw [readImportDesc]
    cases desc with
    | func typeIdx =>
        rw [writeImportDesc, List.cons_append, bind_of_ok (r := Reader.byte) rfl, if_pos rfl,
          bind_of_ok (codec_u32.reads trivial _)]
        rfl
    | table type =>
        rw [writeImportDesc, List.cons_append, bind_of_ok (r := Reader.byte) rfl,
          if_neg (by decide), if_pos rfl, bind_of_ok (codec_tableType.reads hdesc _)]
        rfl
    | memory limits =>
        rw [writeImportDesc, List.cons_append, bind_of_ok (r := Reader.byte) rfl,
          if_neg (by decide), if_neg (by decide), if_pos rfl,
          bind_of_ok (codec_limits.reads hdesc _)]
        rfl
    | global type =>
        rw [writeImportDesc, List.cons_append, bind_of_ok (r := Reader.byte) rfl,
          if_neg (by decide), if_neg (by decide), if_neg (by decide), if_pos rfl,
          bind_of_ok (codec_globalType.reads trivial _)]
        rfl
    | bare kind => exact hdesc.elim
  gives := by
    intro bs desc rest hread
    rw [readImportDesc] at hread
    obtain ⟨kind, bs₁, hkind, hread⟩ := of_bind_eq_ok hread
    have hbyte := (codec_byte.gives hkind).2
    rw [List.length_singleton] at hbyte
    split at hread
    · obtain ⟨x, bs₂, hx, hread⟩ := of_bind_eq_ok hread
      cases hread
      obtain ⟨hfits, hlen⟩ := codec_u32.gives hx
      exact ⟨hfits, by rw [writeImportDesc, List.length_cons]; omega⟩
    · split at hread
      · obtain ⟨x, bs₂, hx, hread⟩ := of_bind_eq_ok hread
        cases hread
        obtain ⟨hfits, hlen⟩ := codec_tableType.gives hx
        exact ⟨hfits, by rw [writeImportDesc, List.length_cons]; omega⟩
      · split at hread
        · obtain ⟨x, bs₂, hx, hread⟩ := of_bind_eq_ok hread
          cases hread
          obtain ⟨hfits, hlen⟩ := codec_limits.gives hx
          exact ⟨hfits, by rw [writeImportDesc, List.length_cons]; omega⟩
        · split at hread
          · obtain ⟨x, bs₂, hx, hread⟩ := of_bind_eq_ok hread
            cases hread
            obtain ⟨hfits, hlen⟩ := codec_globalType.gives hx
            exact ⟨hfits, by rw [writeImportDesc, List.length_cons]; omega⟩
          · cases hread

theorem codec_import : Codec readImport writeImport Import.Fits := by
  rw [readImport_eq]
  refine ⟨fun {i} hi rest => ?_, fun hread => ?_⟩
  · obtain ⟨hmodule, hname, hdesc⟩ := hi
    rw [writeImport, List.append_assoc, List.append_assoc, bind_of_ok (codec_name.reads hmodule _),
      bind_of_ok (codec_name.reads hname _), bind_of_ok (codec_importDesc.reads hdesc _)]
    rfl
  · obtain ⟨module, bs₁, hmodule, hread⟩ := of_bind_eq_ok hread
    obtain ⟨name, bs₂, hname, hread⟩ := of_bind_eq_ok hread
    obtain ⟨desc, bs₃, hdesc, hread⟩ := of_bind_eq_ok hread
    cases hread
    obtain ⟨hmodule, hlen₁⟩ := codec_name.gives hmodule
    obtain ⟨hname, hlen₂⟩ := codec_name.gives hname
    obtain ⟨hdesc, hlen₃⟩ := codec_importDesc.gives hdesc
    refine ⟨⟨hmodule, hname, hdesc⟩, ?_⟩
    rw [writeImport, List.length_append, List.length_append]
    dsimp only
    omega

/-! ### Globals -/

theorem framed_skipConstant (opcode : UInt8) : Framed (skipConstant opcode) := by
  unfold skipConstant
  split
  · exact Leb128.framed_readS32.bind fun _ => .pure _
  · exact Leb128.framed_readS64.bind fun _ => .pure _
  · exact (Reader.framed_fixed 4).bind fun _ => .pure _
  · exact (Reader.framed_fixed 8).bind fun _ => .pure _
  · exact Leb128.framed_readU32.bind fun _ => .pure _
  · exact .throw _

theorem framed_skipConstExpr : Framed skipConstExpr := by
  refine Reader.framed_byte.bind fun opcode => (framed_skipConstant opcode).bind fun _ => ?_
  refine Reader.framed_byte.bind fun last => ?_
  split
  · exact .throw _
  · exact .pure _

/-- The bytes are a constant expression. -/
def IsConstExpr (init : Bytes) : Prop := skipConstExpr init = .ok ((), [])

theorem codec_constExpr : Codec (consumed skipConstExpr) id IsConstExpr where
  reads := by
    intro init hinit rest
    obtain ⟨used, hused, hskip⟩ := framed_skipConstExpr _ _ _ hinit
    rw [List.append_nil] at hused
    subst hused
    have hlen : (init ++ rest).length - rest.length = init.length := by
      rw [List.length_append]
      omega
    rw [id, consumed, hskip rest]
    change Except.ok ((init ++ rest).take ((init ++ rest).length - rest.length), rest) = _
    rw [hlen, List.take_left]
  gives := by
    intro bs init rest hread
    rw [consumed] at hread
    cases hskip : skipConstExpr bs with
    | error e =>
        rw [hskip] at hread
        cases hread
    | ok x =>
        rw [hskip] at hread
        cases hread
        obtain ⟨used, rfl, hused⟩ := framed_skipConstExpr _ _ _ hskip
        have hlen : (used ++ x.2).length - x.2.length = used.length := by
          rw [List.length_append]
          omega
        rw [hlen, List.take_left]
        refine ⟨?_, by rw [id, List.length_append]⟩
        have hself := hused []
        rw [List.append_nil] at hself
        exact hself

/-- An instruction whose value is known before anything runs. -/
def IsConstant (i : Instr) : Prop :=
  i.operation ∈ [.i32Const, .i64Const, .f32Const, .f64Const, .globalGet]

/-- The bytes hold one constant instruction and its end. -/
def IsInitialiser (init : Bytes) : Prop :=
  ∃ i, IsConstant i ∧ Instr.decodeAll init = .ok [i, ⟨0x0b, .none⟩]

/-- A value can be passed over where it can be read. -/
theorem skip_eq_ok {α β : Type} {r : Reader α} (f : α → β) {bs rest : Bytes} :
    (do let _ ← r; pure () : Reader Unit) bs = .ok ((), rest)
      ↔ ∃ b, (do return f (← r) : Reader β) bs = .ok (b, rest) := by
  constructor
  · intro h
    obtain ⟨a, bs', ha, h⟩ := of_bind_eq_ok h
    cases h
    exact ⟨f a, bind_of_ok ha⟩
  · rintro ⟨b, h⟩
    obtain ⟨a, bs', ha, h⟩ := of_bind_eq_ok h
    cases h
    exact bind_of_ok ha

theorem skipConstant_eq_ok {opcode : UInt8} {bs rest : Bytes} :
    skipConstant opcode bs = .ok ((), rest)
      ↔ ∃ imm, IsConstant ⟨opcode, imm⟩ ∧ Instr.readImmediate opcode bs = .ok (imm, rest) := by
  unfold skipConstant IsConstant Instr.operation Instr.readImmediate
  dsimp only
  cases Operation.ofOpcode opcode with
  | i32Const => simpa [noting_eq_ok] using skip_eq_ok Immediate.i32
  | i64Const => simpa [noting_eq_ok] using skip_eq_ok Immediate.i64
  | f32Const =>
      simpa [noting_eq_ok, Instr.readFixed] using
        skip_eq_ok fun bs => Immediate.f32 (ofLittleEndian bs).toUInt32
  | f64Const =>
      simpa [noting_eq_ok, Instr.readFixed] using
        skip_eq_ok fun bs => Immediate.f64 (ofLittleEndian bs).toUInt64
  | globalGet => simpa [noting_eq_ok] using skip_eq_ok Immediate.globalVar
  | _ => exact ⟨nofun, fun ⟨_, h, _⟩ => by simp at h⟩

theorem read_cons {opcode : UInt8} {bs rest : Bytes} {i : Instr} :
    Instr.read (opcode :: bs) = .ok (i, rest)
      ↔ i.opcode = opcode ∧ Instr.readImmediate opcode bs = .ok (i.imm, rest) := by
  constructor
  · intro h
    obtain ⟨opcode', bs', hopcode, h⟩ := of_bind_eq_ok (r := Reader.byte) h
    cases hopcode
    obtain ⟨imm, bs₁, himm, h⟩ := of_bind_eq_ok h
    cases h
    exact ⟨rfl, himm⟩
  · rintro ⟨rfl, h⟩
    exact (bind_of_ok (r := Reader.byte) rfl).trans (bind_of_ok h)

theorem readAll_nil (fuel : Nat) : Instr.readAll fuel [] = .ok [] := by
  cases fuel <;> rfl

theorem readAll_cons {fuel : Nat} {b : UInt8} {bs rest : Bytes} {i : Instr} {is : List Instr}
    (hread : Instr.read (b :: bs) = .ok (i, rest)) (hrest : Instr.readAll fuel rest = .ok is) :
    Instr.readAll (fuel + 1) (b :: bs) = .ok (i :: is) := by
  unfold Instr.readAll
  rw [hread]
  exact congrArg (Except.map (i :: ·)) hrest

theorem of_readAll_eq_ok {fuel : Nat} {b : UInt8} {bs : Bytes} {instrs : List Instr}
    (h : Instr.readAll (fuel + 1) (b :: bs) = .ok instrs) :
    ∃ i rest is, Instr.read (b :: bs) = .ok (i, rest) ∧ Instr.readAll fuel rest = .ok is
      ∧ instrs = i :: is := by
  unfold Instr.readAll at h
  cases hread : Instr.read (b :: bs) with
  | error e =>
      rw [hread] at h
      cases h
  | ok x =>
      rw [hread] at h
      change (Instr.readAll fuel x.2).map (x.1 :: ·) = _ at h
      cases hrest : Instr.readAll fuel x.2 with
      | error e =>
          rw [hrest] at h
          cases h
      | ok is =>
          rw [hrest] at h
          cases h
          exact ⟨x.1, x.2, is, rfl, hrest, rfl⟩

theorem of_readAll_eq_nil {fuel : Nat} {bs : Bytes} (hfuel : bs.length ≤ fuel)
    (h : Instr.readAll fuel bs = .ok []) : bs = [] := by
  cases bs with
  | nil => rfl
  | cons b bs =>
      cases fuel with
      | zero => cases hfuel
      | succ fuel =>
          obtain ⟨_, _, _, _, _, hnil⟩ := of_readAll_eq_ok h
          cases hnil

theorem isConstExpr_iff {init : Bytes} : IsConstExpr init ↔ IsInitialiser init := by
  unfold IsConstExpr IsInitialiser Instr.decodeAll
  cases init with
  | nil => exact ⟨nofun, nofun⟩
  | cons opcode bs =>
      constructor
      · intro h
        obtain ⟨opcode', bs', hopcode, h⟩ := of_bind_eq_ok (r := Reader.byte) h
        cases hopcode
        obtain ⟨_, bs₁, hskip, h⟩ := of_bind_eq_ok h
        obtain ⟨last, bs₂, hlast, h⟩ := of_bind_eq_ok h
        split at h
        · cases h
        · next hend =>
          cases h
          obtain ⟨imm, hconst, himm⟩ := skipConstant_eq_ok.mp hskip
          obtain ⟨used, rfl, -⟩ := framed_skipConstant _ _ _ _ hskip
          refine ⟨_, hconst, readAll_cons (read_cons.mpr ⟨rfl, himm⟩) ?_⟩
          cases bs₁ with
          | nil => cases hlast
          | cons b rest =>
              cases hlast
              rw [not_not.mp hend, List.length_append]
              exact readAll_cons rfl (readAll_nil _)
      · rintro ⟨i, hconst, h⟩
        obtain ⟨i, rest, is, hread, hrest, heq⟩ := of_readAll_eq_ok h
        cases heq
        obtain ⟨rfl, himm⟩ := read_cons.mp hread
        have hskip := skipConstant_eq_ok.mpr ⟨i.imm, hconst, himm⟩
        obtain ⟨used, rfl, -⟩ := framed_skipConstant _ _ _ _ hskip
        cases rest with
        | nil =>
            rw [readAll_nil] at hrest
            cases hrest
        | cons b rest =>
            rw [List.length_append, List.length_cons, ← Nat.add_assoc] at hrest
            obtain ⟨_, rest', _, hread, hrest, heq⟩ := of_readAll_eq_ok hrest
            cases heq
            obtain ⟨rfl, himm⟩ := read_cons.mp hread
            cases himm
            cases of_readAll_eq_nil (Nat.le_add_left _ _) hrest
            exact (bind_of_ok (r := Reader.byte) rfl).trans (bind_of_ok hskip)

theorem codec_global : Codec readGlobal writeGlobal fun g => IsInitialiser g.init :=
  (codec_globalType.pair codec_constExpr Global.mk Global.type
    Global.init (fun _ => rfl) (fun _ _ => rfl) (fun _ _ => rfl)).congr
    fun _ => ⟨fun h => ⟨trivial, isConstExpr_iff.mpr h⟩, fun h => isConstExpr_iff.mp h.2⟩

/-! ### Exports and code -/

/-- The name can be counted, and the format has the kind. -/
def Export.Fits (e : Export) : Prop := e.name.length < 2 ^ 32 ∧ e.kind ≤ 3

theorem codec_export : Codec readExport writeExport Export.Fits where
  reads := by
    rintro ⟨name, kind, idx⟩ ⟨hname, hkind⟩ rest
    rw [readExport, writeExport, List.append_assoc, bind_of_ok (codec_name.reads hname _),
      List.cons_append, bind_of_ok (r := Reader.byte) rfl, if_neg (UInt8.not_lt.mpr hkind)]
    dsimp only
    rw [bind_of_ok (codec_u32.reads trivial _)]
    rfl
  gives := by
    intro bs e rest hread
    rw [readExport] at hread
    obtain ⟨name, bs₁, hname, hread⟩ := of_bind_eq_ok hread
    obtain ⟨kind, bs₂, hkind, hread⟩ := of_bind_eq_ok hread
    split at hread
    · cases hread
    · next hsmall =>
      obtain ⟨idx, bs₃, hidx, hread⟩ := of_bind_eq_ok hread
      cases hread
      obtain ⟨hname, hlen₁⟩ := codec_name.gives hname
      have hlen₂ := (codec_byte.gives hkind).2
      have hlen₃ := (codec_u32.gives hidx).2
      refine ⟨⟨hname, UInt8.not_lt.mp hsmall⟩, ?_⟩
      rw [List.length_singleton] at hlen₂
      rw [writeExport, List.length_append, List.length_cons]
      dsimp only
      omega

def writeLocalRun (r : LocalRun) : Bytes := writeU32 r.count ++ [r.type]

theorem codec_localRun : Codec readLocalRun writeLocalRun fun _ => True :=
  (codec_u32.pair codec_byte LocalRun.mk LocalRun.count
    LocalRun.type (fun _ => rfl) (fun _ _ => rfl) (fun _ _ => rfl)).congr
    fun _ => ⟨fun _ => ⟨trivial, trivial⟩, fun _ => trivial⟩

theorem codec_locals : Codec (readVector readLocalRun) (writeVector writeLocalRun)
    fun runs => runs.length < 2 ^ 32 := by
  refine (codec_localRun.vector fun r => ?_).congr fun runs =>
    ⟨fun h => ⟨h, fun _ _ => trivial⟩, fun h => h.few⟩
  rw [writeLocalRun, List.length_append, List.length_singleton]
  omega

/-- How many locals a body declares. -/
def FuncBody.declared (b : FuncBody) : Nat := b.locals.foldl (fun n r => n + r.count.toNat) 0

/-- What stands behind the size of a body. -/
def FuncBody.data (b : FuncBody) : Bytes := writeVector writeLocalRun b.locals ++ b.code

theorem writeFuncBody_eq (b : FuncBody) : writeFuncBody b = writeName b.data := rfl

/-- The body declares no more locals than it may, and its size can be written. -/
structure FuncBody.Fits (b : FuncBody) : Prop where
  locals : b.declared ≤ maxLocals
  runs : b.locals.length < 2 ^ 32
  size : b.data.length < 2 ^ 32

theorem codec_funcBody : Codec readFuncBody writeFuncBody FuncBody.Fits where
  reads := by
    intro b hb rest
    have hcount : b.data.length.toUInt32.toNat = b.data.length := toNat_toUInt32 hb.size
    have hnumber : writeNat b.data.length = writeU32 b.data.length.toUInt32 := by
      rw [writeU32, hcount]
    have hlocals : readVector readLocalRun b.data = .ok (b.locals, b.code) :=
      codec_locals.reads hb.runs b.code
    rw [writeFuncBody_eq, writeName, hnumber, List.append_assoc, readFuncBody,
      bind_of_ok (codec_u32.reads trivial _), hcount, bind_of_ok (Reader.take_append rfl rest)]
    rw [hlocals]
    change (if maxLocals < b.declared then _ else _ : Reader FuncBody) rest = _
    rw [if_neg (Nat.not_lt.mpr hb.locals)]
    rfl
  gives := by
    intro bs b rest hread
    rw [readFuncBody] at hread
    obtain ⟨size, bs₁, hsize, hread⟩ := of_bind_eq_ok hread
    obtain ⟨data, bs₂, hdata, hread⟩ := of_bind_eq_ok hread
    obtain ⟨hlen, hbs⟩ := Reader.of_take_eq_ok hdata
    cases hlocals : readVector readLocalRun data with
    | error e =>
        rw [hlocals] at hread
        cases hread
    | ok x =>
        obtain ⟨locals, code⟩ := x
        rw [hlocals] at hread
        change (if maxLocals < FuncBody.declared ⟨locals, code⟩ then _ else _ : Reader FuncBody) bs₂
          = _ at hread
        split at hread
        · cases hread
        · next hfew =>
          cases hread
          obtain ⟨hruns, hsize'⟩ := codec_locals.gives hlocals
          have hdata : (FuncBody.data ⟨locals, code⟩).length ≤ size.toNat := by
            rw [FuncBody.data, List.length_append]
            dsimp only
            omega
          have hsmall := size.toNat_lt
          refine ⟨⟨Nat.not_lt.mp hfew, hruns, by omega⟩, ?_⟩
          have hnumber := (codec_u32.gives hsize).2
          have hmono := length_writeNat_mono hdata
          rw [writeU32, hbs, List.length_append] at hnumber
          rw [writeFuncBody_eq, writeName, List.length_append]
          omega

end WasmShader.Binary
