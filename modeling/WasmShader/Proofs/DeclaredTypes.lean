import WasmShader.Proofs.EntryNames

/-!
# Declared types of callees

The signature that a program gives a function is the conversion of the type that the module
declares for it, if that type has only value types that there are. Another type has no
conversion: the function gets the empty signature, and the failure is kept with the import or
in place of the body. An indirect call consults that failure, so the types of checked
indirect calls convert. A direct call does not: it passes the check against the empty
signature.
-/

namespace WasmShader

/-- All bytes of the type are value types. -/
def Binary.FuncType.IsNumeric (t : Binary.FuncType) : Prop :=
  ∀ b ∈ t.params ++ t.results, (ValueType.ofByte? b).isSome = true

instance (t : Binary.FuncType) : Decidable t.IsNumeric :=
  inferInstanceAs (Decidable (∀ b ∈ t.params ++ t.results, (ValueType.ofByte? b).isSome = true))

namespace Program

/-! ## Conversion of types -/

theorem exists_convertTypes {bs : Bytes} (h : ∀ b ∈ bs, (ValueType.ofByte? b).isSome = true) :
    ∃ ts, convertTypes bs = .ok ts := by
  induction bs with
  | nil => exact ⟨[], rfl⟩
  | cons b bs ih =>
      obtain ⟨t, ht⟩ := Option.isSome_iff_exists.mp (h b List.mem_cons_self)
      obtain ⟨ts, hts⟩ := ih fun b hb => h b (List.mem_cons_of_mem _ hb)
      exact ⟨t :: ts, by rw [convertTypes, ht]; dsimp only; rw [hts]; rfl⟩

theorem isSome_of_convertTypes {bs : Bytes} {ts : List ValueType} (h : convertTypes bs = .ok ts) :
    ∀ b ∈ bs, (ValueType.ofByte? b).isSome = true := by
  induction bs generalizing ts with
  | nil => nofun
  | cons b bs ih =>
      rw [convertTypes] at h
      split at h
      · cases h
      · next t ht =>
        obtain ⟨rest, hrest, -⟩ := bind_eq_ok h
        intro b' hb'
        cases hb' with
        | head => rw [ht]; rfl
        | tail _ hb' => exact ih hrest b' hb'

/-- A type converts iff it is numeric. -/
theorem exists_convertSignature_iff {t : Binary.FuncType} :
    (∃ sig, convertSignature t = .ok sig) ↔ t.IsNumeric := by
  constructor
  · rintro ⟨sig, h⟩ b hb
    obtain ⟨params, hparams, h⟩ := bind_eq_ok h
    obtain ⟨results, hresults, -⟩ := bind_eq_ok h
    rcases List.mem_append.mp hb with hb | hb
    · exact isSome_of_convertTypes hparams b hb
    · exact isSome_of_convertTypes hresults b hb
  · intro h
    obtain ⟨params, hparams⟩ := exists_convertTypes fun b hb => h b (List.mem_append_left _ hb)
    obtain ⟨results, hresults⟩ := exists_convertTypes fun b hb => h b (List.mem_append_right _ hb)
    exact ⟨⟨params, results⟩, by rw [convertSignature, hparams]; simp [hresults, bind, Except.bind]; rfl⟩

/-- The entry is that of a declared type: its conversion, or the empty signature with a
failure. -/
structure IsEntryOf (t : Binary.FuncType) (sig : Signature) (failed : Prop) : Prop where
  converted : t.IsNumeric → convertSignature t = .ok sig
  replaced : ¬t.IsNumeric → sig = ⟨[], []⟩ ∧ failed

theorem isEntryOf_typeEntry (i : Nat) (t : Binary.FuncType) :
    IsEntryOf t (typeEntry i t).sig ((typeEntry i t).err.isSome = true) := by
  cases hc : convertSignature t with
  | ok sig =>
      refine ⟨fun _ => ?_, fun h => absurd (exists_convertSignature_iff.mp ⟨sig, hc⟩) h⟩
      rw [typeEntry, hc]
  | error e =>
      refine ⟨fun h => ?_, fun _ => ?_⟩
      · obtain ⟨sig, hsig⟩ := exists_convertSignature_iff.mpr h
        rw [hc] at hsig
        cases hsig
      · rw [typeEntry, hc]
        exact ⟨rfl, rfl⟩

theorem IsEntryOf.mono {t : Binary.FuncType} {sig : Signature} {failed failed' : Prop}
    (h : IsEntryOf t sig failed) (hmono : failed → failed') : IsEntryOf t sig failed' :=
  ⟨h.converted, fun ht => ⟨(h.replaced ht).1, hmono (h.replaced ht).2⟩⟩

/-! ## Functions of a module -/

/-- The index is that of a declared type with the given signature. -/
def HasType (types : List Binary.FuncType) (idx : UInt32) (sig : Signature) (failed : Prop) :
    Prop :=
  ∃ t, types[idx.toNat]? = some t ∧ IsEntryOf t sig failed

theorem hasType_of_typeAt {types : List Binary.FuncType} {idx : UInt32} {e : TypeEntry}
    (h : typeAt (types.mapIdx typeEntry) idx = .ok e) :
    HasType types idx e.sig (e.err.isSome = true) := by
  unfold typeAt at h
  split at h
  · next e' he =>
    cases h
    rw [List.getElem?_mapIdx] at he
    obtain ⟨t, ht, rfl⟩ := Option.map_eq_some_iff.mp he
    exact ⟨t, ht, isEntryOf_typeEntry _ t⟩
  · cases h

theorem importsOf_hasType {types : List Binary.FuncType} {base : Nat}
    {is : List Binary.Import} {imports : List Import}
    (h : importsOf (types.mapIdx typeEntry) base is = .ok imports) :
    List.Forall₂ (fun idx i => HasType types idx i.type (i.err.isSome = true))
      (Binary.Module.importedFuncs { imports := is }) imports := by
  induction is generalizing base imports with
  | nil => cases h; exact .nil
  | cons i rest ih =>
      rw [importsOf] at h
      unfold Binary.Module.importedFuncs at ih ⊢
      rw [List.filterMap_cons]
      cases hdesc : i.desc with
      | func idx =>
          simp only [hdesc] at h ⊢
          obtain ⟨t, ht, h⟩ := bind_eq_ok h
          obtain ⟨more, hmore, h⟩ := bind_eq_ok h
          cases h
          exact .cons (hasType_of_typeAt ht) (ih hmore)
      | global type => simp only [hdesc] at h; cases h
      | bare kind =>
          simp only [hdesc] at h ⊢
          split at h
          · cases h
          · exact ih h
      | table type => simp only [hdesc] at h ⊢; exact ih h
      | memory limits => simp only [hdesc] at h ⊢; exact ih h

theorem functionOf_hasType {m : Binary.Module} {base pos : Nat} {idx : UInt32}
    {code : Binary.FuncBody} {f : Function}
    (h : functionOf m (m.types.mapIdx typeEntry) base pos idx code = .ok f) :
    HasType m.types idx f.type (∃ e, f.body = .error e) := by
  obtain ⟨e, he, h⟩ := bind_eq_ok h
  obtain ⟨t, ht, hentry⟩ := hasType_of_typeAt (liftFailure_eq_ok he)
  refine ⟨t, ht, ?_⟩
  split at h
  · cases h
    exact hentry.mono fun _ => ⟨_, rfl⟩
  · next hnone =>
    have htype : f.type = e.sig := by
      dsimp only at h
      split at h
      · cases h; rfl
      · obtain ⟨instrs, -, h⟩ := bind_eq_ok h
        split at h
        · obtain ⟨body, -, h⟩ := bind_eq_ok h
          obtain ⟨calls, -, h⟩ := bind_eq_ok h
          cases h
          rfl
        · cases h
        · cases h
    rw [htype]
    exact hentry.mono fun hfailed => absurd hfailed hnone

theorem functionsOf_hasType {m : Binary.Module} {base pos : Nat}
    {codes : List (UInt32 × Binary.FuncBody)} {funcs : List Function}
    (h : functionsOf m (m.types.mapIdx typeEntry) base pos codes = .ok funcs) :
    List.Forall₂ (fun idx f => HasType m.types idx f.type (∃ e, f.body = .error e))
      (codes.map (·.1)) funcs := by
  induction codes generalizing pos funcs with
  | nil => cases h; exact .nil
  | cons c rest ih =>
      rw [functionsOf] at h
      obtain ⟨f, hf, h⟩ := bind_eq_ok h
      obtain ⟨more, hmore, h⟩ := bind_eq_ok h
      cases h
      exact .cons (functionOf_hasType hf) (ih hmore)

/-- That a function has no signature is kept with it. -/
def SignatureFailed (p : Program) (idx : Nat) : Prop :=
  (∃ i, p.imports[idx]? = some i ∧ i.err.isSome = true)
    ∨ ∃ f e, p.func? idx = some f ∧ f.body = .error e

theorem types_of_ofModule {m : Binary.Module} {p : Program} (hp : ofModule m = .ok p) :
    p.types = m.types.mapIdx typeEntry := by
  rw [ofModule] at hp
  split at hp
  · cases hp
  · obtain ⟨imports, -, hp⟩ := bind_eq_ok hp
    obtain ⟨globals, -, hp⟩ := bind_eq_ok hp
    obtain ⟨funcs, -, hp⟩ := bind_eq_ok hp
    cases hp
    rfl

/-- Every function of a program has the type that its module declares for it. -/
theorem isEntryOf_of_signature? {m : Binary.Module} {p : Program} (hp : ofModule m = .ok p)
    {idx : Nat} {sig : Signature} (h : p.signature? idx = some sig) :
    ∃ t, m.funcTypeAt? idx = some t ∧ IsEntryOf t sig (p.SignatureFailed idx) := by
  rw [ofModule] at hp
  split at hp
  · cases hp
  · next hlen =>
    obtain ⟨imports, himports, hp⟩ := bind_eq_ok hp
    obtain ⟨globals, -, hp⟩ := bind_eq_ok hp
    obtain ⟨funcs, hfuncs, hp⟩ := bind_eq_ok hp
    cases hp
    have himported : List.Forall₂ (fun idx i => HasType m.types idx i.type (i.err.isSome = true))
        m.importedFuncs imports := importsOf_hasType (liftFailure_eq_ok himports)
    have hdefined := functionsOf_hasType hfuncs
    rw [List.map_fst_zip (by omega)] at hdefined
    have hcount : m.importedFuncs.length = imports.length := himported.length_eq
    unfold signature? at h
    split at h
    · next hi =>
      obtain ⟨i, hget, rfl⟩ := Option.map_eq_some_iff.mp h
      obtain ⟨typeIdx, htypeIdx, t, ht, hentry⟩ := getElem?_of_forall₂ himported.flip hget
      refine ⟨t, ?_, hentry.mono fun herr => .inl ⟨i, hget, herr⟩⟩
      have hlt := (List.getElem?_eq_some_iff.mp htypeIdx).1
      change (do let typeIdx ← (m.importedFuncs ++ m.funcs)[idx]?; m.types[typeIdx.toNat]?) = _
      rw [List.getElem?_append_left hlt]
      exact Option.bind_eq_some_iff.mpr ⟨typeIdx, htypeIdx, ht⟩
    · next hi =>
      obtain ⟨f, hf, rfl⟩ := Option.map_eq_some_iff.mp h
      have hget := hf
      rw [func?, if_neg hi] at hget
      obtain ⟨typeIdx, htypeIdx, t, ht, hentry⟩ := getElem?_of_forall₂ hdefined.flip hget
      refine ⟨t, ?_, hentry.mono fun hbody => .inr ⟨f, hbody.choose, hf, hbody.choose_spec⟩⟩
      have hge : imports.length ≤ idx := by
        simpa [isImport] using hi
      change (do let typeIdx ← (m.importedFuncs ++ m.funcs)[idx]?; m.types[typeIdx.toNat]?) = _
      rw [List.getElem?_append_right (by omega), hcount]
      exact Option.bind_eq_some_iff.mpr ⟨typeIdx, htypeIdx, ht⟩

/-! ## Calls of checked functions -/

/-- An indirect call is checked against the conversion of its type. -/
theorem indirect_types_convert {m : Binary.Module} {p : Program} (hp : ofModule m = .ok p)
    {f : Function} {imm : Immediate} {sig : Signature} (h : p.indirectSignature f imm = .ok sig) :
    ∃ typeIdx table t, imm = .callIndirect typeIdx table ∧ m.types[typeIdx.toNat]? = some t
      ∧ convertSignature t = .ok sig := by
  obtain ⟨typeIdx, table, e, rfl, he, herr, rfl⟩ := indirectSignature_eq_ok h
  rw [types_of_ofModule hp, List.getElem?_mapIdx] at he
  obtain ⟨t, ht, rfl⟩ := Option.map_eq_some_iff.mp he
  refine ⟨typeIdx, table, t, rfl, ht, ?_⟩
  have hentry := isEntryOf_typeEntry typeIdx.toNat t
  refine hentry.converted (Classical.byContradiction fun hnot => ?_)
  have hfailed := (hentry.replaced hnot).2
  rw [herr] at hfailed
  cases hfailed

/-- A function that calls an import with a result of the given type. -/
def callOf (result : UInt8) : Binary.Module where
  types := [⟨[], [result]⟩, ⟨[], []⟩]
  imports := [⟨[0x65], [0x66], .func 0⟩]
  funcs := [1]
  code := [⟨[], [0x10, 0x00, 0x0f, 0x0b]⟩]

/-- What a function that calls an import is read as. -/
theorem callOf_read {result : UInt8} (h : result = 0x7f ∨ result = 0x6f) :
    ∃ p f, ofModule (callOf result) = .ok p ∧ p.funcs = [f] ∧ p.check f = .ok ()
      ∧ f.body = .ok [.instr ⟨0x10, .call 0⟩, .instr ⟨0x0f, .none⟩] := by
  rcases h with rfl | rfl
  · exact ⟨_, _, rfl, rfl, rfl, rfl⟩
  · exact ⟨_, _, rfl, rfl, rfl, rfl⟩

/-- The target of a checked call has the type that the module declares for it if that is
numeric. Otherwise the call is checked against the empty signature, and that there is no
other is kept with the target. -/
theorem call_types_declared {m : Binary.Module} {p : Program} (hp : ofModule m = .ok p)
    {f : Function} (hf : f ∈ p.funcs) (hcheck : p.check f = .ok ()) :
    ∃ body, f.body = .ok body ∧ ∀ i ∈ Body.instrs body, ∀ target, i.operation = .call →
      i.imm = .call target →
      ∃ t sig, m.funcTypeAt? target.toNat = some t ∧ p.signature? target.toNat = some sig
        ∧ (t.IsNumeric → convertSignature t = .ok sig)
        ∧ (¬t.IsNumeric → sig = ⟨[], []⟩ ∧ p.SignatureFailed target.toNat) := by
  have hformed := formed_of_ofModule hp
  obtain ⟨body, hbody, htyped⟩ := typedSeq_of_check_function (hformed.body f hf) hcheck
  refine ⟨body, hbody, fun i hi target hop himm => ?_⟩
  obtain ⟨labels, stack, out, hinstr⟩ := htyped.of_mem_instrs i hi
  obtain ⟨sig, hsig⟩ := hinstr.exists_signature hop himm
  obtain ⟨t, ht, hentry⟩ := isEntryOf_of_signature? hp hsig
  exact ⟨t, sig, ht, hsig, hentry.converted, hentry.replaced⟩

theorem call_types_declared_i32 :
    ∃ p, ofModule (callOf 0x7f) = .ok p ∧ p.signature? 0 = some ⟨[], [.i32]⟩ := by
  obtain ⟨p, f, hp, hfuncs, hcheck, hbody⟩ := callOf_read (.inl rfl)
  obtain ⟨body, hbody', hcalls⟩ :=
    call_types_declared hp (hfuncs ▸ List.mem_cons_self) hcheck
  obtain rfl := Except.ok.inj (hbody.symm.trans hbody')
  obtain ⟨t, sig, ht, hsig, hconverted, -⟩ :=
    hcalls ⟨0x10, .call 0⟩ List.mem_cons_self 0 rfl rfl
  cases ht
  cases hconverted (by decide +kernel)
  exact ⟨p, hp, hsig⟩

/-- A call of an import without a signature passes the check. -/
theorem reference_call_passes :
    ¬∀ m p, ofModule m = .ok p → ∀ f ∈ p.funcs, p.check f = .ok () → ∀ body, f.body = .ok body →
      ∀ i ∈ Body.instrs body, ∀ target, i.operation = .call → i.imm = .call target →
      ∃ t sig, m.funcTypeAt? target.toNat = some t ∧ t.IsNumeric
        ∧ p.signature? target.toNat = some sig ∧ convertSignature t = .ok sig := by
  intro h
  obtain ⟨p, f, hp, hfuncs, hcheck, hbody⟩ := callOf_read (.inr rfl)
  obtain ⟨t, sig, ht, hnumeric, -⟩ := h _ p hp f (hfuncs ▸ List.mem_cons_self) hcheck _ hbody
    ⟨0x10, .call 0⟩ List.mem_cons_self 0 rfl rfl
  cases ht
  exact absurd hnumeric (by decide +kernel)

end Program

end WasmShader
