import WasmShader.Proofs.ModuleCodec

/-!
# The canonical form of a module

A section's list is read back from what was written of it, with whatever sections stand behind it
(`ListSection.reads`), so a module that can be encoded is parsed back. In the other direction a
list that was read, in whatever spelling and with whatever bytes left over, has room in its section
again (`ListSection.of_readSection`); since sections come in order, each list is filled once
(`Filled`), so the module that was parsed can be encoded.
-/

namespace WasmShader.Binary

open Leb128 (readU32 writeNat writeU32 length_writeNat_pos length_writeNat_mono)
open Reader (bind_of_ok of_bind_eq_ok noting_eq_ok)

variable {α : Type} {id last : UInt8} {m m' m'' : Module} {bs body rest : Bytes} {k : Nat}

/-! ## One section -/

/-- Section `id` holds a counted list, which `add` puts into the module. -/
structure ListSection (id : UInt8) (r : Reader α) (w : α → Bytes) (P : α → Prop)
    (add : Module → List α → Module) : Prop where
  known : id ≠ 0 ∧ id ≤ 12
  codec : Codec r w P
  nonempty : ∀ a, 1 ≤ (w a).length
  read : ∀ m, readSection id m = (do return add m (← readVector r))
  add_nil : ∀ m, add m [] = m

/-- A list that a section has room for. -/
structure Sized (w : α → Bytes) (P : α → Prop) (xs : List α) : Prop where
  entries : Counted P xs
  size : (writeVector w xs).length < 2 ^ 32

/-- Sections whose places are behind `k` make `m'` out of `m`. -/
def Reads (k : Nat) (m : Module) (bs : Bytes) (m' : Module) : Prop :=
  ∀ last fuel, sectionOrder last ≤ k → bs.length ≤ fuel → readSections fuel last m bs = .ok m'

theorem Reads.nil (k : Nat) (m : Module) : Reads k m [] m := by
  intro last fuel hlast hfuel
  cases fuel <;> rfl

theorem Reads.mono {k' : Nat} (h : Reads k' m bs m') (hk : k ≤ k') : Reads k m bs m' :=
  fun last fuel hlast hfuel => h last fuel (hlast.trans hk) hfuel

theorem readSections_section {fuel : Nat} (hknown : id ≠ 0 ∧ id ≤ 12) (hbody : body.length < 2 ^ 32)
    (horder : sectionOrder last < sectionOrder id)
    (hread : readSection id m body = .ok (m', rest)) :
    readSections (fuel + 1) last m (writeSection id body ++ bs)
      = readSections fuel id m' bs := by
  have hname := codec_name.reads hbody bs
  rw [readName] at hname
  obtain ⟨count, bs', hcount, htake⟩ := of_bind_eq_ok hname
  rw [writeSection, List.cons_append, readSections, noting_eq_ok.mpr hcount]
  simp only [bind, Except.bind]
  rw [noting_eq_ok.mpr htake]
  dsimp only
  rw [if_neg hknown.1, if_neg (Nat.not_le.mpr horder), if_neg (UInt8.not_lt.mpr hknown.2),
    noting_eq_ok.mpr hread]


theorem Reads.of_section (hknown : id ≠ 0 ∧ id ≤ 12) (hbody : body.length < 2 ^ 32)
    (horder : k < sectionOrder id) (hread : readSection id m body = .ok (m', rest))
    (hbs : Reads (sectionOrder id) m' bs m'') :
    Reads k m (writeSection id body ++ bs) m'' := by
  intro last fuel hlast hfuel
  rw [writeSection, List.cons_append, List.length_cons, List.length_append] at hfuel
  cases fuel with
  | zero => cases hfuel
  | succ fuel =>
      rw [readSections_section hknown hbody (hlast.trans_lt horder) hread]
      exact hbs id fuel (Nat.le_refl _) (by omega)

variable {r : Reader α} {w : α → Bytes} {P : α → Prop} {add : Module → List α → Module}

/-- An empty list is left out, and so nothing is added. -/
theorem ListSection.reads (h : ListSection id r w P add) {xs : List α} (hxs : Sized w P xs)
    (horder : k < sectionOrder id) (hbs : Reads (sectionOrder id) (add m xs) bs m') :
    Reads k m (writeList id w xs ++ bs) m' := by
  rw [writeList]
  cases xs with
  | nil =>
      rw [h.add_nil] at hbs
      exact hbs.mono horder.le
  | cons x xs =>
      have hvector := (h.codec.vector h.nonempty).reads hxs.entries []
      rw [List.append_nil] at hvector
      have hread : readSection id m (writeVector w (x :: xs)) = .ok (add m (x :: xs), []) := by
        rw [h.read, bind_of_ok hvector]
        rfl
      exact Reads.of_section h.known hxs.size horder hread hbs

/-- What is read from a section has room in it again. -/
theorem ListSection.of_readSection (h : ListSection id r w P add) (hbody : body.length < 2 ^ 32)
    (hread : readSection id m body = .ok (m', rest)) : ∃ xs, m' = add m xs ∧ Sized w P xs := by
  rw [h.read] at hread
  obtain ⟨xs, bs', hxs, hread⟩ := of_bind_eq_ok hread
  cases hread
  obtain ⟨hcounted, hlen⟩ := (h.codec.vector h.nonempty).gives hxs
  exact ⟨xs, rfl, hcounted, by omega⟩

theorem length_writeU32_pos (n : UInt32) : 1 ≤ (writeU32 n).length := length_writeNat_pos _

theorem length_writeLimits_pos (l : Limits) : 1 ≤ (writeLimits l).length := by
  rw [writeLimits]
  split <;> exact Nat.le_add_left 1 _

theorem length_writeName_pos (name : Bytes) : 1 ≤ (writeName name).length := by
  rw [writeName, List.length_append]
  exact (length_writeNat_pos _).trans (Nat.le_add_right _ _)

theorem section_types : ListSection 1 readFuncType writeFuncType FuncType.Fits
    fun m xs => { m with types := m.types ++ xs } where
  known := by decide
  codec := codec_funcType
  nonempty _ := Nat.le_add_left 1 _
  read _ := rfl
  add_nil m := by rw [List.append_nil]

theorem section_imports : ListSection 2 readImport writeImport Import.Fits
    fun m xs => { m with imports := m.imports ++ xs } where
  known := by decide
  codec := codec_import
  nonempty i := by
    rw [writeImport, List.append_assoc, List.length_append]
    exact (length_writeName_pos _).trans (Nat.le_add_right _ _)
  read _ := rfl
  add_nil m := by rw [List.append_nil]

theorem section_funcs : ListSection 3 readU32 writeU32 (fun _ => True)
    fun m xs => { m with funcs := m.funcs ++ xs } where
  known := by decide
  codec := codec_u32
  nonempty := length_writeU32_pos
  read _ := rfl
  add_nil m := by rw [List.append_nil]

theorem section_tables : ListSection 4 readTableType writeTableType (fun t => t.limits.Fits)
    fun m xs => { m with tables := m.tables ++ xs } where
  known := by decide
  codec := codec_tableType
  nonempty _ := Nat.le_add_left 1 _
  read _ := rfl
  add_nil m := by rw [List.append_nil]

theorem section_memories : ListSection 5 readLimits writeLimits Limits.Fits
    fun m xs => { m with memories := m.memories ++ xs } where
  known := by decide
  codec := codec_limits
  nonempty := length_writeLimits_pos
  read _ := rfl
  add_nil m := by rw [List.append_nil]

theorem section_globals : ListSection 6 readGlobal writeGlobal (fun g => IsInitialiser g.init)
    fun m xs => { m with globals := m.globals ++ xs } where
  known := by decide
  codec := codec_global
  nonempty g := by
    rw [writeGlobal, writeGlobalType, List.length_append]
    exact Nat.le_add_right_of_le (Nat.le_add_left 1 _)
  read _ := rfl
  add_nil m := by rw [List.append_nil]

theorem section_exports : ListSection 7 readExport writeExport Export.Fits
    fun m xs => { m with exports := m.exports ++ xs } where
  known := by decide
  codec := codec_export
  nonempty e := by
    rw [writeExport, List.length_append]
    exact (length_writeName_pos _).trans (Nat.le_add_right _ _)
  read _ := rfl
  add_nil m := by rw [List.append_nil]

theorem section_code : ListSection 10 readFuncBody writeFuncBody FuncBody.Fits
    fun m xs => { m with code := m.code ++ xs } where
  known := by decide
  codec := codec_funcBody
  nonempty _ := length_writeName_pos _
  read _ := rfl
  add_nil m := by rw [List.append_nil]

/-! ## Whole modules -/

/-- The module has a binary form: a body for every declared function, and what no section or entry
has room for is absent. -/
structure Module.Encodable (m : Module) : Prop where
  bodies : m.funcs.length = m.code.length
  types : Sized writeFuncType FuncType.Fits m.types
  imports : Sized writeImport Import.Fits m.imports
  funcs : Sized writeU32 (fun _ => True) m.funcs
  tables : Sized writeTableType (fun t => t.limits.Fits) m.tables
  memories : Sized writeLimits Limits.Fits m.memories
  globals : Sized writeGlobal (fun g => IsInitialiser g.init) m.globals
  exports : Sized writeExport Export.Fits m.exports
  code : Sized writeFuncBody FuncBody.Fits m.code

/-- The section of the start function. -/
def writeStart : Option UInt32 → Bytes
  | some idx => writeSection 8 (writeU32 idx)
  | none => []

theorem reads_start {start : Option UInt32} (hk : k < 8) (hm : m.start = none)
    (hbs : Reads 8 { m with start := start } bs m') : Reads k m (writeStart start ++ bs) m' := by
  cases start with
  | none =>
      rw [← hm] at hbs
      exact hbs.mono hk.le
  | some idx =>
      have hidx := codec_u32.reads (a := idx) trivial []
      rw [List.append_nil] at hidx
      have hread : readSection 8 m (writeU32 idx) = .ok ({ m with start := some idx }, []) :=
        bind_of_ok hidx
      have hlen := length_writeNat_mono (Nat.le_pred_of_lt idx.toNat_lt)
      exact Reads.of_section (by decide) (hlen.trans_lt (by decide +kernel)) hk hread hbs

theorem readFixed_append {bs : Bytes} {n : Nat} (h : bs.length = n) (rest : Bytes) :
    Instr.readFixed n (bs ++ rest) = .ok (ofLittleEndian bs, rest) := by
  have hfixed : Reader.fixed n bs = .ok (bs, []) := by
    rw [Reader.fixed, if_pos h.ge, List.take_of_length_le h.le, List.drop_eq_nil_of_le h.le]
  obtain ⟨used, hused, hreads⟩ := Reader.framed_fixed n _ _ _ hfixed
  rw [List.append_nil] at hused
  subst hused
  exact bind_of_ok (hreads rest)

/-- What every module begins with. -/
def header : Bytes := [0x00, 0x61, 0x73, 0x6d] ++ [0x01, 0x00, 0x00, 0x00]

theorem readHeader_header (rest : Bytes) : readHeader (header ++ rest) = .ok ((), rest) := by
  have hmagic := @readFixed_append [0x00, 0x61, 0x73, 0x6d] 4 rfl
  have hversion := @readFixed_append [0x01, 0x00, 0x00, 0x00] 4 rfl
  rw [header, List.append_assoc, readHeader, bind_of_ok (noting_eq_ok.mpr (hmagic _))]
  exact bind_of_ok (noting_eq_ok.mpr (hversion _))

/-- What stands behind the header is read section by section. -/
theorem parse_of_reads (hbs : Reads 0 {} bs m) (hbodies : m.funcs.length = m.code.length) :
    Module.parse (header ++ bs) = .ok m := by
  rw [Module.parse, readHeader_header]
  simp only [bind, Except.bind]
  rw [hbs 0 _ (by decide) (Nat.le_refl _)]
  exact if_neg (not_not.mpr hbodies)

theorem encode_eq (m : Module) : m.encode = header
    ++ (writeList 1 writeFuncType m.types
    ++ (writeList 2 writeImport m.imports
    ++ (writeList 3 writeU32 m.funcs
    ++ (writeList 4 writeTableType m.tables
    ++ (writeList 5 writeLimits m.memories
    ++ (writeList 6 writeGlobal m.globals
    ++ (writeList 7 writeExport m.exports
    ++ (writeStart m.start
    ++ (writeList 10 writeFuncBody m.code ++ []))))))))) := by
  simp only [Module.encode, List.append_assoc, List.append_nil]
  cases m.start <;> rfl

theorem parse_encode (hm : m.Encodable) : Module.parse m.encode = .ok m := by
  rw [encode_eq]
  refine parse_of_reads ?_ hm.bodies
  refine section_types.reads hm.types (by decide) ?_
  refine section_imports.reads hm.imports (by decide) ?_
  refine section_funcs.reads hm.funcs (by decide) ?_
  refine section_tables.reads hm.tables (by decide) ?_
  refine section_memories.reads hm.memories (by decide) ?_
  refine section_globals.reads hm.globals (by decide) ?_
  refine section_exports.reads hm.exports (by decide) ?_
  refine reads_start (by decide) rfl ?_
  exact section_code.reads hm.code (by decide) (.nil _ _)

/-! ## Reading -/

theorem Sized.nil (w : α → Bytes) (P : α → Prop) : Sized w P [] where
  entries := ⟨by rw [List.length_nil]; decide, nofun⟩
  size := by
    rw [writeVector, List.flatMap_nil, List.append_nil, List.length_nil]
    decide +kernel

/-- Every list of the module has room in its section, and only the sections up to place `k` are
there. -/
structure Filled (k : Nat) (m : Module) : Prop where
  types : Sized writeFuncType FuncType.Fits m.types ∧ (k < 1 → m.types = [])
  imports : Sized writeImport Import.Fits m.imports ∧ (k < 2 → m.imports = [])
  funcs : Sized writeU32 (fun _ => True) m.funcs ∧ (k < 3 → m.funcs = [])
  tables : Sized writeTableType (fun t => t.limits.Fits) m.tables ∧ (k < 4 → m.tables = [])
  memories : Sized writeLimits Limits.Fits m.memories ∧ (k < 5 → m.memories = [])
  globals : Sized writeGlobal (fun g => IsInitialiser g.init) m.globals ∧ (k < 6 → m.globals = [])
  exports : Sized writeExport Export.Fits m.exports ∧ (k < 7 → m.exports = [])
  code : Sized writeFuncBody FuncBody.Fits m.code ∧ (k < 11 → m.code = [])

theorem Filled.empty : Filled 0 {} := by
  constructor <;> exact ⟨.nil _ _, fun _ => rfl⟩

theorem Filled.mono {k k' : Nat} (h : Filled k m) (hk : k ≤ k') : Filled k' m where
  types := ⟨h.types.1, fun hlt => h.types.2 (hk.trans_lt hlt)⟩
  imports := ⟨h.imports.1, fun hlt => h.imports.2 (hk.trans_lt hlt)⟩
  funcs := ⟨h.funcs.1, fun hlt => h.funcs.2 (hk.trans_lt hlt)⟩
  tables := ⟨h.tables.1, fun hlt => h.tables.2 (hk.trans_lt hlt)⟩
  memories := ⟨h.memories.1, fun hlt => h.memories.2 (hk.trans_lt hlt)⟩
  globals := ⟨h.globals.1, fun hlt => h.globals.2 (hk.trans_lt hlt)⟩
  exports := ⟨h.exports.1, fun hlt => h.exports.2 (hk.trans_lt hlt)⟩
  code := ⟨h.code.1, fun hlt => h.code.2 (hk.trans_lt hlt)⟩

theorem Filled.encodable (h : Filled k m) (hbodies : m.funcs.length = m.code.length) :
    m.Encodable :=
  ⟨hbodies, h.types.1, h.imports.1, h.funcs.1, h.tables.1, h.memories.1, h.globals.1, h.exports.1,
    h.code.1⟩

theorem Sized.filled {w : α → Bytes} {P : α → Prop} {xs ys : List α} {k j : Nat} (hxs : xs = [])
    (hys : Sized w P ys) (hk : ¬k < j) : Sized w P (xs ++ ys) ∧ (k < j → xs ++ ys = []) := by
  rw [hxs, List.nil_append]
  exact ⟨hys, fun hlt => (hk hlt).elim⟩

/-- The next section fills a list that was still empty. -/
theorem Filled.readSection (h : Filled k m) (hid : id ≤ 12) (horder : k < sectionOrder id)
    (hbody : body.length < 2 ^ 32) (hread : readSection id m body = .ok (m', rest)) :
    Filled (sectionOrder id) m' := by
  have hbefore := h.mono horder.le
  obtain ⟨n, hn⟩ : ∃ n, id.toNat = n := ⟨_, rfl⟩
  have hsmall : n ≤ 12 := hn ▸ hid
  interval_cases n
  · obtain rfl : id = 0 := UInt8.toNat_inj.mp hn
    cases hread
    exact hbefore
  · obtain rfl : id = 1 := UInt8.toNat_inj.mp hn
    obtain ⟨xs, rfl, hxs⟩ := section_types.of_readSection hbody hread
    exact { hbefore with types := Sized.filled (h.types.2 horder) hxs (by decide) }
  · obtain rfl : id = 2 := UInt8.toNat_inj.mp hn
    obtain ⟨xs, rfl, hxs⟩ := section_imports.of_readSection hbody hread
    exact { hbefore with imports := Sized.filled (h.imports.2 horder) hxs (by decide) }
  · obtain rfl : id = 3 := UInt8.toNat_inj.mp hn
    obtain ⟨xs, rfl, hxs⟩ := section_funcs.of_readSection hbody hread
    exact { hbefore with funcs := Sized.filled (h.funcs.2 horder) hxs (by decide) }
  · obtain rfl : id = 4 := UInt8.toNat_inj.mp hn
    obtain ⟨xs, rfl, hxs⟩ := section_tables.of_readSection hbody hread
    exact { hbefore with tables := Sized.filled (h.tables.2 horder) hxs (by decide) }
  · obtain rfl : id = 5 := UInt8.toNat_inj.mp hn
    obtain ⟨xs, rfl, hxs⟩ := section_memories.of_readSection hbody hread
    exact { hbefore with memories := Sized.filled (h.memories.2 horder) hxs (by decide) }
  · obtain rfl : id = 6 := UInt8.toNat_inj.mp hn
    obtain ⟨xs, rfl, hxs⟩ := section_globals.of_readSection hbody hread
    exact { hbefore with globals := Sized.filled (h.globals.2 horder) hxs (by decide) }
  · obtain rfl : id = 7 := UInt8.toNat_inj.mp hn
    obtain ⟨xs, rfl, hxs⟩ := section_exports.of_readSection hbody hread
    exact { hbefore with exports := Sized.filled (h.exports.2 horder) hxs (by decide) }
  · obtain rfl : id = 8 := UInt8.toNat_inj.mp hn
    obtain ⟨start, bs', hstart, hread⟩ := of_bind_eq_ok (r := readU32) hread
    cases hread
    exact { hbefore with }
  · obtain rfl : id = 9 := UInt8.toNat_inj.mp hn
    cases hread
    exact hbefore
  · obtain rfl : id = 10 := UInt8.toNat_inj.mp hn
    obtain ⟨xs, rfl, hxs⟩ := section_code.of_readSection hbody hread
    exact { hbefore with code := Sized.filled (h.code.2 horder) hxs (by decide) }
  · obtain rfl : id = 11 := UInt8.toNat_inj.mp hn
    cases hread
    exact hbefore
  · obtain rfl : id = 12 := UInt8.toNat_inj.mp hn
    cases hread
    exact hbefore

/-- Custom sections are passed over, the others are read in their order. -/
theorem of_readSections_cons {fuel : Nat} (h : readSections (fuel + 1) last m (id :: bs) = .ok m') :
    ∃ body bs', body.length < 2 ^ 32 ∧ (id = 0 ∧ readSections fuel last m bs' = .ok m' ∨
      sectionOrder last < sectionOrder id ∧ id ≤ 12 ∧ ∃ m₁ left,
        readSection id m body = .ok (m₁, left) ∧ readSections fuel id m₁ bs' = .ok m') := by
  rw [readSections] at h
  simp only [bind, Except.bind] at h
  split at h
  · cases h
  · next x hcount =>
    obtain ⟨size, bs₁⟩ := x
    split at h
    · cases h
    · next y htake =>
      obtain ⟨body, bs₂⟩ := y
      obtain ⟨hlen, -⟩ := Reader.of_take_eq_ok (noting_eq_ok.mp htake)
      refine ⟨body, bs₂, hlen ▸ size.toNat_lt, ?_⟩
      split at h
      · next hcustom => exact .inl ⟨hcustom, h⟩
      · split at h
        · cases h
        · next horder =>
          split at h
          · cases h
          · next hknown =>
            split at h
            · cases h
            · next z hsection =>
              obtain ⟨m₁, left⟩ := z
              exact .inr ⟨Nat.not_le.mp horder, UInt8.not_lt.mp hknown, m₁, left,
                noting_eq_ok.mp hsection, h⟩

/-- What readable sections make of a module leaves room for its lists. -/
theorem Filled.readSections {fuel : Nat} (h : Filled (sectionOrder last) m)
    (hread : readSections fuel last m bs = .ok m') : ∃ k, Filled k m' := by
  induction fuel generalizing last m bs with
  | zero =>
      unfold Binary.readSections at hread
      cases bs <;> (cases hread; exact ⟨_, h⟩)
  | succ fuel ih =>
      cases bs with
      | nil =>
          cases hread
          exact ⟨_, h⟩
      | cons id bs =>
          obtain ⟨body, bs', hbody, ⟨-, hread⟩ | ⟨horder, hid, m₁, left, hsec, hread⟩⟩ :=
            of_readSections_cons hread
          · exact ih h hread
          · exact ih (h.readSection hid horder hbody hsec) hread

/-! ## Both directions -/

theorem encodable_of_parse (h : Module.parse bs = .ok m) : m.Encodable := by
  rw [Module.parse] at h
  simp only [bind, Except.bind] at h
  split at h
  · cases h
  · next x hheader =>
    split at h
    · cases h
    · next m' hsections =>
      split at h
      · cases h
      · next hbodies =>
        cases h
        have hempty : Filled (sectionOrder 0) {} := .empty
        obtain ⟨k, hfilled⟩ := Filled.readSections hempty hsections
        exact hfilled.encodable (not_not.mp hbodies)

theorem Module.Encodable.encodeChecked (h : m.Encodable) : m.encodeChecked = .ok m.encode := by
  rw [Module.encodeChecked, if_neg]
  intro hany
  obtain ⟨i, hi, hincomplete⟩ := List.any_eq_true.mp hany
  have hdesc := (h.imports.entries.each i hi).2.2
  cases hi : i.desc with
  | bare kind =>
      rw [hi] at hdesc
      exact hdesc
  | func | table | memory | global =>
      rw [hi] at hincomplete
      cases hincomplete

/-- Encoding and parsing give a module back, and what parsing accepts has one encoding that parsing
and encoding leave as it is. -/
theorem encode_canonical :
    (∀ m : Module, m.Encodable → m.encodeChecked = .ok m.encode ∧ Module.parse m.encode = .ok m) ∧
    ∀ (bs : Bytes) (m : Module), Module.parse bs = .ok m →
      m.encodeChecked = .ok m.encode ∧ Module.parse m.encode = .ok m
        ∧ (Module.parse m.encode).map Module.encode = .ok m.encode := by
  refine ⟨fun m hm => ⟨hm.encodeChecked, parse_encode hm⟩, fun bs m h => ?_⟩
  have hm := encodable_of_parse h
  refine ⟨hm.encodeChecked, parse_encode hm, ?_⟩
  rw [parse_encode hm]
  rfl

/-- Bytes with numbers that are not in their shortest form, with a custom, an element, a data count
and a data section, and with a byte left over in the section of the types. -/
def spelled : Bytes := header ++
  [0, 0x83, 0x00, 1, 0x78, 7,
   1, 8, 0x81, 0x00, 0x60, 1, 0x7f, 0x80, 0x00, 0xff,
   3, 2, 1, 0,
   6, 6, 1, 0x7f, 0, 0x41, 0x2a, 0x0b,
   7, 5, 1, 1, 0x66, 0, 0,
   9, 1, 0,
   12, 1, 0,
   10, 5, 1, 0x82, 0x00, 0, 0x0b,
   11, 1, 0]

def spelledModule : Module where
  types := [⟨[0x7f], []⟩]
  funcs := [0]
  globals := [⟨⟨0x7f, false⟩, [0x41, 0x2a, 0x0b]⟩]
  exports := [⟨[0x66], 0, 0⟩]
  code := [⟨[], [0x0b]⟩]

theorem encode_canonical_spelled :
    (spelledModule.Encodable ∧ spelledModule.encodeChecked = .ok spelledModule.encode
      ∧ Module.parse spelledModule.encode = .ok spelledModule)
    ∧ Module.parse spelled = .ok spelledModule ∧ spelledModule.encode ≠ spelled
    ∧ Module.parse spelledModule.encode = .ok spelledModule
    ∧ (Module.parse spelledModule.encode).map Module.encode = .ok spelledModule.encode := by
  have hparse : Module.parse spelled = .ok spelledModule := by decide +kernel
  have hm := encodable_of_parse hparse
  exact ⟨⟨hm, encode_canonical.1 spelledModule hm⟩, hparse, by decide +kernel,
    (encode_canonical.2 spelled spelledModule hparse).2⟩

end WasmShader.Binary
