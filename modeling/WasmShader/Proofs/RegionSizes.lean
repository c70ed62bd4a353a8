import WasmShader.Proofs.SharedFrames

/-!
# Sizes of regions

A lane of a compiled module has as many io words as the entry points need, and as many words for the
globals as these take. Both numbers are kept in a word. For the globals that is enough if their words can
be counted (`Program.GlobalsCountable`), as those of a module in the binary format always can
(`Program.globalsCountable_of_encodable`); for the io words it is if the words of the parameters and the
results of every exported function can be (`Program.ExportsCountable`).
-/

namespace WasmShader

/-! ## Globals -/

namespace Program

/-- A constant is not a vector. -/
theorem words_of_constant {imm : Immediate} {v : Value} (h : constant? imm = some v) (l : Layout) :
    l.words v.type ≤ 3 := by
  unfold constant? at h
  split at h
  · cases h
    exact (by decide : 1 ≤ 3)
  · cases h
    exact (by decide : 2 ≤ 3)
  · cases h
    exact (by decide : 1 ≤ 3)
  · cases h
    change (if l.nativeF64 then 2 else 3) ≤ 3
    split <;> decide
  · cases h

/-- The initialiser of a global has bytes. -/
theorem words_of_constValue {init : Bytes} {t : ValueType} {v : Value}
    (h : constValue init t = .ok v) (l : Layout) : l.words t ≤ 3 ∧ init ≠ [] := by
  obtain ⟨instrs, hinstrs, h⟩ := bind_eq_ok h
  refine ⟨?_, ?_⟩
  · dsimp only at h
    split at h
    · split at h
      · cases h
      · split at h
        · cases h
        · next v' hv =>
          split at h
          · cases h
          · next htype =>
            rw [← not_not.mp htype]
            exact words_of_constant hv l
    · cases h
  · rintro rfl
    have hnil : Instr.decodeAll [] = .ok [] := rfl
    rw [hnil] at hinstrs
    cases hinstrs
    cases h

/-- Globals take no more words than bytes of the module. -/
theorem sizeOf_globalsOf {i : Nat} {gs : List Binary.Global} {globals : List Global}
    (h : globalsOf i gs = .ok globals) (l : Layout) :
    l.sizeOf (globals.map (·.type)) ≤ (gs.map fun g => (Binary.writeGlobal g).length).sum := by
  induction gs generalizing i globals with
  | nil =>
      cases h
      exact Nat.le_refl _
  | cons g gs ih =>
      rw [globalsOf] at h
      split at h
      · cases h
      · next t ht =>
        split at h
        · cases h
        · next init hinit =>
          obtain ⟨rest, hrest, h⟩ := bind_eq_ok h
          cases h
          obtain ⟨hwords, hne⟩ := words_of_constValue hinit l
          have hinit := List.length_pos_iff.mpr hne
          have hbytes : (Binary.writeGlobal g).length = 2 + g.init.length := by
            rw [Binary.writeGlobal, List.length_append]
            rfl
          rw [List.map_cons, Layout.sizeOf_cons, List.map_cons, List.sum_cons, hbytes]
          have hle := ih hrest
          dsimp only
          omega

theorem sizeOf_filter_le (l : Layout) (globals : List Global) :
    l.sizeOf ((globals.filter (·.isMutable)).map (·.type)) ≤ l.sizeOf (globals.map (·.type)) := by
  induction globals with
  | nil => exact Nat.le_refl _
  | cons g globals ih =>
      rw [List.map_cons, Layout.sizeOf_cons]
      cases hm : g.isMutable with
      | false =>
          rw [List.filter_cons_of_neg (by rw [hm]; exact Bool.false_ne_true)]
          exact ih.trans (Nat.le_add_left ..)
      | true =>
          rw [List.filter_cons_of_pos hm, List.map_cons, Layout.sizeOf_cons]
          exact Nat.add_le_add_left ih _

/-- The words of the globals that can be set are fewer than 2³². -/
def GlobalsCountable (p : Program) (l : Layout) : Prop :=
  l.sizeOf ((p.globals.filter (·.isMutable)).map (·.type)) < 2 ^ 32

theorem globalsCountable_of_encodable {m : Binary.Module} {p : Program} (hm : m.Encodable)
    (hread : ofModule m = .ok p) (l : Layout) : p.GlobalsCountable l := by
  refine (sizeOf_filter_le l p.globals).trans_lt ?_
  have hsection := hm.globals.size
  rw [Binary.writeVector, List.length_append, List.length_flatMap] at hsection
  rw [ofModule] at hread
  split at hread
  · cases hread
  · obtain ⟨imports, -, hread⟩ := bind_eq_ok hread
    obtain ⟨globals, hglobals, hread⟩ := bind_eq_ok hread
    obtain ⟨funcs, -, hread⟩ := bind_eq_ok hread
    cases hread
    have hle := sizeOf_globalsOf (liftFailure_eq_ok hglobals) l
    dsimp only at hle ⊢
    omega

/-- What an exported function takes and gives, with the two numbers of a frame, has fewer than 2³²
words. -/
def ExportsCountable (p : Program) (l : Layout) : Prop :=
  ∀ f ∈ p.funcs, f.exports ≠ [] → l.sizeOf f.type.params + l.sizeOf f.type.results + 2 < 2 ^ 32

end Program

namespace Compile

open Execution (regionSize)

/-! ## Words for arguments and results -/

theorem le_ioWords {l : Layout} {entries : List Entry} {e : Entry} (he : e ∈ entries) :
    max (l.sizeOf e.sig.params) (l.sizeOf e.sig.results) ≤ ioWords l entries := by
  have hle := le_foldl_max (k := 0) (.inl (List.mem_map_of_mem
    (f := fun e : Entry => max (l.sizeOf e.sig.params) (l.sizeOf e.sig.results)) he))
  rw [List.foldl_map] at hle
  exact hle

theorem ioWords_lt {l : Layout} {entries : List Entry} {k : Nat} (hk : 0 < k)
    (h : ∀ e ∈ entries, l.sizeOf e.sig.params < k ∧ l.sizeOf e.sig.results < k) :
    ioWords l entries < k := by
  rw [ioWords]
  generalize 0 = n at hk
  induction entries generalizing n with
  | nil => exact hk
  | cons e entries ih =>
      obtain ⟨hparams, hresults⟩ := h e (List.mem_cons_self ..)
      exact ih (fun e' he' => h e' (List.mem_cons_of_mem _ he')) _
        (Nat.max_lt.mpr ⟨hk, Nat.max_lt.mpr ⟨hparams, hresults⟩⟩)

section Regions

variable {config : Config} {p : Program} {g : CallGraph} {plan : Plan} {out : Compiled}
  {direct : List Shader.Function} {machines : List (List Shader.Function)}
  {entries : List Shader.Function}

/-- The words that a call of an entry point takes and gives can be counted. -/
theorem Origin.entry_lt (h : Origin config p out g plan direct machines entries)
    (hsizes : p.ExportsCountable out.layout) {e : Entry} (he : e ∈ out.entries) :
    out.layout.sizeOf e.sig.params + out.layout.sizeOf e.sig.results + 2 < 2 ^ 32 := by
  have hentries : out.entries = plan.entries := by rw [h.eq]; rfl
  rw [hentries] at he
  obtain ⟨x, -, f, hf, -, hexported, symbol, hsymbol, rfl⟩ := h.planned.of_mem_entries he
  rw [hexported.symbols] at hsymbol
  exact hsizes f hf (List.ne_nil_of_mem (List.mem_filter.mp hsymbol).1)

/-- The arguments and the results of an entry point have room in the io words. -/
theorem Origin.io_room (h : Origin config p out g plan direct machines entries)
    (hsizes : p.ExportsCountable out.layout) {e : Entry} (he : e ∈ out.entries) :
    out.layout.sizeOf e.sig.params ≤ regionSize out.toExecutable .io
      ∧ out.layout.sizeOf e.sig.results ≤ regionSize out.toExecutable .io := by
  have hentries : out.entries = plan.entries := by rw [h.eq]; rfl
  have hlayout := h.context_eq.1
  rw [hentries] at he
  obtain ⟨x, hx, f, hf, -, hexported, symbol, hsymbol, rfl⟩ := h.planned.of_mem_entries he
  have hmem : (⟨symbol, entryName symbol, f.type, f.index, x.exit.map (·.id)⟩ : Entry)
      ∈ plan.exported.flatMap Exported.entries := by
    refine List.mem_flatMap.mpr ⟨x, hx, List.mem_map.mpr ⟨symbol, hsymbol, ?_⟩⟩
    rw [hexported.func]
  have hcount : ioWords out.layout (plan.exported.flatMap Exported.entries) < 2 ^ 32 := by
    refine ioWords_lt (by decide) fun e' he' => ?_
    obtain ⟨x', hx', he'⟩ := List.mem_flatMap.mp he'
    obtain ⟨symbol', hsymbol', rfl⟩ := List.mem_map.mp he'
    obtain ⟨f', hf', hexported'⟩ := exists_of_forall₂_left h.planned.exported.flip hx'
    rw [hexported'.symbols] at hsymbol'
    have hsize := hsizes f' (List.mem_filter.mp hf').1
      (List.ne_nil_of_mem (List.mem_filter.mp hsymbol').1)
    change out.layout.sizeOf x'.func.type.params < _ ∧ out.layout.sizeOf x'.func.type.results < _
    rw [hexported'.func]
    omega
  have hio : out.ioWords
      = (ioWords out.layout (plan.exported.flatMap Exported.entries)).toUInt32 := by
    have hwords : out.ioWords = plan.lane.io := by rw [h.eq]; rfl
    rw [hwords, h.planned.lane, hlayout]
  have hregion : regionSize out.toExecutable .io
      = ioWords out.layout (plan.exported.flatMap Exported.entries) := by
    change out.ioWords.toNat = _
    rw [hio, Execution.toNat_toUInt32 hcount]
  have hle := le_ioWords (l := out.layout) hmem
  rw [hregion]
  exact ⟨(Nat.le_max_left ..).trans hle, (Nat.le_max_right ..).trans hle⟩

/-- The globals have their words. -/
theorem Origin.global_room (h : Origin config p out g plan direct machines entries)
    (hglobals : p.GlobalsCountable out.layout) :
    regionSize out.toExecutable .globals
      = out.layout.sizeOf ((p.globals.filter (·.isMutable)).map (·.type)) := by
  have hwords : out.globalWords = plan.lane.globals := by rw [h.eq]; rfl
  change out.globalWords.toNat = _
  rw [hwords, h.planned.lane, h.context_eq.1]
  exact Execution.toNat_toUInt32 hglobals

end Regions

end Compile

end WasmShader
