import WasmShader.Proofs.Carrier
import WasmShader.Proofs.IntegerMeaning

/-!
# Layouts

Values that are stored one after the other carry no mark of their types or ends. They can be found
and read again because four functions agree: how many words a type takes, where each value of a list
starts, what is written for a value and what is read. `layout_agrees` says so for every list of
values.

What is read is the very value that was written if the layout keeps all bits of its type, and if the
value has no bits that its type does not use (`Value.Canonical`). Every type but the emulated 64-bit
float keeps all bits (`Layout.Keeps`).
-/

namespace WasmShader

/-- The bits that the type of a value does not use are clear. -/
structure Value.Canonical (v : Value) : Prop where
  lo : v.type = .i32 ∨ v.type = .f32 → v.lo.toNat < 2 ^ 32
  hi : v.type ≠ .v128 → v.hi = 0

namespace Layout

/-- The words of the type hold all bits of its values. -/
def Keeps (l : Layout) (t : ValueType) : Prop := t = .f64 → l.nativeF64 = true

variable {l : Layout}

/-! ## One value -/

theorem toUInt64_toUInt32 {n : UInt64} (h : n.toNat < 2 ^ 32) : n.toUInt32.toUInt64 = n := by
  rw [← UInt64.toNat_inj, UInt32.toNat_toUInt64, UInt64.toNat_toUInt32, Nat.mod_eq_of_lt h]

theorem decode_encode {v : Value} (hknown : v.type.isKnown = true) (hv : v.Canonical)
    (hkeeps : l.Keeps v.type) (rest : List UInt32) : l.decode v.type (l.encode v ++ rest) = v := by
  obtain ⟨type, lo, hi⟩ := v
  have hhi : type ≠ .v128 → hi = 0 := hv.hi
  cases type with
  | i32 =>
      obtain rfl := hhi nofun
      exact congrArg (Value.mk .i32 · 0) (toUInt64_toUInt32 (hv.lo (.inl rfl)))
  | f32 =>
      obtain rfl := hhi nofun
      exact congrArg (Value.mk .f32 · 0) (toUInt64_toUInt32 (hv.lo (.inr rfl)))
  | i64 =>
      obtain rfl := hhi nofun
      exact congrArg (Value.mk .i64 · 0) (WordPair.join_split lo)
  | f64 =>
      obtain rfl := hhi nofun
      have hnative : l.nativeF64 = true := hkeeps rfl
      simp only [decode, encode, hnative, if_true]
      exact congrArg (Value.mk .f64 · 0) (WordPair.join_split lo)
  | v128 => exact congrArg₂ (Value.mk .v128) (WordPair.join_split lo) (WordPair.join_split hi)
  | reserved code => cases hknown

theorem encode_decode {t : ValueType} (hkeeps : l.Keeps t) {ws : List UInt32}
    (hlen : ws.length = l.words t) : l.encode (l.decode t ws) = ws := by
  cases t with
  | i32 | f32 =>
      obtain ⟨w, rfl⟩ := List.length_eq_one_iff.mp hlen
      exact congrArg (List.cons · []) (UInt32.toUInt32_toUInt64 w)
  | i64 =>
      obtain ⟨a, b, rfl⟩ := List.length_eq_two.mp hlen
      exact congrArg WordPair.words (WordPair.split_join ⟨a, b⟩)
  | f64 =>
      have hnative : l.nativeF64 = true := hkeeps rfl
      rw [words, if_pos hnative] at hlen
      obtain ⟨a, b, rfl⟩ := List.length_eq_two.mp hlen
      simp only [decode, encode, hnative, if_true]
      exact congrArg WordPair.words (WordPair.split_join ⟨a, b⟩)
  | v128 =>
      obtain ⟨a, ws, rfl⟩ := List.exists_cons_of_length_eq_add_one (n := 3) hlen
      obtain ⟨b, c, d, rfl⟩ := List.length_eq_three.mp (Nat.succ.inj hlen)
      exact congrArg₂ (· ++ ·) (congrArg WordPair.words (WordPair.split_join ⟨a, b⟩))
        (congrArg WordPair.words (WordPair.split_join ⟨c, d⟩))
  | reserved code => exact (List.length_eq_zero_iff.mp hlen).symm

/-! ## Lists of values -/

theorem length_flatMap_encode (values : List Value) :
    (values.flatMap l.encode).length = l.sizeOf (values.map (·.type)) := by
  induction values with
  | nil => rfl
  | cons v values ih =>
      rw [List.flatMap_cons, List.length_append, length_encode, ih, List.map_cons, sizeOf_cons]

/-- A value starts behind those in front of it. -/
theorem getElem?_offsetsFrom {start i : Nat} {types : List ValueType} (hi : i < types.length) :
    (l.offsetsFrom start types)[i]? = some (start + l.sizeOf (types.take i)) := by
  induction types generalizing start i with
  | nil => exact absurd hi (Nat.not_lt_zero i)
  | cons t types ih =>
      cases i with
      | zero => rfl
      | succ i =>
          rw [offsetsFrom, List.getElem?_cons_succ, ih (Nat.lt_of_succ_lt_succ hi),
            List.take_succ_cons, sizeOf_cons, Nat.add_assoc]

/-- The words of a value stand at its offset. -/
theorem encode_at_offset {values : List Value} {i : Nat} {v : Value} (hv : values[i]? = some v) :
    l.encode v <+: (values.flatMap l.encode).drop (l.sizeOf ((values.map (·.type)).take i)) := by
  obtain ⟨hi, rfl⟩ := List.getElem?_eq_some_iff.mp hv
  have hsplit : values.flatMap l.encode = (values.take i).flatMap l.encode
      ++ (l.encode values[i] ++ (values.drop (i + 1)).flatMap l.encode) := by
    rw [← List.flatMap_cons, ← List.flatMap_append, List.getElem_cons_drop,
      List.take_append_drop]
  rw [← List.map_take, ← length_flatMap_encode, hsplit, List.drop_left]
  exact List.prefix_append _ _

theorem decodeValues_encode {values : List Value} (hknown : ∀ v ∈ values, v.type.isKnown = true)
    (hvalues : ∀ v ∈ values, v.Canonical ∧ l.Keeps v.type) (rest : List UInt32) :
    l.decodeValues (values.map (·.type)) (values.flatMap l.encode ++ rest) = values := by
  induction values with
  | nil => rfl
  | cons v values ih =>
      obtain ⟨hv, hvs⟩ := List.forall_mem_cons.mp hknown
      obtain ⟨⟨hcanonical, hkeeps⟩, hrest⟩ := List.forall_mem_cons.mp hvalues
      rw [List.map_cons, List.flatMap_cons, List.append_assoc, decodeValues,
        decode_encode hv hcanonical hkeeps, ← length_encode, List.drop_left, ih hvs hrest]

theorem map_type_decodeValues (types : List ValueType) (ws : List UInt32) :
    (l.decodeValues types ws).map (·.type) = types := by
  induction types generalizing ws with
  | nil => rfl
  | cons t types ih => rw [decodeValues, List.map_cons, type_decode, ih]

theorem encode_decodeValues {types : List ValueType} (hkeeps : ∀ t ∈ types, l.Keeps t)
    {ws : List UInt32} (hlen : ws.length = l.sizeOf types) :
    (l.decodeValues types ws).flatMap l.encode = ws := by
  induction types generalizing ws with
  | nil => exact (List.length_eq_zero_iff.mp hlen).symm
  | cons t types ih =>
      obtain ⟨ht, hts⟩ := List.forall_mem_cons.mp hkeeps
      rw [sizeOf_cons] at hlen
      have hfirst : (ws.take (l.words t)).length = l.words t :=
        List.length_take_of_le (by omega)
      rw [decodeValues, List.flatMap_cons, ← decode_take, encode_decode ht hfirst,
        ih hts (by rw [List.length_drop]; omega), List.take_append_drop]

/-! ## Agreement -/

/-- The words and the places of values, and what is read of words for their types. -/
structure LaysOut (l : Layout) (values : List Value) (words : List UInt32) (places : List Nat) :
    Prop where
  encoded : l.encodeAll values = .ok words
  size : words.length = l.sizeOf (values.map (·.type))
  offsets : l.offsets (values.map (·.type)) = .ok (places, words.length)
  placed : ∀ (i : Nat) (v : Value), values[i]? = some v →
    ∃ place, places[i]? = some place ∧ l.encode v <+: words.drop place
  decoded : (∀ v ∈ values, v.Canonical ∧ l.Keeps v.type) →
    ∀ rest, l.decodeAll (values.map (·.type)) (words ++ rest) = .ok values
  reencoded : (∀ v ∈ values, l.Keeps v.type) → ∀ ws : List UInt32, ws.length = words.length →
    ∃ vs, l.decodeAll (values.map (·.type)) ws = .ok vs ∧ l.encodeAll vs = .ok ws
  short : ∀ ws : List UInt32, ws.length < words.length →
    ∃ e, l.decodeAll (values.map (·.type)) ws = Failure.raise e

theorem encodeAll_eq_ok {values : List Value} (hknown : ∀ v ∈ values, v.type.isKnown = true) :
    l.encodeAll values = .ok (values.flatMap l.encode) := by
  rw [encodeAll, requireKnown_eq_ok (List.forall_mem_map.mpr hknown)]
  rfl

theorem decodeAll_eq_ok {types : List ValueType} (hknown : ∀ t ∈ types, t.isKnown = true)
    {ws : List UInt32} (hlen : l.sizeOf types ≤ ws.length) :
    l.decodeAll types ws = .ok (l.decodeValues types ws) := by
  rw [decodeAll, requireKnown_eq_ok hknown]
  exact if_neg (Nat.not_lt.mpr hlen)

theorem decodeAll_short {types : List ValueType} (hknown : ∀ t ∈ types, t.isKnown = true)
    {ws : List UInt32} (hlen : ws.length < l.sizeOf types) :
    ∃ e, l.decodeAll types ws = Failure.raise e := by
  rw [decodeAll, requireKnown_eq_ok hknown]
  exact ⟨_, if_pos hlen⟩

/-- Sizes, offsets, encoder and decoder agree on every list of values. -/
theorem layout_agrees (l : Layout) {values : List Value}
    (hknown : ∀ v ∈ values, v.type.isKnown = true) :
    ∃ words places, l.LaysOut values words places := by
  have htypes : ∀ t ∈ values.map (·.type), t.isKnown = true := List.forall_mem_map.mpr hknown
  have hsize := length_flatMap_encode (l := l) values
  refine ⟨values.flatMap l.encode, l.offsetsFrom 0 (values.map (·.type)), ?_⟩
  refine ⟨encodeAll_eq_ok hknown, hsize, ?_, ?_, ?_, ?_, ?_⟩
  · rw [offsets, requireKnown_eq_ok htypes, hsize]
    rfl
  · intro i v hv
    have hi : i < (values.map (·.type)).length := by
      rw [List.length_map]
      exact (List.getElem?_eq_some_iff.mp hv).1
    refine ⟨_, getElem?_offsetsFrom hi, ?_⟩
    rw [Nat.zero_add]
    exact encode_at_offset hv
  · intro hvalues rest
    rw [decodeAll_eq_ok htypes (by rw [List.length_append, hsize]; omega),
      decodeValues_encode hknown hvalues]
  · intro hkeeps ws hlen
    rw [hsize] at hlen
    refine ⟨_, decodeAll_eq_ok htypes (Nat.le_of_eq hlen.symm), ?_⟩
    have hdecoded : ∀ v ∈ l.decodeValues (values.map (·.type)) ws, v.type.isKnown = true := by
      rw [← map_type_decodeValues (l := l) (values.map (·.type)) ws] at htypes
      exact List.forall_mem_map.mp htypes
    rw [encodeAll_eq_ok hdecoded, encode_decodeValues (List.forall_mem_map.mpr hkeeps) hlen]
  · intro ws hlen
    rw [hsize] at hlen
    exact decodeAll_short htypes hlen

/-- An integer, a float that the hardware has, and a vector. -/
def mixedValues : List Value := [.ofI32 (-7), .ofBits64 0x40934a0000000000, .ofV128 1 2]

theorem layout_agrees_mixedValues :
    ∃ words places, (⟨true⟩ : Layout).LaysOut mixedValues words places ∧ words.length = 7
      ∧ (⟨true⟩ : Layout).decodeAll [.i32, .f64, .v128] (words ++ [5]) = .ok mixedValues := by
  have hknown : ∀ v ∈ mixedValues, v.type.isKnown = true := by decide
  obtain ⟨words, places, h⟩ := layout_agrees ⟨true⟩ hknown
  refine ⟨words, places, h, h.size, h.decoded ?_ [5]⟩
  intro v hv
  fin_cases hv
  · exact ⟨⟨fun _ => by decide, fun _ => rfl⟩, fun _ => rfl⟩
  · exact ⟨⟨by simp [Value.ofBits64], fun _ => rfl⟩, fun _ => rfl⟩
  · exact ⟨⟨nofun, fun h => absurd rfl h⟩, fun _ => rfl⟩

end Layout

end WasmShader
