import WasmShader.Binary.Reader
import WasmShader.Binary.Writer
import WasmShader.Proofs.GroupedNumbers

/-!
# Readers and writers

A reader and a writer agree on some values (`Codec`) if the reader gives back each of them from
what was written, whatever stands behind it, and if everything that the reader accepts, however
it is spelled, is one of the values and takes no more bytes when it is written. The second half
keeps sizes within the width of the numbers that are written for them.

A constant expression is kept as the bytes that it was read from. There it matters that a reader
looks at nothing behind what it takes (`Framed`).
-/

namespace WasmShader

variable {α β : Type}

/-! ## Steps of reading -/

namespace Reader

variable {r : Reader α} {k : α → Reader β} {bs rest : Bytes} {a : α}

theorem bind_of_ok (h : r bs = .ok (a, rest)) : (r >>= k) bs = k a rest := by
  change (r bs >>= fun x => k x.1 x.2) = _
  rw [h]
  rfl

theorem of_bind_eq_ok {b : β} {rest' : Bytes} (h : (r >>= k) bs = .ok (b, rest')) :
    ∃ a rest, r bs = .ok (a, rest) ∧ k a rest = .ok (b, rest') := by
  change (r bs >>= fun x => k x.1 x.2) = _ at h
  cases hr : r bs with
  | error e =>
      rw [hr] at h
      cases h
  | ok x =>
      rw [hr] at h
      exact ⟨x.1, x.2, rfl, h⟩

theorem noting_eq_ok {note : String} : noting note r bs = .ok (a, rest) ↔ r bs = .ok (a, rest) := by
  unfold noting
  cases r bs with
  | error e => exact ⟨nofun, nofun⟩
  | ok x => exact Iff.rfl

theorem take_append {n : Nat} {bs : Bytes} (h : bs.length = n) (rest : Bytes) :
    take n (bs ++ rest) = .ok (bs, rest) := by
  rw [take, if_pos (by rw [List.length_append]; omega), ← h, List.take_left, List.drop_left]

theorem of_take_eq_ok {n : Nat} {x : Bytes} (h : take n bs = .ok (x, rest)) :
    x.length = n ∧ bs = x ++ rest := by
  unfold take at h
  split at h
  · next hle =>
    cases h
    exact ⟨List.length_take_of_le hle, (List.take_append_drop n bs).symm⟩
  · cases h

/-- A value that the reader accepts is read from the front, and nothing behind it matters. -/
def Framed (r : Reader α) : Prop := ∀ bs a rest, r bs = .ok (a, rest) →
  ∃ used, bs = used ++ rest ∧ ∀ rest', r (used ++ rest') = .ok (a, rest')

theorem Framed.bind {k : α → Reader β} (hr : Framed r) (hk : ∀ a, Framed (k a)) :
    Framed (r >>= k) := by
  intro bs b rest' h
  obtain ⟨a, rest, hr', hk'⟩ := of_bind_eq_ok h
  obtain ⟨used, rfl, hused⟩ := hr bs a rest hr'
  obtain ⟨used', rfl, hused'⟩ := hk a rest b rest' hk'
  refine ⟨used ++ used', (List.append_assoc ..).symm, fun rest'' => ?_⟩
  rw [List.append_assoc, bind_of_ok (hused _)]
  exact hused' rest''

theorem Framed.pure (a : α) : Framed (Pure.pure a) := by
  intro bs b rest h
  cases h
  exact ⟨[], rfl, fun _ => rfl⟩

theorem Framed.throw (e : Failure) : Framed (MonadExcept.throw e : Reader α) := nofun

theorem framed_byte : Framed byte := by
  intro bs b rest h
  cases bs with
  | nil => cases h
  | cons x bs =>
      cases h
      exact ⟨[b], rfl, fun _ => rfl⟩

theorem framed_fixed (n : Nat) : Framed (fixed n) := by
  intro bs x rest h
  unfold fixed at h
  split at h
  · next hle =>
    cases h
    refine ⟨bs.take n, (List.take_append_drop n bs).symm, fun rest' => ?_⟩
    have hlen := List.length_take_of_le hle
    rw [fixed, if_pos (by rw [List.length_append, hlen]; omega), List.take_left' hlen,
      List.drop_left' hlen]
  · cases h

end Reader

/-! ## Numbers -/

namespace Leb128

open Reader

theorem framed_groups (k shift acc : Nat) : Framed (groups (shift + 7 * k) shift acc) := by
  intro bs x rest h
  obtain ⟨used, final, rfl, hgrouped, hlen, hfinal, rfl⟩ := of_groups h
  refine ⟨used, rfl, fun rest' => ?_⟩
  obtain ⟨final', hgroups, hfinal'⟩ := groups_grouped hgrouped hlen shift acc rest'
  rw [hgroups, Option.some.inj (hfinal.symm.trans hfinal')]

theorem readU32_eq : readU32 = (groups 28 0 0 >>= fun x =>
    if 0x100000000 ≤ x.1 then throw overflow else pure x.1.toUInt32 : Reader UInt32) := by
  funext bs
  change (groups 28 0 0 bs >>= _) = (groups 28 0 0 bs >>= _)
  congr 1
  funext x
  dsimp only
  split <;> rfl

theorem framed_readS32 : Framed readS32 := by
  have h : readS32 = (groups 28 0 0 >>= fun x =>
      pure (Int32.ofInt (signed x.1 x.2.1 x.2.2)) : Reader Int32) := rfl
  rw [h]
  exact (framed_groups 4 0 0).bind fun x => .pure _

theorem framed_readS64 : Framed readS64 := by
  have h : readS64 = (groups 63 0 0 >>= fun x =>
      pure (Int64.ofInt (signed x.1 x.2.1 x.2.2)) : Reader Int64) := rfl
  rw [h]
  exact (framed_groups 9 0 0).bind fun x => .pure _

theorem framed_readU32 : Framed readU32 := by
  rw [readU32_eq]
  refine (framed_groups 4 0 0).bind fun x => ?_
  split
  · exact .throw _
  · exact .pure _

end Leb128

/-! ## Agreement -/

namespace Binary

open Leb128 (readU32 writeNat writeU32 length_writeNat_pos length_writeNat_mono)
open Reader (bind_of_ok of_bind_eq_ok noting_eq_ok Framed)

/-- The reader gives back the values that are written, whatever stands behind them, and what it
accepts are such values, which take no more bytes when they are written. -/
structure Codec (r : Reader α) (w : α → Bytes) (P : α → Prop) : Prop where
  reads : ∀ {a}, P a → ∀ rest, r (w a ++ rest) = .ok (a, rest)
  gives : ∀ {bs a rest}, r bs = .ok (a, rest) → P a ∧ (w a).length + rest.length ≤ bs.length

theorem codec_byte : Codec Reader.byte (fun b => [b]) fun _ => True where
  reads _ _ := rfl
  gives := by
    intro bs a rest h
    cases bs with
    | nil => cases h
    | cons b bs =>
        cases h
        refine ⟨trivial, ?_⟩
        rw [List.length_singleton, List.length_cons]
        omega

theorem toNat_toUInt32 {n : Nat} (h : n < 2 ^ 32) : n.toUInt32.toNat = n := Nat.mod_eq_of_lt h

theorem codec_u32 : Codec readU32 writeU32 fun _ => True where
  reads := by
    intro n _ rest
    obtain ⟨hgrouped, hnatural⟩ := Leb128.grouped_writeNat n.toNat
    have hlen : (writeNat n.toNat).length ≤ 4 + 1 :=
      Leb128.length_writeNat_of_lt (Nat.lt_trans n.toNat_lt (by decide))
    obtain ⟨final, hgroups, -⟩ := Leb128.groups_grouped hgrouped hlen 0 0 rest
    simp only [Nat.zero_add, Nat.shiftLeft_zero, hnatural] at hgroups
    rw [Leb128.readU32_eq, writeU32, bind_of_ok hgroups]
    dsimp only
    rw [if_neg (by have := n.toNat_lt; omega), Nat.toUInt32_eq, UInt32.ofNat_toNat]
    rfl
  gives := by
    intro bs n rest h
    rw [Leb128.readU32_eq] at h
    obtain ⟨x, rest', hgroups, h⟩ := of_bind_eq_ok h
    rw [← Nat.zero_add 28] at hgroups
    obtain ⟨used, final, rfl, hgrouped, -, -, rfl⟩ := Leb128.of_groups (k := 4) hgroups
    simp only [Nat.zero_add, Nat.shiftLeft_zero] at h
    split at h
    · cases h
    · next hsmall =>
      cases h
      have hlen := Leb128.length_writeNat_natural hgrouped
      refine ⟨trivial, ?_⟩
      rw [writeU32, toNat_toUInt32 (by omega), List.length_append]
      omega

section Lists

variable {α : Type} {r : Reader α} {w : α → Bytes} {P : α → Prop}

theorem Codec.readEntries (h : Codec r w P) {xs : List α} (hxs : ∀ x ∈ xs, P x) (i : Nat)
    (rest : Bytes) : readEntries r i xs.length (xs.flatMap w ++ rest) = .ok (xs, rest) := by
  induction xs generalizing i with
  | nil => rfl
  | cons x xs ih =>
      rw [List.length_cons, Binary.readEntries, List.flatMap_cons, List.append_assoc,
        bind_of_ok (noting_eq_ok.mpr (h.reads (hxs x List.mem_cons_self) _)),
        bind_of_ok (ih (fun y hy => hxs y (List.mem_cons_of_mem _ hy)) (i + 1))]
      rfl

theorem Codec.of_readEntries (h : Codec r w P) {i n : Nat} {bs rest : Bytes} {xs : List α}
    (hread : Binary.readEntries r i n bs = .ok (xs, rest)) :
    xs.length = n ∧ (∀ x ∈ xs, P x) ∧ (xs.flatMap w).length + rest.length ≤ bs.length := by
  induction n generalizing i bs xs with
  | zero =>
      cases hread
      exact ⟨rfl, nofun, by rw [List.flatMap_nil, List.length_nil]; omega⟩
  | succ n ih =>
      rw [Binary.readEntries] at hread
      obtain ⟨x, bs', hx, hread⟩ := of_bind_eq_ok hread
      obtain ⟨xs', bs'', hxs, hread⟩ := of_bind_eq_ok hread
      cases hread
      obtain ⟨hP, hlen⟩ := h.gives (noting_eq_ok.mp hx)
      obtain ⟨hcount, hall, hlen'⟩ := ih hxs
      refine ⟨by rw [List.length_cons, hcount], List.forall_mem_cons.mpr ⟨hP, hall⟩, ?_⟩
      rw [List.flatMap_cons, List.length_append]
      omega

/-- The list can be counted with 32 bits. -/
structure Counted (P : α → Prop) (xs : List α) : Prop where
  few : xs.length < 2 ^ 32
  each : ∀ x ∈ xs, P x

theorem length_le_flatMap (hw : ∀ a, 1 ≤ (w a).length) (xs : List α) :
    xs.length ≤ (xs.flatMap w).length := by
  induction xs with
  | nil => exact Nat.le_refl 0
  | cons x xs ih =>
      have hx := hw x
      rw [List.length_cons, List.flatMap_cons, List.length_append]
      omega

/-- A counted list of entries that take at least a byte each. -/
theorem Codec.vector (h : Codec r w P) (hw : ∀ a, 1 ≤ (w a).length) :
    Codec (readVector r) (writeVector w) (Counted P) where
  reads := by
    intro xs hxs rest
    have hcount : xs.length.toUInt32.toNat = xs.length := toNat_toUInt32 hxs.few
    have hnumber : writeNat xs.length = writeU32 xs.length.toUInt32 := by
      rw [writeU32, hcount]
    have henough : ¬(xs.flatMap w ++ rest).length < xs.length := by
      have hle := length_le_flatMap hw xs
      rw [List.length_append]
      omega
    rw [readVector, writeVector, hnumber, List.append_assoc,
      bind_of_ok (codec_u32.reads trivial _), bind_of_ok (r := Reader.remaining) rfl, hcount,
      if_neg henough]
    exact h.readEntries hxs.each 0 rest
  gives := by
    intro bs xs rest hread
    rw [readVector] at hread
    obtain ⟨count, bs', hcount, hread⟩ := of_bind_eq_ok hread
    obtain ⟨left, bs'', hleft, hread⟩ := of_bind_eq_ok hread
    cases hleft
    split at hread
    · cases hread
    · obtain ⟨hlen, hall, hsize⟩ := h.of_readEntries hread
      have hsmall := count.toNat_lt
      have hnumber := (codec_u32.gives hcount).2
      refine ⟨⟨by omega, hall⟩, ?_⟩
      rw [writeVector, List.length_append, hlen]
      rw [writeU32] at hnumber
      omega

theorem codec_name : Codec readName writeName fun name => name.length < 2 ^ 32 where
  reads := by
    intro name hname rest
    have hcount : name.length.toUInt32.toNat = name.length := toNat_toUInt32 hname
    have hnumber : writeNat name.length = writeU32 name.length.toUInt32 := by
      rw [writeU32, hcount]
    rw [readName, writeName, hnumber, List.append_assoc,
      bind_of_ok (codec_u32.reads trivial _), hcount]
    exact Reader.take_append rfl rest
  gives := by
    intro bs name rest hread
    rw [readName] at hread
    obtain ⟨count, bs', hcount, hread⟩ := of_bind_eq_ok hread
    obtain ⟨hlen, rfl⟩ := Reader.of_take_eq_ok hread
    have hsmall := count.toNat_lt
    have hnumber := (codec_u32.gives hcount).2
    refine ⟨by omega, ?_⟩
    rw [writeU32, List.length_append] at hnumber
    rw [writeName, List.length_append, hlen]
    omega

end Lists

end Binary

end WasmShader
