import WasmShader.Proofs.Codec

/-!
# Signed numbers

The groups of a signed number are those of its remainder by a power of 128, and the sign bit of the
last group tells which of the numbers with this remainder is meant. So the readers of signed numbers
give back what was written (`codec_s32`, `codec_s64`). They also accept groups that say more than
their width can hold, and drop what is too much; the number that is left still takes no more groups
than were read.
-/

namespace WasmShader

namespace Leb128

open Reader

/-- One group and `k` more can denote the number. -/
def InGroups (k : Nat) (n : Int) : Prop := -(64 * 128 ^ k : Int) ≤ n ∧ n < 64 * 128 ^ k

theorem InGroups.mono {j k : Nat} {n : Int} (h : InGroups j n) (hjk : j ≤ k) : InGroups k n := by
  have hpow : (128 : Int) ^ j ≤ 128 ^ k := pow_le_pow_right₀ (by decide) hjk
  obtain ⟨hlow, hhigh⟩ := h
  constructor <;> omega

theorem InGroups.div {k : Nat} {n : Int} (h : InGroups (k + 1) n) : InGroups k (n / 128) := by
  obtain ⟨hlow, hhigh⟩ := h
  rw [Int.pow_succ] at hlow hhigh
  constructor <;> omega

/-! ## Writing -/

theorem length_writeInt_le {k : Nat} {n : Int} (h : InGroups k n) : (writeInt n).length ≤ k + 1 := by
  induction k generalizing n with
  | zero =>
      obtain ⟨hlow, hhigh⟩ := h
      rw [writeInt, if_pos ((isLast_iff n).mpr (by omega))]
      exact Nat.le_refl 1
  | succ k ih =>
      rw [writeInt]
      split
      · exact Nat.succ_le_succ (Nat.zero_le _)
      · exact Nat.succ_le_succ (ih h.div)

/-! ## Reading -/

/-- The remainder that `count` groups hold, and the last of them, are those of the number. -/
def Denotes (n : Int) (count m : Nat) (final : UInt8) : Prop :=
  (m : Int) = n + (if n < 0 then 128 ^ count else 0) ∧ (64 ≤ final.toNat % 128 ↔ n < 0)

/-- What groups denote differs from the number at most by bits from the 64th on. -/
theorem Denotes.signed {n : Int} {count m : Nat} {final : UInt8} (h : Denotes n count m final) :
    ∃ q : Int, Leb128.signed m (7 * count) final = n + 2 ^ 64 * q := by
  obtain ⟨hm, hfinal⟩ := h
  have hpow : ((1 <<< (7 * count) : Nat) : Int) = 128 ^ count := by
    rw [Nat.one_shiftLeft, pow_mul]
    norm_num
  rw [Leb128.signed, hm]
  by_cases hneg : n < 0
  · by_cases hshift : 7 * count < 64
    · rw [if_pos (by simp [hshift, hfinal, hneg]), if_pos hneg, hpow]
      exact ⟨0, by ring⟩
    · rw [if_neg (by simp [hshift]), if_pos hneg]
      refine ⟨2 ^ (7 * count - 64), ?_⟩
      rw [← pow_add, Nat.add_sub_cancel' (by omega), pow_mul]
      norm_num
  · rw [if_neg (by simp [hfinal, hneg]), if_neg hneg]
    exact ⟨0, by ring⟩

/-- The two readings of groups differ by the bits in front of the sign. -/
theorem denotes_grouped {used : Bytes} (h : Grouped used) :
    ∃ final, used.getLast? = some final
      ∧ Denotes (integer used) used.length (natural used) final := by
  induction h with
  | @last b hb =>
      refine ⟨b, rfl, ?_, ?_⟩
      · rw [natural, natural, integer, List.length_singleton]
        split <;> split <;> omega
      · rw [integer]
        split <;> omega
  | @more b bs hb hrest ih =>
      obtain ⟨final, hfinal, hm, hsign⟩ := ih
      refine ⟨final, ?_, ?_, ?_⟩
      · rw [List.getLast?_cons, hfinal]
        rfl
      · rw [integer_more b hrest, natural, List.length_cons, Int.pow_succ]
        split at hm <;> split <;> omega
      · rw [hsign, integer_more b hrest]
        omega

/-- The count of groups bounds what they denote. -/
theorem inGroups_integer {used : Bytes} (h : Grouped used) :
    InGroups (used.length - 1) (integer used) := by
  induction h with
  | @last b hb =>
      rw [List.length_singleton, integer]
      constructor <;> split <;> omega
  | @more b bs hb hrest ih =>
      obtain ⟨k, hk⟩ : ∃ k, bs.length = k + 1 := by
        cases hrest <;> exact ⟨_, rfl⟩
      rw [hk, Nat.add_sub_cancel] at ih
      obtain ⟨hlow, hhigh⟩ := ih
      rw [integer_more b hrest, List.length_cons, hk, Nat.add_sub_cancel, InGroups, Int.pow_succ]
      constructor <;> omega

/-- Readers of signed numbers give what is left of the denoted number in their type. -/
theorem signed_grouped {α : Type} {ofInt : Int → α} {k : Nat}
    (hwrap : ∀ n q, ofInt (n + 2 ^ 64 * q) = ofInt n) {used : Bytes} (h : Grouped used)
    (hlen : used.length ≤ k + 1) (rest : Bytes) :
    (groups (7 * k) 0 0 >>= fun x => pure (ofInt (signed x.1 x.2.1 x.2.2)) : Reader α)
      (used ++ rest) = .ok (ofInt (integer used), rest) := by
  obtain ⟨final, hgroups, hfinal⟩ := groups_grouped h hlen 0 0 rest
  obtain ⟨final', hfinal', hdenotes⟩ := denotes_grouped h
  obtain rfl := Option.some.inj (hfinal.symm.trans hfinal')
  obtain ⟨q, hq⟩ := hdenotes.signed
  simp only [Nat.zero_add, Nat.shiftLeft_zero] at hgroups
  rw [bind_of_ok hgroups, hq, hwrap]
  rfl

/-! ## Dropped bits -/

theorem ofInt_wrap32 (n q : Int) : Int32.ofInt (n + 2 ^ 64 * q) = Int32.ofInt n := by
  have hzero : Int32.ofInt (2 ^ 64) = 0 := by decide
  rw [Int32.ofInt_add, Int32.ofInt_mul, hzero, Int32.zero_mul, Int32.add_zero]

theorem ofInt_wrap64 (n q : Int) : Int64.ofInt (n + 2 ^ 64 * q) = Int64.ofInt n := by
  have hzero : Int64.ofInt (2 ^ 64) = 0 := by decide
  rw [Int64.ofInt_add, Int64.ofInt_mul, hzero, Int64.zero_mul, Int64.add_zero]

end Leb128

/-! ## Agreement -/

namespace Binary

open Leb128
open Reader (bind_of_ok of_bind_eq_ok)

/-- Signed numbers of a type that holds all that `k` groups denote, and at most what `k + 1` do. -/
theorem codec_signed {α : Type} {ofInt : Int → α} {toInt : α → Int} (k : Nat)
    (hofInt : ∀ v, ofInt (toInt v) = v) (hwrap : ∀ n q, ofInt (n + 2 ^ 64 * q) = ofInt n)
    (hin : ∀ v, InGroups k (toInt v)) (hsmall : ∀ n j, j < k → InGroups j n → toInt (ofInt n) = n) :
    Codec (groups (7 * k) 0 0 >>= fun x => pure (ofInt (signed x.1 x.2.1 x.2.2)) : Reader α)
      (fun v => writeInt (toInt v)) fun _ => True where
  reads := by
    intro v _ rest
    obtain ⟨hgrouped, hinteger⟩ := grouped_writeInt (toInt v)
    rw [signed_grouped hwrap hgrouped (length_writeInt_le (hin v)), hinteger, hofInt]
  gives := by
    intro bs v rest h
    obtain ⟨x, rest', hgroups, -⟩ := of_bind_eq_ok h
    rw [← Nat.zero_add (7 * k)] at hgroups
    obtain ⟨used, -, rfl, hgrouped, hlen, -, -⟩ := of_groups hgroups
    rw [signed_grouped hwrap hgrouped hlen] at h
    cases h
    refine ⟨trivial, ?_⟩
    have hpos : 0 < used.length := by cases hgrouped <;> exact Nat.succ_pos _
    have hused := inGroups_integer hgrouped
    suffices (writeInt (toInt (ofInt (integer used)))).length ≤ used.length by
      rw [List.length_append]
      omega
    rcases Nat.lt_or_ge (used.length - 1) k with hfew | hall
    · rw [hsmall _ _ hfew hused]
      have hwritten := length_writeInt_le hused
      omega
    · have hwritten := length_writeInt_le (hin (ofInt (integer used)))
      omega

theorem codec_s32 : Codec readS32 writeS32 fun _ => True :=
  codec_signed 4 Int32.ofInt_toInt ofInt_wrap32
    (fun v => by
      have hlow := v.le_toInt
      have hhigh := v.toInt_lt
      constructor <;> omega)
    fun n j hj hn => by
      obtain ⟨hlow, hhigh⟩ := hn.mono (k := 3) (by omega)
      exact Int32.toInt_ofInt_of_le (by omega) (by omega)

theorem codec_s64 : Codec readS64 writeS64 fun _ => True :=
  codec_signed 9 Int64.ofInt_toInt ofInt_wrap64
    (fun v => by
      have hlow := v.le_toInt
      have hhigh := v.toInt_lt
      constructor <;> omega)
    fun n j hj hn => by
      obtain ⟨hlow, hhigh⟩ := hn.mono (k := 8) (by omega)
      exact Int64.toInt_ofInt_of_le (by omega) (by omega)

end Binary

end WasmShader
