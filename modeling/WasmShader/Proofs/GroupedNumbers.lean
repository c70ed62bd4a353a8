import Mathlib
import WasmShader.Binary.Leb128

/-!
# Numbers in groups

Bytes that hold a number in groups (`Grouped`) end with the first byte whose high bit is clear. They
denote a natural number (`natural`), or, if the upper bit of the last group is a sign, an integer
(`integer`). Whatever bytes a reader meets, they begin with such groups, or with more groups than it
takes, or they end too early (`start`), and each of these ways has its own answer. So what is read
are the groups that the bytes begin with (`of_groups`).

Written numbers are groups that denote them, and no groups that denote the same are fewer.
-/

namespace WasmShader

namespace Leb128

open Reader

/-- More groups follow the one in this byte. -/
def Continues (b : UInt8) : Prop := 128 ≤ b.toNat

instance : DecidablePred Continues := fun b => inferInstanceAs (Decidable (128 ≤ b.toNat))

/-- The bytes hold the groups of one number. -/
inductive Grouped : Bytes → Prop
  | last {b : UInt8} (h : ¬Continues b) : Grouped [b]
  | more {b : UInt8} {bs : Bytes} (h : Continues b) (hrest : Grouped bs) : Grouped (b :: bs)

/-- The number that groups denote, the lowest group first. -/
def natural : Bytes → Nat
  | [] => 0
  | b :: bs => b.toNat % 128 + 128 * natural bs

/-- The number that groups denote in two's complement: the last group is a signed number of seven
bits. -/
def integer : Bytes → Int
  | [] => 0
  | [b] => (b.toNat % 128 : Nat) - if 64 ≤ b.toNat % 128 then 128 else 0
  | b :: bs => (b.toNat % 128 : Nat) + 128 * integer bs

/-- How bytes begin, for a reader of at most `limit` groups. -/
inductive Start (limit : Nat) : Bytes → Prop
  | number {used : Bytes} (h : Grouped used) (hlen : used.length ≤ limit) (rest : Bytes) :
      Start limit (used ++ rest)
  | long {bs : Bytes} (h : ∀ b ∈ bs, Continues b) (hlen : bs.length = limit) (rest : Bytes) :
      Start limit (bs ++ rest)
  | short {bs : Bytes} (h : ∀ b ∈ bs, Continues b) (hlen : bs.length < limit) : Start limit bs

theorem start (limit : Nat) (bs : Bytes) : Start limit bs := by
  induction bs generalizing limit with
  | nil =>
      cases limit with
      | zero => exact @Start.long 0 [] nofun rfl []
      | succ limit => exact .short nofun (Nat.succ_pos limit)
  | cons b bs ih =>
      cases limit with
      | zero => exact @Start.long 0 [] nofun rfl (b :: bs)
      | succ limit =>
          by_cases hb : Continues b
          · cases ih limit with
            | number h hlen rest => exact .number (.more hb h) (Nat.succ_le_succ hlen) rest
            | long h hlen rest =>
                exact .long (List.forall_mem_cons.mpr ⟨hb, h⟩) (congrArg Nat.succ hlen) rest
            | short h hlen =>
                exact .short (List.forall_mem_cons.mpr ⟨hb, h⟩) (Nat.succ_lt_succ hlen)
          · exact .number (.last hb) (Nat.succ_le_succ (Nat.zero_le limit)) bs

/-! ## What groups denote -/

theorem integer_more (b : UInt8) {bs : Bytes} (h : Grouped bs) :
    integer (b :: bs) = (b.toNat % 128 : Nat) + 128 * integer bs := by
  cases h <;> rfl

/-! ## Reading groups -/

variable {k shift acc : Nat}

theorem shiftLeft_groups (n shift : Nat) :
    ((n % 128) <<< shift) + ((n / 128) <<< (shift + 7)) = n <<< shift := by
  rw [Nat.shiftLeft_eq, Nat.shiftLeft_eq, Nat.shiftLeft_eq, Nat.pow_add]
  have hn := Nat.mod_add_div n 128
  calc n % 128 * 2 ^ shift + n / 128 * (2 ^ shift * 2 ^ 7)
      = (n % 128 + 128 * (n / 128)) * 2 ^ shift := by ring
    _ = n * 2 ^ shift := by rw [hn]

/-- Groups that are not too many are read to their end. -/
theorem groups_grouped {used : Bytes} (h : Grouped used) (hlen : used.length ≤ k + 1)
    (shift acc : Nat) (rest : Bytes) :
    ∃ final, groups (shift + 7 * k) shift acc (used ++ rest)
        = .ok ((acc + natural used <<< shift, shift + 7 * used.length, final), rest)
      ∧ used.getLast? = some final := by
  induction h generalizing k shift acc with
  | @last b hb =>
      refine ⟨b, ?_, rfl⟩
      rw [List.singleton_append, groups, if_pos (Nat.lt_of_not_le hb)]
      rfl
  | @more b bs hb hrest ih =>
      have hpos : 0 < bs.length := by cases hrest <;> exact Nat.succ_pos _
      rw [List.length_cons] at hlen
      obtain ⟨k, rfl⟩ : ∃ j, k = j + 1 := ⟨k - 1, by omega⟩
      obtain ⟨final, hgroups, hfinal⟩ :=
        ih (k := k) (by omega) (shift + 7) (acc + (b.toNat % 128) <<< shift)
      have hlast : shift + 7 + 7 * k = shift + 7 * (k + 1) := by omega
      have hnext : (b.toNat % 128) <<< shift + natural bs <<< (shift + 7)
          = natural (b :: bs) <<< shift := by
        have hsum := shiftLeft_groups (natural (b :: bs)) shift
        have hmod : natural (b :: bs) % 128 = b.toNat % 128 := by
          rw [natural]
          omega
        have hdiv : natural (b :: bs) / 128 = natural bs := by
          rw [natural]
          omega
        rwa [hmod, hdiv] at hsum
      refine ⟨final, ?_, by rw [List.getLast?_cons, hfinal]; rfl⟩
      rw [hlast] at hgroups
      rw [List.cons_append, groups, if_neg (Nat.not_lt.mpr hb), if_neg (by omega), hgroups,
        Nat.add_assoc acc, hnext, List.length_cons, Nat.mul_succ, Nat.add_comm (7 * _),
        Nat.add_assoc shift]

/-- More groups than may be read are refused, whatever follows. -/
theorem groups_long {bs : Bytes} (h : ∀ b ∈ bs, Continues b) (hlen : bs.length = k + 1)
    (shift acc : Nat) (rest : Bytes) :
    groups (shift + 7 * k) shift acc (bs ++ rest) = .error overflow := by
  induction k generalizing bs shift acc with
  | zero =>
      obtain ⟨b, rfl⟩ := List.length_eq_one_iff.mp hlen
      have hb := h b List.mem_cons_self
      rw [List.singleton_append, groups, if_neg (Nat.not_lt.mpr hb), if_pos (by omega)]
  | succ k ih =>
      obtain ⟨b, bs, rfl⟩ := List.exists_cons_of_length_eq_add_one hlen
      obtain ⟨hb, hbs⟩ := List.forall_mem_cons.mp h
      have hlast : shift + 7 * (k + 1) = shift + 7 + 7 * k := by omega
      rw [List.cons_append, groups, if_neg (Nat.not_lt.mpr hb), if_neg (by omega), hlast]
      exact ih hbs (Nat.succ.inj hlen) _ _

/-- Bytes that end before their groups do. -/
theorem groups_short {bs : Bytes} (h : ∀ b ∈ bs, Continues b) (hlen : bs.length ≤ k)
    (shift acc : Nat) : groups (shift + 7 * k) shift acc bs = .error endOfInput := by
  induction bs generalizing k shift acc with
  | nil => rfl
  | cons b bs ih =>
      obtain ⟨hb, hbs⟩ := List.forall_mem_cons.mp h
      rw [List.length_cons] at hlen
      obtain ⟨k, rfl⟩ : ∃ j, k = j + 1 := ⟨k - 1, by omega⟩
      have hlast : shift + 7 * (k + 1) = shift + 7 + 7 * k := by omega
      rw [groups, if_neg (Nat.not_lt.mpr hb), if_neg (by omega), hlast]
      exact ih hbs (by omega) _ _

/-- Groups that are read are what the bytes begin with. -/
theorem of_groups {x : Nat × Nat × UInt8} {bs rest : Bytes}
    (h : groups (shift + 7 * k) shift acc bs = .ok (x, rest)) :
    ∃ used final, bs = used ++ rest ∧ Grouped used ∧ used.length ≤ k + 1
      ∧ used.getLast? = some final
      ∧ x = (acc + natural used <<< shift, shift + 7 * used.length, final) := by
  cases start (k + 1) bs with
  | @number used hused hlen rest' =>
      obtain ⟨final, hgroups, hfinal⟩ := groups_grouped hused hlen shift acc rest'
      rw [hgroups] at h
      cases h
      exact ⟨used, final, rfl, hused, hlen, hfinal, rfl⟩
  | long hbs hlen rest' =>
      rw [groups_long hbs hlen] at h
      cases h
  | short hbs hlen =>
      rw [groups_short hbs (Nat.le_of_lt_succ hlen)] at h
      cases h

/-! ## Writing -/

theorem length_writeNat_pos (n : Nat) : 1 ≤ (writeNat n).length := by
  rw [writeNat]
  split
  · exact Nat.le_refl 1
  · rw [List.length_cons]
    omega

/-- A number with one more group takes at most one more byte. -/
theorem length_writeNat_le (low high : Nat) (hlow : low < 128) :
    (writeNat (low + 128 * high)).length ≤ 1 + (writeNat high).length := by
  rw [writeNat]
  split
  · rw [List.length_singleton]
    omega
  · have hdiv : (low + 128 * high) / 128 = high := by omega
    rw [List.length_cons, hdiv]
    omega

theorem length_writeNat_mono {m n : Nat} (h : m ≤ n) :
    (writeNat m).length ≤ (writeNat n).length := by
  induction n using Nat.strongRecOn generalizing m with
  | ind n ih =>
      by_cases hn : n < 128
      · have hm : m < 128 := by omega
        rw [writeNat, if_pos hm, writeNat, if_pos hn]
        exact Nat.le_refl 1
      · rw [writeNat.eq_1 n, if_neg hn, List.length_cons]
        by_cases hm : m < 128
        · rw [writeNat, if_pos hm, List.length_singleton]
          omega
        · rw [writeNat, if_neg hm, List.length_cons]
          exact Nat.succ_le_succ (ih (n / 128) (by omega) (by omega))

/-- What is written for a natural number denotes it. -/
theorem grouped_writeNat (n : Nat) : Grouped (writeNat n) ∧ natural (writeNat n) = n := by
  induction n using Nat.strongRecOn with
  | ind n ih =>
      rw [writeNat]
      split
      · next hsmall =>
        have hbyte : n.toUInt8.toNat = n := Nat.mod_eq_of_lt (by omega)
        refine ⟨.last (by rw [Continues, hbyte]; omega), ?_⟩
        rw [natural, natural, hbyte]
        omega
      · have hbyte : (n % 128 + 128).toUInt8.toNat = n % 128 + 128 := Nat.mod_eq_of_lt (by omega)
        obtain ⟨hgrouped, hnatural⟩ := ih (n / 128) (by omega)
        refine ⟨.more (by rw [Continues, hbyte]; omega) hgrouped, ?_⟩
        rw [natural, hnatural, hbyte]
        omega

theorem length_writeNat_of_lt {n k : Nat} (h : n < 128 ^ (k + 1)) :
    (writeNat n).length ≤ k + 1 := by
  induction k generalizing n with
  | zero =>
      rw [Nat.zero_add, Nat.pow_one] at h
      rw [writeNat, if_pos h]
      exact Nat.le_refl 1
  | succ k ih =>
      rw [Nat.pow_succ] at h
      rw [writeNat]
      split
      · exact Nat.succ_le_succ (Nat.zero_le _)
      · exact Nat.succ_le_succ (ih (by omega))

/-- Groups that denote a number are at least as many as are written for it. -/
theorem length_writeNat_natural {used : Bytes} (h : Grouped used) :
    (writeNat (natural used)).length ≤ used.length := by
  induction h with
  | @last b hb =>
      rw [natural, natural, writeNat, if_pos (by omega)]
      exact Nat.le_refl 1
  | @more b bs hb hrest ih =>
      have hmore := length_writeNat_le (b.toNat % 128) (natural bs) (Nat.mod_lt _ (by decide))
      rw [natural, List.length_cons]
      omega

/-- What is written for an integer denotes it. -/
theorem grouped_writeInt (n : Int) : Grouped (writeInt n) ∧ integer (writeInt n) = n := by
  induction n using writeInt.induct with
  | case1 n group hlast =>
      have hsmall := (isLast_iff n).mp hlast
      have hbyte : (n % 128).toNat.toUInt8.toNat = (n % 128).toNat := Nat.mod_eq_of_lt (by omega)
      rw [writeInt, if_pos hlast]
      refine ⟨.last (by rw [Continues, hbyte]; omega), ?_⟩
      rw [integer, hbyte]
      split <;> omega
  | case2 n group hmore ih =>
      have hlarge := mt (isLast_iff n).mpr hmore
      have hbyte : ((n % 128).toNat + 128).toUInt8.toNat = (n % 128).toNat + 128 :=
        Nat.mod_eq_of_lt (by omega)
      obtain ⟨hgrouped, hinteger⟩ := ih
      rw [writeInt, if_neg hmore]
      refine ⟨.more (by rw [Continues, hbyte]; omega) hgrouped, ?_⟩
      rw [integer_more _ hgrouped, hinteger, hbyte]
      omega

end Leb128

end WasmShader
