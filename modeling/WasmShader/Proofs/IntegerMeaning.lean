import Mathlib
import WasmShader.Proofs.ShaderTyping

/-!
# Integer instructions

What WebAssembly says that an integer instruction computes. An integer of `N` bits is a
number below `2 ^ N`; where an instruction is signed it stands for the integer that it is as
two's complement. Results are taken modulo `2 ^ N`, shifts and rotations take their amount
modulo `N`, and a division traps on a divisor of zero and on the one quotient that has no
representation.

The operations of the backend compute just that. Those on 64 bits partly go through word
pairs, so the arithmetic of pairs is settled first: with the carry, the borrow and the order
of the high words it is arithmetic on the numbers that the pairs join to.
-/

namespace WasmShader

open Execution

namespace Integer

/-! ## Numbers of a width -/

/-- The bits of a type of integers. -/
def width : ValueType → Nat
  | .i64 => 64
  | _ => 32

/-- The integer that `N` bits stand for as two's complement. -/
def signed (N n : Nat) : Int := if 2 * n < 2 ^ N then n else n - 2 ^ N

/-- The `N` bits of an integer. -/
def pattern (N : Nat) (i : Int) : Nat := (i % 2 ^ N).toNat

def truth (p : Prop) [Decidable p] : Nat := if p then 1 else 0

/-! ## The meaning of instructions -/

/-- An instruction on one operand; `N` are the bits of its result. -/
def unary (N : Nat) (m : Mnemonic) (a : Nat) : Option Nat :=
  match m with
  | .eqz => some (truth (a = 0))
  | .clz => some (Nat.count (fun k => a < 2 ^ k) N)
  | .ctz => some (Nat.count (fun k => 2 ^ (k + 1) ∣ a) N)
  | .popcnt => some (Nat.count (fun k => a.testBit k) N)
  | .wrapI64 => some (a % 2 ^ N)
  | .extendI32U => some a
  | .extendI32S => some (pattern N (signed 32 a))
  | .extend8S => some (pattern N (signed 8 (a % 2 ^ 8)))
  | .extend16S => some (pattern N (signed 16 (a % 2 ^ 16)))
  | .extend32S => some (pattern N (signed 32 (a % 2 ^ 32)))
  | _ => none

/-- An instruction on two operands of `N` bits. -/
def binary (N : Nat) (m : Mnemonic) (a b : Nat) : Option (Except TrapCode Nat) :=
  let k := b % N
  match m with
  | .eq => some (.ok (truth (a = b)))
  | .ne => some (.ok (truth (a ≠ b)))
  | .ltS => some (.ok (truth (signed N a < signed N b)))
  | .ltU => some (.ok (truth (a < b)))
  | .gtS => some (.ok (truth (signed N a > signed N b)))
  | .gtU => some (.ok (truth (a > b)))
  | .leS => some (.ok (truth (signed N a ≤ signed N b)))
  | .leU => some (.ok (truth (a ≤ b)))
  | .geS => some (.ok (truth (signed N a ≥ signed N b)))
  | .geU => some (.ok (truth (a ≥ b)))
  | .add => some (.ok ((a + b) % 2 ^ N))
  | .sub => some (.ok (pattern N (a - b)))
  | .mul => some (.ok (a * b % 2 ^ N))
  | .divU => some (if b = 0 then .error .divByZero else .ok (a / b))
  | .divS => some (
    if b = 0 then .error .divByZero
    else if signed N a = -2 ^ (N - 1) ∧ signed N b = -1 then .error .intOverflow
    else .ok (pattern N ((signed N a).tdiv (signed N b))))
  | .remU => some (if b = 0 then .error .divByZero else .ok (a % b))
  | .remS => some (
    if b = 0 then .error .divByZero else .ok (pattern N ((signed N a).tmod (signed N b))))
  | .and => some (.ok (a &&& b))
  | .or => some (.ok (a ||| b))
  | .xor => some (.ok (a ^^^ b))
  | .shl => some (.ok (a * 2 ^ k % 2 ^ N))
  | .shrU => some (.ok (a / 2 ^ k))
  | .shrS => some (.ok (pattern N (signed N a / 2 ^ k)))
  | .rotl => some (.ok (a * 2 ^ k % 2 ^ N + a / 2 ^ (N - k)))
  | .rotr => some (.ok (a / 2 ^ k + a * 2 ^ (N - k) % 2 ^ N))
  | _ => none

/-- What an instruction gives for the numbers of its operands; none if it is not an
instruction on integers. -/
def denote (op : NumericOp) : List Nat → Option (Except TrapCode Nat)
  | [a] => (unary (width op.type) op.mnemonic a).map .ok
  | [a, b] => binary (width op.type) op.mnemonic a b
  | _ => none

/-- The value of a type of integers with a number. -/
def value (t : ValueType) (n : Nat) : Value := ⟨t, .ofNat n, 0⟩

/-- The result of an operation of the backend that is the given one. -/
def operated (t : ValueType) (r : Except TrapCode Nat) : Operated := some (r.map (value t))

/-! ## Bit patterns -/

section Patterns

variable {N : Nat}

theorem signed_toNat (x : BitVec N) : signed N x.toNat = x.toInt := by
  rw [signed, BitVec.toInt_eq_toNat_cond]
  push_cast
  rfl

theorem pattern_toInt (x : BitVec N) : pattern N x.toInt = x.toNat := by
  have h := congrArg BitVec.toNat (BitVec.ofInt_toInt (x := x))
  rwa [BitVec.toNat_ofInt] at h

theorem pattern_bmod (N : Nat) (i : Int) : pattern N (i.bmod (2 ^ N)) = pattern N i := by
  have h := Int.bmod_emod (x := i) (m := 2 ^ N)
  push_cast at h
  rw [pattern, pattern, h]

theorem toNat_sub (x y : BitVec N) : (x - y).toNat = pattern N (x.toNat - y.toNat) := by
  rw [← pattern_toInt, BitVec.toInt_sub, pattern_bmod, ← pattern_bmod, ← pattern_bmod N (_ - _)]
  congr 1
  rw [BitVec.toInt_eq_toNat_bmod, BitVec.toInt_eq_toNat_bmod, Int.bmod_sub_bmod,
    Int.sub_bmod_bmod]

theorem toNat_sdiv (x y : BitVec N) :
    (x.sdiv y).toNat = pattern N ((signed N x.toNat).tdiv (signed N y.toNat)) := by
  rw [signed_toNat, signed_toNat, ← pattern_toInt, BitVec.toInt_sdiv, pattern_bmod]

theorem toNat_srem (x y : BitVec N) :
    (x.srem y).toNat = pattern N ((signed N x.toNat).tmod (signed N y.toNat)) := by
  rw [signed_toNat, signed_toNat, ← pattern_toInt, BitVec.toInt_srem]

theorem toNat_sshiftRight (x : BitVec N) (k : Nat) :
    (x.sshiftRight k).toNat = pattern N (signed N x.toNat / 2 ^ k) := by
  rw [signed_toNat, ← pattern_toInt, BitVec.toInt_sshiftRight, Int.shiftRight_eq_div_pow]
  push_cast
  rfl

/-! ## Counts of bits -/

theorem count_le (L N : Nat) : Nat.count (fun k => L ≤ k) N = N - L := by
  induction N with
  | zero => simp
  | succ N ih =>
      rw [Nat.count_succ, ih]
      split
      · omega
      · omega

theorem leadingZeros_eq {a : Nat} (h : a < 2 ^ N) :
    Bits.leadingZeros N a = Nat.count (fun k => a < 2 ^ k) N := by
  unfold Bits.leadingZeros
  split
  · next hzero =>
    subst hzero
    simp
  · next hzero =>
    have hcount := count_le (a.log2 + 1) N
    simp only [Nat.add_one_le_iff, Nat.log2_lt hzero] at hcount
    rw [hcount]
    omega

theorem trailingZeros_eq (N a : Nat) :
    Bits.trailingZeros N a = Nat.count (fun k => 2 ^ (k + 1) ∣ a) N := by
  induction N generalizing a with
  | zero => rfl
  | succ N ih =>
      rw [Bits.trailingZeros, Nat.count_succ']
      split
      · next hodd =>
        have hnone (k : Nat) : ¬2 ^ (k + 1) ∣ a := fun h => by
          have := Nat.dvd_of_pow_dvd (Nat.le_add_left 1 k) h
          omega
        simp only [hnone, Nat.count_false, if_false, add_zero]
      · next heven =>
        obtain ⟨b, rfl⟩ : 2 ∣ a := by omega
        rw [Nat.mul_div_cancel_left _ (by decide), ih]
        simp [pow_succ', Nat.mul_dvd_mul_iff_left]

theorem oneBits_eq (N a : Nat) : Bits.oneBits N a = Nat.count (fun k => a.testBit k) N := by
  induction N generalizing a with
  | zero => rfl
  | succ N ih =>
      rw [Bits.oneBits, Nat.count_succ', ih]
      simp only [Nat.testBit_succ, Nat.testBit_zero, decide_eq_true_eq]
      split
      · omega
      · omega

/-! ## Rotations -/

/-- The two parts of a rotation have no bits in common. -/
theorem shifts_or_eq_add {k a : Nat} (hk : k ≤ N) (ha : a < 2 ^ N) :
    (a <<< k % 2 ^ N) ||| (a >>> (N - k)) = a * 2 ^ k % 2 ^ N + a / 2 ^ (N - k) := by
  have hN : 2 ^ N = 2 ^ (N - k) * 2 ^ k := by
    rw [← pow_add, Nat.sub_add_cancel hk]
  rw [Nat.shiftLeft_eq, Nat.shiftRight_eq_div_pow, hN, Nat.mul_mod_mul_right,
    Nat.mul_comm _ (2 ^ k)]
  refine (Nat.two_pow_add_eq_or_of_lt ?_ _).symm
  rw [Nat.div_lt_iff_lt_mul (Nat.two_pow_pos _), Nat.mul_comm, ← hN]
  exact ha

/-- Shifts to the left and back, the second by what is left of the width. -/
theorem shifts_left_eq {k a : Nat} (hk : k < N) (ha : a < 2 ^ N) :
    (a <<< k % 2 ^ N) ||| (a >>> ((N - k) % N)) = a * 2 ^ k % 2 ^ N + a / 2 ^ (N - k) := by
  cases k with
  | zero => simp [Nat.mod_eq_of_lt ha, Nat.div_eq_of_lt ha]
  | succ k => rw [Nat.mod_eq_of_lt (Nat.sub_lt (by omega) (by omega)), shifts_or_eq_add hk.le ha]

theorem shifts_right_eq {k a : Nat} (hk : k < N) (ha : a < 2 ^ N) :
    (a >>> k) ||| (a <<< ((N - k) % N) % 2 ^ N) = a / 2 ^ k + a * 2 ^ (N - k) % 2 ^ N := by
  cases k with
  | zero => simp [Nat.mod_eq_of_lt ha]
  | succ k =>
      have h := shifts_or_eq_add (k := N - (k + 1)) (Nat.sub_le ..) ha
      rw [Nat.sub_sub_self hk.le] at h
      rw [Nat.mod_eq_of_lt (Nat.sub_lt (by omega) (by omega)), Nat.or_comm, h, Nat.add_comm]

end Patterns

end Integer

/-! ## Word pairs -/

namespace WordPair

open Integer

theorem toNat_join (w : WordPair) : w.join.toNat = w.lo.toNat + 2 ^ 32 * w.hi.toNat := by
  have hlo : w.lo.toNat < 2 ^ 32 := w.lo.toNat_lt
  have hhi : w.hi.toNat < 2 ^ 32 := w.hi.toNat_lt
  rw [join, UInt64.toNat_or, UInt64.toNat_shiftLeft, UInt32.toNat_toUInt64, UInt32.toNat_toUInt64,
    Nat.or_comm]
  change (w.hi.toNat <<< 32 % 2 ^ 64) ||| w.lo.toNat = _
  rw [Nat.shiftLeft_eq, Nat.mod_eq_of_lt (by omega), Nat.mul_comm,
    ← Nat.two_pow_add_eq_or_of_lt hlo, Nat.add_comm]

theorem toNat_split_lo (v : UInt64) : (split v).lo.toNat = v.toNat % 2 ^ 32 :=
  UInt64.toNat_toUInt32 v

theorem toNat_split_hi (v : UInt64) : (split v).hi.toNat = v.toNat / 2 ^ 32 := by
  have hv : v.toNat < 2 ^ 64 := v.toNat_lt
  rw [split, UInt64.toNat_toUInt32, UInt64.toNat_shiftRight]
  change v.toNat >>> 32 % 2 ^ 32 = _
  rw [Nat.shiftRight_eq_div_pow, Nat.mod_eq_of_lt (by omega)]

theorem join_split (v : UInt64) : (split v).join = v := by
  apply UInt64.toNat_inj.mp
  rw [toNat_join, toNat_split_lo, toNat_split_hi]
  omega

theorem split_join (w : WordPair) : split w.join = w := by
  have hlo : w.lo.toNat < 2 ^ 32 := w.lo.toNat_lt
  have hlow : (split w.join).lo = w.lo :=
    UInt32.toNat_inj.mp (by rw [toNat_split_lo, toNat_join]; omega)
  have hhigh : (split w.join).hi = w.hi :=
    UInt32.toNat_inj.mp (by rw [toNat_split_hi, toNat_join]; omega)
  exact congrArg₂ WordPair.mk hlow hhigh

theorem toNat_carry (p : Prop) [Decidable p] :
    (if p then (1 : UInt32) else 0).toNat = if p then 1 else 0 := by
  split
  · rfl
  · rfl

/-- The carry of the low words makes sums of pairs sums of numbers. -/
theorem toNat_add (a b : WordPair) :
    (a.add b).join.toNat = (a.join.toNat + b.join.toNat) % 2 ^ 64 := by
  have ha := a.lo.toNat_lt
  have hb := b.lo.toNat_lt
  have ha' := a.hi.toNat_lt
  have hb' := b.hi.toNat_lt
  simp only [toNat_join, add, UInt32.toNat_add, toNat_carry, UInt32.lt_iff_toNat_lt]
  split
  · omega
  · omega

/-- The borrow of the low words makes differences of pairs differences of numbers. -/
theorem toNat_sub (a b : WordPair) :
    (a.sub b).join.toNat = pattern 64 (a.join.toNat - b.join.toNat) := by
  have ha := a.lo.toNat_lt
  have hb := b.lo.toNat_lt
  have ha' := a.hi.toNat_lt
  have hb' := b.hi.toNat_lt
  simp only [toNat_join, sub, UInt32.toNat_sub, toNat_carry, UInt32.lt_iff_toNat_lt, pattern]
  split
  · omega
  · omega

theorem toInt_toInt32 (w : UInt32) : w.toInt32.toInt = signed 32 w.toNat :=
  (signed_toNat w.toBitVec).symm

/-- The high words decide as signed ones, the low ones as they are. -/
theorem less_signed (a b : WordPair) :
    less true a b = decide (signed 64 a.join.toNat < signed 64 b.join.toNat) := by
  have ha := a.lo.toNat_lt
  have hb := b.lo.toNat_lt
  have ha' := a.hi.toNat_lt
  have hb' := b.hi.toNat_lt
  simp only [less, if_true, ne_eq, ← UInt32.toNat_inj, toNat_join, UInt32.lt_iff_toNat_lt,
    Int32.lt_iff_toInt_lt, toInt_toInt32]
  unfold signed
  split
  · rw [decide_eq_decide]; split <;> split <;> split <;> split <;> omega
  · rw [decide_eq_decide]; split <;> split <;> omega

theorem less_unsigned (a b : WordPair) :
    less false a b = decide (a.join.toNat < b.join.toNat) := by
  have ha := a.lo.toNat_lt
  have hb := b.lo.toNat_lt
  simp only [less, Bool.false_eq_true, if_false, ne_eq, ← UInt32.toNat_inj, toNat_join,
    UInt32.lt_iff_toNat_lt]
  split
  · rw [decide_eq_decide]; omega
  · rw [decide_eq_decide]; omega

end WordPair

/-! ## Operations of the backend -/

namespace Integer

theorem ofU32_eq (v : UInt32) : Value.ofU32 v = value .i32 v.toNat := by
  rw [Value.ofU32, value]
  congr 1
  exact UInt64.toNat_inj.mp (by simp)

theorem ofU64_eq (v : UInt64) : Value.ofU64 v = value .i64 v.toNat := by
  rw [Value.ofU64, value, UInt64.ofNat_toNat]

theorem operated_i32 {v : UInt32} {n : Nat} (h : v.toNat = n) :
    Operated.i32 v = operated .i32 (.ok n) := by
  rw [← h]
  exact congrArg (fun r => some (Except.ok r)) (ofU32_eq v)

theorem operated_i64 {v : UInt64} {n : Nat} (h : v.toNat = n) :
    Operated.i64 v = operated .i64 (.ok n) := by
  rw [← h]
  exact congrArg (fun r => some (Except.ok r)) (ofU64_eq v)

theorem operated_bool {b : Bool} {p : Prop} [Decidable p] (h : b = decide p) :
    Operated.bool b = operated .i32 (.ok (truth p)) := by
  subst h
  unfold truth
  by_cases hp : p
  · simp only [hp, decide_true, if_true]; rfl
  · simp only [hp, decide_false, if_false]; rfl

theorem toNat_toUInt32 (i : Int32) : i.toUInt32.toNat = pattern 32 i.toInt :=
  (pattern_toInt i.toBitVec).symm

theorem toNat_toUInt64 (i : Int64) : i.toUInt64.toNat = pattern 64 i.toInt :=
  (pattern_toInt i.toBitVec).symm

theorem toInt_toInt64 (w : UInt64) : w.toInt64.toInt = signed 64 w.toNat :=
  (signed_toNat w.toBitVec).symm

/-- The amount of a shift of a signed integer, taken from its low bits. -/
theorem toNat_smod_mask {N k : Nat} (x mask modulus : BitVec N) (hmask : mask.toNat = 2 ^ k - 1)
    (hmodulus : modulus.toNat = 2 ^ k) (hk : k + 1 < N) :
    ((x &&& mask).smod modulus).toNat = x.toNat % 2 ^ k := by
  have hlt : 2 ^ (k + 1) < 2 ^ N := Nat.pow_lt_pow_right (by decide) hk
  have hand : (x &&& mask).toNat = x.toNat % 2 ^ k := by
    rw [BitVec.toNat_and, hmask, Nat.and_two_pow_sub_one_eq_mod]
  have hpow : 0 < 2 ^ k := Nat.two_pow_pos k
  have hmod := Nat.mod_lt x.toNat hpow
  have hsmall (y : BitVec N) (hy : y.toNat ≤ 2 ^ k) : y.msb = false := by
    rw [BitVec.msb_eq_false_iff_two_mul_lt]
    rw [Nat.pow_succ] at hlt
    omega
  rw [BitVec.smod_eq, hsmall _ (by omega), hsmall _ (by omega)]
  change ((x &&& mask).umod modulus).toNat = _
  rw [BitVec.umod_eq, BitVec.toNat_umod, hand, hmodulus, Nat.mod_mod]

theorem toInt_shiftRight32 (a b : UInt32) :
    (a.toInt32 >>> (b.toInt32 &&& 31)).toUInt32.toNat
      = pattern 32 (signed 32 a.toNat / 2 ^ (b.toNat % 32)) := by
  have hamount : ((b.toBitVec &&& 31).smod 32).toNat = b.toNat % 32 :=
    toNat_smod_mask (k := 5) b.toBitVec 31 32 rfl rfl (by decide)
  change ((a.toInt32 >>> (b.toInt32 &&& 31)).toBitVec).toNat = _
  rw [Int32.toBitVec_shiftRight]
  change (a.toBitVec.sshiftRight ((b.toBitVec &&& 31).smod 32).toNat).toNat = _
  rw [hamount, toNat_sshiftRight]
  rfl

theorem toInt_shiftRight64 (a b : UInt64) :
    (a.toInt64 >>> (b.toInt64 &&& 63)).toUInt64.toNat
      = pattern 64 (signed 64 a.toNat / 2 ^ (b.toNat % 64)) := by
  have hamount : ((b.toBitVec &&& 63).smod 64).toNat = b.toNat % 64 :=
    toNat_smod_mask (k := 6) b.toBitVec 63 64 rfl rfl (by decide)
  change ((a.toInt64 >>> (b.toInt64 &&& 63)).toBitVec).toNat = _
  rw [Int64.toBitVec_shiftRight]
  change (a.toBitVec.sshiftRight ((b.toBitVec &&& 63).smod 64).toNat).toNat = _
  rw [hamount, toNat_sshiftRight]
  rfl

theorem toNat_mask31 (b : UInt32) : (b &&& 31).toNat = b.toNat % 32 := by
  rw [UInt32.toNat_and]
  exact Nat.and_two_pow_sub_one_eq_mod b.toNat 5

theorem toNat_mask63 (b : UInt64) : (b &&& 63).toNat = b.toNat % 64 := by
  rw [UInt64.toNat_and]
  exact Nat.and_two_pow_sub_one_eq_mod b.toNat 6

/-! ### 32 bits -/

theorem evalI32_binary {m : Mnemonic} {r : Except TrapCode Nat} (v : Value) (a b : UInt32)
    (h : binary 32 m a.toNat b.toNat = some r) : evalI32 m v a b = operated .i32 r := by
  have ha : a.toNat < 2 ^ 32 := a.toNat_lt
  have hb : b.toNat < 2 ^ 32 := b.toNat_lt
  have hzero : b = 0 ↔ b.toNat = 0 := UInt32.toNat_inj.symm
  have hbeq : (a == b) = decide (a.toNat = b.toNat) := by
    rw [Bool.eq_iff_iff, beq_iff_eq, decide_eq_true_eq, UInt32.toNat_inj]
  have hminimum : a.toInt32 = Int32.minValue ↔ signed 32 a.toNat = -2 ^ (32 - 1) := by
    rw [← Int32.toInt_inj, WordPair.toInt_toInt32, Int32.toInt_minValue]
  have hminus : b.toInt32 = -1 ↔ signed 32 b.toNat = -1 := by
    rw [← Int32.toInt_inj, WordPair.toInt_toInt32]
    rfl
  have hamount : (b &&& 31).toNat % 32 = b.toNat % 32 := by
    rw [toNat_mask31, Nat.mod_mod]
  have hback : (32 - b % 32).toNat = 32 - b.toNat % 32 := by
    rw [UInt32.toNat_sub, UInt32.toNat_mod]
    change (2 ^ 32 - b.toNat % 32 + 32) % 2 ^ 32 = _
    omega
  have hless := @Int32.lt_iff_toInt_lt
  have hle := @Int32.le_iff_toInt_le
  cases m <;> cases h
  case eq => exact operated_bool hbeq
  case ne => exact operated_bool (by rw [bne, hbeq, decide_not])
  case ltS => exact operated_bool (by simp only [hless, WordPair.toInt_toInt32])
  case ltU => exact operated_bool rfl
  case gtS => exact operated_bool (by simp only [hless, WordPair.toInt_toInt32, gt_iff_lt])
  case gtU => exact operated_bool rfl
  case leS => exact operated_bool (by simp only [hle, WordPair.toInt_toInt32])
  case leU => exact operated_bool rfl
  case geS => exact operated_bool (by simp only [hle, WordPair.toInt_toInt32, ge_iff_le])
  case geU => exact operated_bool rfl
  case add => exact operated_i32 (UInt32.toNat_add a b)
  case sub => exact operated_i32 (toNat_sub a.toBitVec b.toBitVec)
  case mul => exact operated_i32 (UInt32.toNat_mul a b)
  case divS =>
      simp only [evalI32, hzero, hminimum, hminus, Bool.and_eq_true, decide_eq_true_eq]
      split
      · rfl
      · split
        · rfl
        · exact operated_i32 (toNat_sdiv a.toBitVec b.toBitVec)
  case divU =>
      simp only [evalI32, hzero]
      split
      · rfl
      · exact operated_i32 (UInt32.toNat_div a b)
  case remS =>
      simp only [evalI32, hzero, hminus]
      split
      · rfl
      · split
        · next hone => rw [hone, Int.tmod_neg, Int.tmod_one]; rfl
        · exact operated_i32 (toNat_srem a.toBitVec b.toBitVec)
  case remU =>
      simp only [evalI32, hzero]
      split
      · rfl
      · exact operated_i32 (UInt32.toNat_mod a b)
  case and => exact operated_i32 (UInt32.toNat_and a b)
  case or => exact operated_i32 (UInt32.toNat_or a b)
  case xor => exact operated_i32 (UInt32.toNat_xor a b)
  case shl =>
      refine operated_i32 ?_
      rw [UInt32.toNat_shiftLeft, hamount, Nat.shiftLeft_eq]
  case shrS => exact operated_i32 (toInt_shiftRight32 a b)
  case shrU =>
      refine operated_i32 ?_
      rw [UInt32.toNat_shiftRight, hamount, Nat.shiftRight_eq_div_pow]
  case rotl =>
      refine operated_i32 ?_
      rw [Bits.rotl32, UInt32.toNat_or, UInt32.toNat_shiftLeft, UInt32.toNat_shiftRight, hback]
      exact shifts_left_eq (Nat.mod_lt _ (by decide)) ha
  case rotr =>
      refine operated_i32 ?_
      rw [Bits.rotr32, UInt32.toNat_or, UInt32.toNat_shiftLeft, UInt32.toNat_shiftRight, hback]
      exact shifts_right_eq (Nat.mod_lt _ (by decide)) ha

/-! ### 64 bits -/

theorem evalI64_binary {m : Mnemonic} {r : Except TrapCode Nat} (v : Value) (a b : UInt64)
    (h : binary 64 m a.toNat b.toNat = some r) :
    evalI64 m v a b = operated (if m.isComparison then .i32 else .i64) r := by
  have ha : a.toNat < 2 ^ 64 := a.toNat_lt
  have hzero : b = 0 ↔ b.toNat = 0 := UInt64.toNat_inj.symm
  have hbeq : (a == b) = decide (a.toNat = b.toNat) := by
    rw [Bool.eq_iff_iff, beq_iff_eq, decide_eq_true_eq, UInt64.toNat_inj]
  have hless {x y : UInt64} : WordPair.less true (.split x) (.split y)
      = decide (signed 64 x.toNat < signed 64 y.toNat) := by
    rw [WordPair.less_signed, WordPair.join_split, WordPair.join_split]
  have hbelow {x y : UInt64} : WordPair.less false (.split x) (.split y)
      = decide (x.toNat < y.toNat) := by
    rw [WordPair.less_unsigned, WordPair.join_split, WordPair.join_split]
  have hminimum : a.toInt64 = Int64.minValue ↔ signed 64 a.toNat = -2 ^ (64 - 1) := by
    rw [← Int64.toInt_inj, toInt_toInt64, Int64.toInt_minValue]
  have hminus : b.toInt64 = -1 ↔ signed 64 b.toNat = -1 := by
    rw [← Int64.toInt_inj, toInt_toInt64]
    rfl
  have hamount : (b &&& 63).toNat % 64 = b.toNat % 64 := by
    rw [toNat_mask63, Nat.mod_mod]
  have hback : (64 - b % 64).toNat = 64 - b.toNat % 64 := by
    rw [UInt64.toNat_sub, UInt64.toNat_mod]
    change (2 ^ 64 - b.toNat % 64 + 64) % 2 ^ 64 = _
    omega
  cases m <;> cases h
  case eq => exact operated_bool hbeq
  case ne => exact operated_bool (by rw [bne, hbeq, decide_not])
  case ltS => exact operated_bool hless
  case ltU => exact operated_bool hbelow
  case gtS => exact operated_bool hless
  case gtU => exact operated_bool hbelow
  case leS => exact operated_bool (by rw [hless, ← decide_not, decide_eq_decide, not_lt])
  case leU => exact operated_bool (by rw [hbelow, ← decide_not, decide_eq_decide, not_lt])
  case geS => exact operated_bool (by rw [hless, ← decide_not, decide_eq_decide, not_lt])
  case geU => exact operated_bool (by rw [hbelow, ← decide_not, decide_eq_decide, not_lt])
  case add =>
      refine operated_i64 ?_
      rw [WordPair.toNat_add, WordPair.join_split, WordPair.join_split]
  case sub =>
      refine operated_i64 ?_
      rw [WordPair.toNat_sub, WordPair.join_split, WordPair.join_split]
  case mul => exact operated_i64 (UInt64.toNat_mul a b)
  case divS =>
      simp only [evalI64, hzero, hminimum, hminus, Bool.and_eq_true, decide_eq_true_eq]
      split
      · rfl
      · split
        · rfl
        · exact operated_i64 (toNat_sdiv a.toBitVec b.toBitVec)
  case divU =>
      simp only [evalI64, hzero]
      split
      · rfl
      · exact operated_i64 (UInt64.toNat_div a b)
  case remS =>
      simp only [evalI64, hzero, hminus]
      split
      · rfl
      · split
        · next hone => rw [hone, Int.tmod_neg, Int.tmod_one]; rfl
        · exact operated_i64 (toNat_srem a.toBitVec b.toBitVec)
  case remU =>
      simp only [evalI64, hzero]
      split
      · rfl
      · exact operated_i64 (UInt64.toNat_mod a b)
  case and => exact operated_i64 (UInt64.toNat_and a b)
  case or => exact operated_i64 (UInt64.toNat_or a b)
  case xor => exact operated_i64 (UInt64.toNat_xor a b)
  case shl =>
      refine operated_i64 ?_
      rw [UInt64.toNat_shiftLeft, hamount, Nat.shiftLeft_eq]
  case shrS => exact operated_i64 (toInt_shiftRight64 a b)
  case shrU =>
      refine operated_i64 ?_
      rw [UInt64.toNat_shiftRight, hamount, Nat.shiftRight_eq_div_pow]
  case rotl =>
      refine operated_i64 ?_
      rw [Bits.rotl64, UInt64.toNat_or, UInt64.toNat_shiftLeft, UInt64.toNat_shiftRight, hback]
      exact shifts_left_eq (Nat.mod_lt _ (by decide)) ha
  case rotr =>
      refine operated_i64 ?_
      rw [Bits.rotr64, UInt64.toNat_or, UInt64.toNat_shiftLeft, UInt64.toNat_shiftRight, hback]
      exact shifts_right_eq (Nat.mod_lt _ (by decide)) ha

/-! ### One operand -/

theorem toNat_toUInt32_count (p : Nat → Prop) [DecidablePred p] :
    (Nat.count p 32).toUInt32.toNat = Nat.count p 32 := by
  have h : Nat.count p 32 ≤ 32 := Nat.count_le p
  rw [Nat.toUInt32, UInt32.toNat_ofNat', Nat.mod_eq_of_lt (by omega)]

theorem toNat_toUInt64_count (p : Nat → Prop) [DecidablePred p] :
    (Nat.count p 64).toUInt64.toNat = Nat.count p 64 := by
  have h : Nat.count p 64 ≤ 64 := Nat.count_le p
  rw [Nat.toUInt64, UInt64.toNat_ofNat', Nat.mod_eq_of_lt (by omega)]

theorem toNat_u32 (v : Value) : v.u32.toNat = v.lo.toNat % 2 ^ 32 := UInt64.toNat_toUInt32 v.lo

theorem toInt_toInt8 (w : UInt8) : w.toInt8.toInt = signed 8 w.toNat :=
  (signed_toNat w.toBitVec).symm

theorem toInt_toInt16 (w : UInt16) : w.toInt16.toInt = signed 16 w.toNat :=
  (signed_toNat w.toBitVec).symm

theorem evalI32_unary {m : Mnemonic} {n : Nat} {v : Value} (b : UInt32)
    (hop : ⟨.i32, m⟩ ∈ NumericOp.table.toList)
    (hv : v.lo.toNat < 2 ^ width (m.source?.getD .i32))
    (h : unary 32 m v.lo.toNat = some n) : evalI32 m v v.u32 b = operated .i32 (.ok n) := by
  have hu32 := toNat_u32 v
  cases m <;> cases h
  case extendI32U => exact absurd hop (by decide +kernel)
  case extendI32S => exact absurd hop (by decide +kernel)
  case extend32S => exact absurd hop (by decide +kernel)
  case wrapI64 => exact operated_i32 hu32
  all_goals
    replace hv : v.lo.toNat < 2 ^ 32 := hv
    rw [Nat.mod_eq_of_lt hv] at hu32
    rw [← hu32] at hv ⊢
  case eqz =>
      refine operated_bool ?_
      rw [Bool.eq_iff_iff, beq_iff_eq, decide_eq_true_eq, ← UInt32.toNat_inj]
      rfl
  case clz =>
      refine operated_i32 ?_
      rw [Bits.clz32, leadingZeros_eq hv, toNat_toUInt32_count]
  case ctz =>
      refine operated_i32 ?_
      rw [Bits.ctz32, trailingZeros_eq, toNat_toUInt32_count]
  case popcnt =>
      refine operated_i32 ?_
      rw [Bits.popcnt32, oneBits_eq, toNat_toUInt32_count]
  case extend8S =>
      refine operated_i32 ?_
      rw [toNat_toUInt32, Int8.toInt_toInt32, toInt_toInt8, UInt32.toNat_toUInt8]
  case extend16S =>
      refine operated_i32 ?_
      rw [toNat_toUInt32, Int16.toInt_toInt32, toInt_toInt16, UInt32.toNat_toUInt16]

theorem evalI64_unary {m : Mnemonic} {n : Nat} {v : Value} (b : UInt64)
    (hop : ⟨.i64, m⟩ ∈ NumericOp.table.toList)
    (hv : v.lo.toNat < 2 ^ width (m.source?.getD .i64))
    (h : unary 64 m v.lo.toNat = some n) :
    evalI64 m v v.lo b = operated (if m = .eqz then .i32 else .i64) (.ok n) := by
  cases m <;> cases h
  case wrapI64 => exact absurd hop (by decide +kernel)
  case eqz =>
      refine operated_bool ?_
      rw [Bool.eq_iff_iff, beq_iff_eq, decide_eq_true_eq, ← UInt64.toNat_inj]
      rfl
  case clz =>
      refine operated_i64 ?_
      rw [Bits.clz64, leadingZeros_eq v.lo.toNat_lt, toNat_toUInt64_count]
  case ctz =>
      refine operated_i64 ?_
      rw [Bits.ctz64, trailingZeros_eq, toNat_toUInt64_count]
  case popcnt =>
      refine operated_i64 ?_
      rw [Bits.popcnt64, oneBits_eq, toNat_toUInt64_count]
  case extendI32U =>
      refine operated_i64 ?_
      rw [UInt32.toNat_toUInt64, UInt64.toNat_toUInt32]
      exact Nat.mod_eq_of_lt hv
  case extendI32S =>
      replace hv : v.lo.toNat % 2 ^ 32 = v.lo.toNat := Nat.mod_eq_of_lt hv
      refine operated_i64 ?_
      rw [toNat_toUInt64, Int32.toInt_toInt64, WordPair.toInt_toInt32, UInt64.toNat_toUInt32, hv]
  case extend8S =>
      refine operated_i64 ?_
      rw [toNat_toUInt64, Int8.toInt_toInt64, toInt_toInt8, UInt64.toNat_toUInt8]
  case extend16S =>
      refine operated_i64 ?_
      rw [toNat_toUInt64, Int16.toInt_toInt64, toInt_toInt16, UInt64.toNat_toUInt16]
  case extend32S =>
      refine operated_i64 ?_
      rw [toNat_toUInt64, Int32.toInt_toInt64, WordPair.toInt_toInt32, UInt64.toNat_toUInt32]

/-! ## Instructions by name -/

end Integer

/-- The instruction neither takes nor gives a float. -/
structure NumericOp.IsInteger (op : NumericOp) : Prop where
  mem : op ∈ NumericOp.table.toList
  type : op.type = .i32 ∨ op.type = .i64
  params : ∀ t ∈ op.signature.params, t = .i32 ∨ t = .i64

namespace Integer

/-- What an instruction on integers takes and gives. -/
inductive Form (op : NumericOp) : Prop
  | unary
      (signature : op.signature = ⟨[op.mnemonic.source?.getD op.type],
        [if op.mnemonic = .eqz then .i32 else op.type]⟩)
      (known : (unary (width op.type) op.mnemonic 0).isSome = true)
  | binary
      (signature : op.signature = ⟨[op.type, op.type],
        [if op.mnemonic.isComparison then .i32 else op.type]⟩)
      (known : (binary (width op.type) op.mnemonic 0 0).isSome = true)

theorem form_of_isInteger {op : NumericOp} (hop : op.IsInteger) : Form op := by
  have hall : ∀ op ∈ NumericOp.table.toList, (op.type = .i32 ∨ op.type = .i64) →
      (∀ t ∈ op.signature.params, t = .i32 ∨ t = .i64) →
      (op.signature = ⟨[op.mnemonic.source?.getD op.type],
          [if op.mnemonic = .eqz then .i32 else op.type]⟩
        ∧ (unary (width op.type) op.mnemonic 0).isSome = true)
      ∨ (op.signature = ⟨[op.type, op.type],
          [if op.mnemonic.isComparison then .i32 else op.type]⟩
        ∧ (binary (width op.type) op.mnemonic 0 0).isSome = true) := by
    decide +kernel
  rcases hall op hop.mem hop.type hop.params with ⟨hsig, hknown⟩ | ⟨hsig, hknown⟩
  · exact .unary hsig hknown
  · exact .binary hsig hknown

/-- Whether an instruction has a meaning does not depend on its operands. -/
theorem exists_unary {N : Nat} {m : Mnemonic} (h : (unary N m 0).isSome = true) (a : Nat) :
    ∃ n, unary N m a = some n := by
  have heq : (unary N m a).isSome = (unary N m 0).isSome := by cases m <;> rfl
  exact Option.isSome_iff_exists.mp (heq.trans h)

theorem exists_binary {N : Nat} {m : Mnemonic} (h : (binary N m 0 0).isSome = true)
    (a b : Nat) : ∃ r, binary N m a b = some r := by
  have heq : (binary N m a b).isSome = (binary N m 0 0).isSome := by cases m <;> rfl
  exact Option.isSome_iff_exists.mp (heq.trans h)

/-- The value is a number of the type. -/
def Within (t : ValueType) (v : Value) : Prop := v.lo.toNat < 2 ^ width t

theorem evalTyped_unary (l : Layout) {op : NumericOp} (hop : op.IsInteger) {v : Value}
    (w : Value) (hv : Within (op.mnemonic.source?.getD op.type) v) {n : Nat}
    (h : unary (width op.type) op.mnemonic v.lo.toNat = some n) :
    evalTyped l op.type op.mnemonic v w
      = operated (if op.mnemonic = .eqz then .i32 else op.type) (.ok n) := by
  have hmem := hop.mem
  have htype := hop.type
  obtain ⟨t, m⟩ := op
  rcases htype with rfl | rfl
  · rw [evalTyped, evalI32_unary w.u32 hmem hv h, ite_self]
  · exact evalI64_unary w.lo hmem hv h

theorem evalTyped_binary (l : Layout) {op : NumericOp} (hop : op.IsInteger) {v w : Value}
    (hv : Within op.type v) (hw : Within op.type w) {r : Except TrapCode Nat}
    (h : binary (width op.type) op.mnemonic v.lo.toNat w.lo.toNat = some r) :
    evalTyped l op.type op.mnemonic v w
      = operated (if op.mnemonic.isComparison then .i32 else op.type) r := by
  have htype := hop.type
  obtain ⟨t, m⟩ := op
  rcases htype with rfl | rfl
  · have hlow (x : Value) (hx : Within .i32 x) : x.u32.toNat = x.lo.toNat := by
      rw [toNat_u32]; exact Nat.mod_eq_of_lt hx
    rw [← hlow v hv, ← hlow w hw] at h
    rw [evalTyped, evalI32_binary v v.u32 w.u32 h, ite_self]
  · exact evalI64_binary v v.lo w.lo h

/-- How an instruction ends whose meaning is given. -/
def ending (t : ValueType) (r : Except TrapCode Nat) : Except Stop Value :=
  (r.map (value t)).mapError .trap

/-- An integer instruction is evaluated to what it means. -/
theorem evalNumeric_means (l : Layout) {op : NumericOp} (hop : op.IsInteger)
    {values : List Value} (hvalues : List.Forall₂ Within op.signature.params values) :
    ∃ r, denote op (values.map (·.lo.toNat)) = some r
      ∧ evalNumeric l op.name values = ending (op.signature.results.headD .i32) r := by
  have hlen := hvalues.length_eq.symm
  cases form_of_isInteger hop with
  | unary hsig hknown =>
      rw [hsig] at hvalues
      cases hvalues with
      | @cons _ v _ rest hv hrest =>
          cases hrest
          obtain ⟨n, hn⟩ := exists_unary hknown v.lo.toNat
          refine ⟨.ok n, by rw [List.map_singleton, denote, hn]; rfl, ?_⟩
          rw [hsig]
          exact evalNumeric_eq l hop.mem hlen (evalTyped_unary l hop _ hv hn)
  | binary hsig hknown =>
      rw [hsig] at hvalues
      cases hvalues with
      | @cons _ v _ rest hv hrest =>
          cases hrest with
          | @cons _ w _ rest hw hrest =>
              cases hrest
              obtain ⟨r, hr⟩ := exists_binary hknown v.lo.toNat w.lo.toNat
              refine ⟨r, hr, ?_⟩
              rw [hsig]
              exact evalNumeric_eq l hop.mem hlen (evalTyped_binary l hop hv hw hr)

end Integer

end WasmShader
