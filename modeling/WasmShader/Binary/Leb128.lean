import WasmShader.Failure

/-!
# LEB128 numbers

Integers in groups of seven bits, the lowest group first, every byte but the
last with its high bit set. A signed number extends the sign bit of its last
group. Readers stop after the bytes a number of their width can need: five for
32 bits, ten for 64.
-/

namespace WasmShader

abbrev Bytes := List UInt8

/-- Reads a value from the front of some bytes and leaves the rest. -/
abbrev Reader := StateT Bytes (Except Failure)

namespace Reader

def endOfInput : Failure := .plain "EOF"

/-- Fewer bytes are left than a value needs. -/
def endInside : Failure := .plain "unexpected EOF"

def byte : Reader UInt8 := fun
  | [] => .error endOfInput
  | b :: rest => .ok (b, rest)

/-- Takes the `n` bytes of a value of fixed size. -/
def fixed (n : Nat) : Reader Bytes := fun bs =>
  if n ≤ bs.length then .ok (bs.take n, bs.drop n)
  else .error (if bs.isEmpty then endOfInput else endInside)

def take (n : Nat) : Reader Bytes := fun bs =>
  if n ≤ bs.length then .ok (bs.take n, bs.drop n) else .error endInside

def remaining : Reader Nat := fun bs => .ok (bs.length, bs)

/-- Puts a note in front of what a reader reports. -/
def noting (note : String) (r : Reader α) : Reader α := fun bs =>
  (r bs).mapError (.noted note)

end Reader

namespace Leb128

/-- The groups do not fit the wanted width. -/
def overflow : Failure := .plain "leb128: overflow"

/-- Adds up groups from bit `shift` on. The group at bit `last` is the final one
that may be read. Gives the sum, the bit behind the final group and that
group's byte. -/
def groups (last : Nat) : (shift acc : Nat) → Bytes → Except Failure ((Nat × Nat × UInt8) × Bytes)
  | _, _, [] => .error Reader.endOfInput
  | shift, acc, b :: rest =>
    let acc := acc + ((b.toNat % 128) <<< shift)
    if b.toNat < 128 then .ok ((acc, shift + 7, b), rest)
    else if last ≤ shift then .error overflow
    else groups last (shift + 7) acc rest

def readU32 : Reader UInt32 := fun bs => do
  let ((n, _), rest) ← groups 28 0 0 bs
  if 0x100000000 ≤ n then .error overflow else .ok (n.toUInt32, rest)

/-- The signed number that groups denote: from a final group below bit 64 whose
sign bit is set, all higher bits are set too. -/
def signed (n shift : Nat) (final : UInt8) : Int :=
  if shift < 64 && 64 ≤ final.toNat % 128 then (n : Int) - (1 <<< shift : Nat) else n

/-- Reads a signed number of 32 bits. Bits above the 32nd are dropped. -/
def readS32 : Reader Int32 := fun bs => do
  let ((n, shift, final), rest) ← groups 28 0 0 bs
  .ok (Int32.ofInt (signed n shift final), rest)

/-- Reads a signed number of 64 bits. Bits above the 64th are dropped. -/
def readS64 : Reader Int64 := fun bs => do
  let ((n, shift, final), rest) ← groups 63 0 0 bs
  .ok (Int64.ofInt (signed n shift final), rest)

/-- The shortest groups of a number. -/
def writeNat (n : Nat) : Bytes :=
  if n < 128 then [n.toUInt8] else (n % 128 + 128).toUInt8 :: writeNat (n / 128)
termination_by n
decreasing_by omega

/-- Behind the group there are only copies of its sign bit. -/
def isLast (group : Nat) (rest : Int) : Bool :=
  (rest = 0 && !group.testBit 6) || (rest = -1 && group.testBit 6)

theorem isLast_iff (n : Int) : isLast (n % 128).toNat (n / 128) = true ↔ -64 ≤ n ∧ n < 64 := by
  have hbit : (n % 128).toNat.testBit 6 = decide (64 ≤ (n % 128).toNat) := by
    rw [Nat.testBit_eq_decide_div_mod_eq, decide_eq_decide]
    omega
  rw [isLast, hbit]
  simp only [Bool.or_eq_true, Bool.and_eq_true, decide_eq_true_eq, Bool.not_eq_true',
    decide_eq_false_iff_not]
  omega

/-- The shortest groups of a signed number. -/
def writeInt (n : Int) : Bytes :=
  let group := (n % 128).toNat
  if isLast group (n / 128) then [group.toUInt8]
  else (group + 128).toUInt8 :: writeInt (n / 128)
termination_by n.natAbs
decreasing_by
  next h =>
    have := mt (isLast_iff n).mpr h
    omega

def writeU32 (n : UInt32) : Bytes := writeNat n.toNat

def writeS32 (n : Int32) : Bytes := writeInt n.toInt

def writeS64 (n : Int64) : Bytes := writeInt n.toInt

end Leb128

end WasmShader
