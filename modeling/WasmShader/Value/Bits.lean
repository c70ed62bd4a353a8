/-!
# Counting and rotating bits
-/

namespace WasmShader.Bits

/-- The zeros in front of the first one bit of a number of `width` bits. -/
def leadingZeros (width n : Nat) : Nat := if n = 0 then width else width - 1 - n.log2

/-- The zeros behind the last one bit of a number of `width` bits. -/
def trailingZeros : (width n : Nat) → Nat
  | 0, _ => 0
  | width + 1, n => if n % 2 = 1 then 0 else trailingZeros width (n / 2) + 1

/-- The one bits of a number of `width` bits. -/
def oneBits : (width n : Nat) → Nat
  | 0, _ => 0
  | width + 1, n => n % 2 + oneBits width (n / 2)

def clz32 (x : UInt32) : UInt32 := (leadingZeros 32 x.toNat).toUInt32

def ctz32 (x : UInt32) : UInt32 := (trailingZeros 32 x.toNat).toUInt32

def popcnt32 (x : UInt32) : UInt32 := (oneBits 32 x.toNat).toUInt32

def clz64 (x : UInt64) : UInt64 := (leadingZeros 64 x.toNat).toUInt64

def ctz64 (x : UInt64) : UInt64 := (trailingZeros 64 x.toNat).toUInt64

def popcnt64 (x : UInt64) : UInt64 := (oneBits 64 x.toNat).toUInt64

/-- Shifts and rotations take their amount modulo the width. -/
def rotl32 (x n : UInt32) : UInt32 := (x <<< n) ||| (x >>> (32 - n % 32))

def rotr32 (x n : UInt32) : UInt32 := (x >>> n) ||| (x <<< (32 - n % 32))

def rotl64 (x n : UInt64) : UInt64 := (x <<< n) ||| (x >>> (64 - n % 64))

def rotr64 (x n : UInt64) : UInt64 := (x >>> n) ||| (x <<< (64 - n % 64))

end WasmShader.Bits
