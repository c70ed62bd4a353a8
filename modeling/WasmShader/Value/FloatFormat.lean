/-!
# Binary floating-point formats

A format is fixed by its precision and by its smallest exponent. Every finite
number of it is `m * 2 ^ e` with `m` below two to the power of the precision,
and its bit pattern is `(e - minExp) * 2 ^ (precision - 1) + m`: that one
formula covers normal and subnormal numbers, and a rounding that carries into
the next power of two needs no case of its own.
-/

namespace WasmShader

/-- A binary floating-point format. -/
structure FloatFormat where
  /-- The bits of a normal number's significand, its leading one included. -/
  precision : Nat
  /-- The exponent of the least subnormal number. -/
  minExp : Int
  /-- The pattern of positive infinity. -/
  infinity : Nat

namespace FloatFormat

def binary32 : FloatFormat := ⟨24, -149, 0x7f800000⟩

def binary64 : FloatFormat := ⟨53, -1074, 0x7ff0000000000000⟩

/-- The pattern of the NaN that is named in texts. It is quiet and has the least
payload of the 64-bit format, which the 32-bit format has no room for. -/
def nan (f : FloatFormat) : Nat :=
  if f.precision = 24 then 0x7fc00000 else 0x7ff8000000000001

/-- The pattern of a sign bit standing alone. -/
def signBit (f : FloatFormat) : Nat :=
  if f.precision = 24 then 0x80000000 else 0x8000000000000000

/-- A pattern without its sign. -/
def magnitude (f : FloatFormat) (bits : Nat) : Nat :=
  bits % f.signBit

def isNegative (f : FloatFormat) (bits : Nat) : Bool :=
  f.signBit ≤ bits

def isNaN (f : FloatFormat) (bits : Nat) : Bool :=
  f.infinity < f.magnitude bits

def isInfinite (f : FloatFormat) (bits : Nat) : Bool :=
  f.magnitude bits = f.infinity

/-- The significand and exponent of a finite pattern without sign. -/
def decompose (f : FloatFormat) (bits : Nat) : Nat × Int :=
  let half := 1 <<< (f.precision - 1)
  let biased := bits / half
  if biased = 0 then (bits, f.minExp)
  else (bits % half + half, f.minExp + (biased - 1 : Nat))

/-- A quotient rounded to the nearest integer, a half to the even one. -/
def roundDiv (num den : Nat) : Nat :=
  let q := num / den
  let twice := 2 * (num % den)
  if den < twice || (twice = den && q % 2 = 1) then q + 1 else q

/-- The pattern of the number nearest to the quotient `num / den`, ties to the
even significand; infinity where the quotient is too large. -/
def nearest (f : FloatFormat) (num den : Nat) : Nat :=
  if num = 0 || den = 0 then 0
  else
    -- `2 ^ log ≤ num / den < 2 ^ (log + 1)`
    let guess : Int := (num.log2 : Int) - den.log2
    let above : Bool :=
      if 0 ≤ guess then den <<< guess.toNat ≤ num else den ≤ num <<< (-guess).toNat
    let log := if above then guess else guess - 1
    let exp := max f.minExp (log - (f.precision - 1 : Nat))
    let m :=
      if 0 ≤ exp then roundDiv num (den <<< exp.toNat)
      else roundDiv (num <<< (-exp).toNat) den
    min f.infinity (((exp - f.minExp).toNat <<< (f.precision - 1)) + m)

end FloatFormat

end WasmShader
