/-!
# Emulated 64-bit floats

Hardware without 64-bit floats carries one as three words `a`, `b`, `c`: the
number is `(a + b) * 2 ^ c`, with `a` and `b` 32-bit floats and `c` a signed
exponent. In normal form `a` is zero or has exponent zero, and `b` has the sign
of `a` and stands at least 24 binary places below it. Arithmetic goes through
64-bit floats and brings the result back to normal form, which keeps 48
significant bits.

A NaN is moved as a pattern: `a` keeps its sign and the front of its payload,
and it always comes out quiet.
-/

namespace WasmShader

/-- An emulated 64-bit float. `a` and `b` are patterns of 32-bit floats, `c` is
the pattern of a signed integer. -/
structure Triple where
  a : UInt32
  b : UInt32
  c : UInt32
  deriving DecidableEq, Repr, Inhabited

namespace Triple

def words (t : Triple) : List UInt32 := [t.a, t.b, t.c]

/-- The number rounded toward zero to 24 significant bits. -/
def truncate32 (x : Float) : Float32 :=
  (Float.ofBits (x.toBits &&& ~~~(0x1fffffff : UInt64))).toFloat32

/-- The exponent of a signed word. -/
def exponent (t : Triple) : Int := t.c.toInt32.toInt

/-- The triple of a number that has no exponent: a zero, an infinity or NaN. -/
def special (x : Float) : Triple := ⟨x.toFloat32.toBits, 0, 0⟩

/-- The normal form of `x * 2 ^ base`, truncated to 48 significant bits. -/
def normal (x : Float) (base : UInt32) : Triple :=
  if x == 0 || x.isInf || x.isNaN then special x
  else
    let (frac, exp) := x.frExp
    let m := frac * 2
    let a := truncate32 m
    let b := truncate32 (m - a.toFloat)
    ⟨a.toBits, b.toBits, base + (Int32.ofInt (exp - 1)).toUInt32⟩

def ofFloat (x : Float) : Triple := normal x 0

/-- The number before its exponent is applied. -/
def significand (t : Triple) : Float :=
  let b := Float32.ofBits t.b
  let a := (Float32.ofBits t.a).toFloat
  if b != 0 then a + b.toFloat else a

/-- The nearest 64-bit float, an infinity or a zero beyond its range. -/
def toFloat (t : Triple) : Float :=
  t.significand.scaleB t.exponent

/-! ## Patterns -/

def isNaN32 (bits : UInt32) : Bool := 0x7f800000 < bits &&& 0x7fffffff

def isNaN64 (bits : UInt64) : Bool := 0x7ff0000000000000 < bits &&& 0x7fffffffffffffff

/-- A 64-bit NaN as a 32-bit one, with the front of its payload. -/
def narrowNaN (bits : UInt64) : UInt32 :=
  let sign : UInt32 := (bits >>> 32).toUInt32 &&& 0x80000000
  let payload : UInt32 := (bits >>> 29).toUInt32 &&& 0x7fffff
  sign ||| 0x7fc00000 ||| payload

/-- A 32-bit NaN as a 64-bit one. -/
def widenNaN (bits : UInt32) : UInt64 :=
  let sign : UInt64 := (bits &&& 0x80000000).toUInt64 <<< 32
  let payload : UInt64 := (bits &&& 0x7fffff).toUInt64 <<< 29
  sign ||| 0x7ff8000000000000 ||| payload

/-- The NaN that a triple stands for because of one of its words. -/
def nan? (t : Triple) : Option UInt64 :=
  if isNaN32 t.a then some (widenNaN t.a)
  else if isNaN32 t.b then some (widenNaN t.b)
  else none

/-- The normal form of the 64-bit float with a pattern. -/
def ofBits (bits : UInt64) : Triple :=
  if isNaN64 bits then ⟨narrowNaN bits, 0, 0⟩ else ofFloat (Float.ofBits bits)

/-- The pattern of the nearest 64-bit float. -/
def toBits (t : Triple) : UInt64 := t.nan?.getD t.toFloat.toBits

def normalize (t : Triple) : Triple :=
  match t.nan? with
  | some bits => ofBits bits
  | none =>
    let s := t.significand
    if s == 0 then special s else normal s t.c

def isNormalized (t : Triple) : Bool :=
  let a := (Float32.ofBits t.a).toFloat
  let b := (Float32.ofBits t.b).toFloat
  if a == 0 || a.isInf || a.isNaN then b == 0 && t.c == 0
  else if a.frExp.2 ≠ 1 then false
  else if b == 0 then true
  else if (decide (a < 0)) ≠ (decide (b < 0)) then false
  else if b.isInf || b.isNaN then false
  else b.frExp.2 - 1 ≤ -24

def add (x y : Triple) : Triple := ofFloat (x.toFloat + y.toFloat)

def sub (x y : Triple) : Triple := ofFloat (x.toFloat - y.toFloat)

def mul (x y : Triple) : Triple := ofFloat (x.toFloat * y.toFloat)

def div (x y : Triple) : Triple := ofFloat (x.toFloat / y.toFloat)

end Triple

end WasmShader
