import WasmShader.Text.Shortest
import WasmShader.Value.Type

/-!
# Values

A WebAssembly value is its raw bit pattern together with its type. The low word
holds the whole of a scalar and the lower half of a vector. Floating-point
arithmetic goes through the pattern, so moving a value never changes a NaN.
-/

namespace WasmShader

/-- A value: 128 bits in two halves, and a type. -/
structure Value where
  type : ValueType
  lo : UInt64
  hi : UInt64 := 0
  deriving DecidableEq, Repr, Inhabited

namespace Value

def ofI32 (v : Int32) : Value := ⟨.i32, v.toUInt32.toUInt64, 0⟩

def ofI64 (v : Int64) : Value := ⟨.i64, v.toUInt64, 0⟩

/-- The 32-bit integer with the pattern `v`. -/
def ofU32 (v : UInt32) : Value := ⟨.i32, v.toUInt64, 0⟩

/-- The 64-bit integer with the pattern `v`. -/
def ofU64 (v : UInt64) : Value := ⟨.i64, v, 0⟩

/-- The 32-bit float with the pattern `bits`. -/
def ofBits32 (bits : UInt32) : Value := ⟨.f32, bits.toUInt64, 0⟩

/-- The 64-bit float with the pattern `bits`. -/
def ofBits64 (bits : UInt64) : Value := ⟨.f64, bits, 0⟩

def ofFloat32 (x : Float32) : Value := ofBits32 x.toBits

def ofFloat (x : Float) : Value := ofBits64 x.toBits

def ofV128 (lo hi : UInt64) : Value := ⟨.v128, lo, hi⟩

def ofBool (b : Bool) : Value := ofU32 (if b then 1 else 0)

def zero (type : ValueType) : Value := ⟨type, 0, 0⟩

def u32 (v : Value) : UInt32 := v.lo.toUInt32

def float32 (v : Value) : Float32 := Float32.ofBits v.u32

def float64 (v : Value) : Float := Float.ofBits v.lo

/-- The text of a value: its type and its number, a vector in hexadecimal. -/
def text (v : Value) : String :=
  match v.type with
  | .i32 => "i32:" ++ toString v.u32.toInt32.toInt
  | .i64 => "i64:" ++ toString v.lo.toInt64.toInt
  | .f32 => "f32:" ++ Text.floatText .binary32 v.u32.toNat
  | .f64 => "f64:" ++ Text.floatText .binary64 v.lo.toNat
  | .v128 | .reserved _ => "v128:" ++ Text.hex 16 v.hi.toNat ++ Text.hex 16 v.lo.toNat

def listText (values : List Value) : String :=
  Text.commaSeparated (values.map text)

end Value

end WasmShader
