import WasmShader.Failure
import WasmShader.Value.Basic

/-!
# Comparing results

Results are compared with those of a reference by their bits. 64-bit floats that
are emulated keep 48 significant bits and may differ by as much.
-/

namespace WasmShader.Session

/-- The relative error that an emulated 64-bit float may have. -/
def tolerance : Float := 1.0 / 70368744177664.0

/-- An emulated number is close enough to a reference. -/
def isClose (a b : Float) : Bool :=
  if a.isNaN && b.isNaN then true
  else if b.isInf || b == 0 then a == b
  else (a - b).abs ≤ tolerance * b.abs

def resultMatches (nativeF64 : Bool) (got want : Value) : Bool :=
  got = want || (got.type = .f64 && !nativeF64 && isClose got.float64 want.float64)

/-- Compares results with a reference and reports the first difference. -/
def compareResults (nativeF64 : Bool) (got want : List Value) : Except Failure Unit :=
  if got.length ≠ want.length then
    .error (.plain (toString got.length ++ " results, reference has " ++ toString want.length))
  else
    match (got.zip want).zipIdx.find? fun ((g, w), _) => !resultMatches nativeF64 g w with
    | none => .ok ()
    | some ((g, w), i) =>
      .error (.plain ("result " ++ toString i ++ ": got " ++ g.text ++ ", reference " ++ w.text))

/-- The 64 bits in which a reference engine exchanges a value. -/
def rawBits (v : Value) : UInt64 := v.lo

/-- The value of a type that 64 exchanged bits stand for. -/
def ofRawBits (t : ValueType) (bits : UInt64) : Value :=
  ⟨t, if t = .i32 || t = .f32 then bits &&& 0xffffffff else bits, 0⟩

end WasmShader.Session
