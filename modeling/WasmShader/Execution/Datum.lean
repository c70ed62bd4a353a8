import WasmShader.Host.Trap
import WasmShader.Shader.Ty

/-!
# Shader values

A value of the running shader: a type and up to four words. A 64-bit float has
its low word first; a truth value is zero or one. The type is what the last
operation gave it, so a value can be read as any type.
-/

namespace WasmShader.Execution

open Shader

structure Datum where
  type : Ty
  x : UInt32 := 0
  y : UInt32 := 0
  z : UInt32 := 0
  w : UInt32 := 0
  deriving DecidableEq, Repr, Inhabited

namespace Datum

def ofU32 (v : UInt32) : Datum := { type := .u32, x := v }

def ofI32 (v : Int32) : Datum := { type := .i32, x := v.toUInt32 }

def ofBool (b : Bool) : Datum := { type := .bool, x := if b then 1 else 0 }

def ofFloat32 (v : Float32) : Datum := { type := .f32, x := v.toBits }

def ofFloat (v : Float) : Datum :=
  let p := WordPair.split v.toBits
  { type := .f64, x := p.lo, y := p.hi }

/-- The value of a type with the given words; missing ones are zero, and a fifth
is dropped. -/
def ofWords (type : Ty) (words : List UInt32) : Datum :=
  ⟨type, words.getD 0 0, words.getD 1 0, words.getD 2 0, words.getD 3 0⟩

def zero (type : Ty) : Datum := { type }

def words (d : Datum) : List UInt32 := [d.x, d.y, d.z, d.w]

def float32 (d : Datum) : Float32 := Float32.ofBits d.x

def float64 (d : Datum) : Float := Float.ofBits (WordPair.join ⟨d.x, d.y⟩)

/-- The truth value that the first word stands for. -/
def truth (d : Datum) : Bool := d.x ≠ 0

/-- One of the four words; a crash for another. -/
def component (d : Datum) (i : Int) : Except Abort UInt32 :=
  match i with
  | 0 => .ok d.x
  | 1 => .ok d.y
  | 2 => .ok d.z
  | 3 => .ok d.w
  | _ => .error .outOfBounds

/-- The value that a shader value carries. -/
def toValue (l : Layout) (t : ValueType) (d : Datum) : Value := l.decode t d.words

/-- The shader value that carries a value. -/
def ofValue (l : Layout) (v : Value) : Datum := ofWords (Ty.carrier l v.type) (l.encode v)

end Datum

/-- Why execution stops before its end. -/
inductive Stop
  | trap (code : TrapCode)
  | abort (cause : Abort)
  /-- The bound on the number of steps of the evaluation was reached. -/
  | outOfFuel
  deriving DecidableEq, Repr, Inhabited

namespace Stop

def fault (message : String) : Stop := .abort (.failed (.plain message))

def crash : Stop := .abort .outOfBounds

end Stop

end WasmShader.Execution
