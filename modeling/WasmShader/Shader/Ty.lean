import WasmShader.Value.Layout

/-!
# Shader types

The types of shader values: truth values, three kinds of 32-bit scalars, 64-bit
floats where the hardware has them, and vectors of two to four words. A
WebAssembly value is carried by the shader type that holds its words.
-/

namespace WasmShader.Shader

/-- The type of a shader value. -/
inductive Ty
  | bool
  | u32
  | i32
  | f32
  | f64
  | vec2
  | vec3
  | vec4
  deriving DecidableEq, Repr, Inhabited

namespace Ty

def name : Ty → String
  | .bool => "bool"
  | .u32 => "u32"
  | .i32 => "i32"
  | .f32 => "f32"
  | .f64 => "f64"
  | .vec2 => "vec2<u32>"
  | .vec3 => "vec3<u32>"
  | .vec4 => "vec4<u32>"

def all : List Ty := [.bool, .u32, .i32, .f32, .f64, .vec2, .vec3, .vec4]

def ofCode? (code : UInt8) : Option Ty := all[code.toNat]?

def ofName? (name : String) : Option Ty := all.find? (·.name == name)

/-- The number of components, one for a scalar. -/
def components : Ty → Nat
  | .vec2 => 2
  | .vec3 => 3
  | .vec4 => 4
  | _ => 1

def isVector (t : Ty) : Bool := 1 < t.components

/-- The number of words of a value. -/
def words : Ty → Nat
  | .f64 => 2
  | t => t.components

/-- The vector with a given number of components. -/
def vectorOf (n : Nat) : Except Abort Ty :=
  match n with
  | 2 => .ok .vec2
  | 3 => .ok .vec3
  | 4 => .ok .vec4
  | _ => .error (.crashed (some ("shader: no u32 vector with " ++ toString n ++ " components")))

/-- The type that carries values of a WebAssembly type. Code asks `carrierOf`, which crashes
on a type without a representation; this is its answer for the others. -/
def carrier (l : Layout) : ValueType → Ty
  | .i32 | .reserved _ => .u32
  | .i64 => .vec2
  | .f32 => .f32
  | .f64 => if l.nativeF64 then .f64 else .vec3
  | .v128 => .vec4

/-- The carrier of a type that has one. -/
def carrierOf (l : Layout) (t : ValueType) : Except Abort Ty :=
  if t.isKnown then .ok (carrier l t)
  else .error (.crashed (some ("shader: unknown value type " ++ toString t.code.toNat)))

/-! ## Types given by number

A number that names no type has a text and counts as a scalar. -/

def codeName (code : UInt8) : String :=
  match ofCode? code with
  | some t => t.name
  | none => "Type(" ++ toString code.toNat ++ ")"

def codeComponents (code : UInt8) : Nat := ((ofCode? code).map components).getD 1

def codeWords (code : UInt8) : Nat := ((ofCode? code).map words).getD 1

end Ty

end WasmShader.Shader
