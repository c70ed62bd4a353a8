import WasmShader.Execution.Datum
import WasmShader.Shader.Expr
import WasmShader.Value.Bits
import WasmShader.Value.Rounding

/-!
# Shader operators

What operators and conversions compute. The type of the left operand decides;
integer division by zero and the one signed quotient without a representation
have a result, as in the shading language.
-/

namespace WasmShader.Execution

open Shader

/-- An operator on truth values. -/
def boolBinary (op : BinaryOp) (a b : Bool) : Option Datum :=
  match op with
  | .logicalAnd => some (.ofBool (a && b))
  | .logicalOr => some (.ofBool (a || b))
  | .eq => some (.ofBool (a == b))
  | .ne => some (.ofBool (a != b))
  | _ => none

def u32Binary (op : BinaryOp) (a b : UInt32) : Option Datum :=
  match op with
  | .add => some (.ofU32 (a + b))
  | .sub => some (.ofU32 (a - b))
  | .mul => some (.ofU32 (a * b))
  | .div => some (.ofU32 (if b = 0 then a else a / b))
  | .rem => some (.ofU32 (if b = 0 then 0 else a % b))
  | .and => some (.ofU32 (a &&& b))
  | .or => some (.ofU32 (a ||| b))
  | .xor => some (.ofU32 (a ^^^ b))
  | .shl => some (.ofU32 (a <<< (b &&& 31)))
  | .shr => some (.ofU32 (a >>> (b &&& 31)))
  | .eq => some (.ofBool (a == b))
  | .ne => some (.ofBool (a != b))
  | .lt => some (.ofBool (a < b))
  | .le => some (.ofBool (a ≤ b))
  | .gt => some (.ofBool (b < a))
  | .ge => some (.ofBool (b ≤ a))
  | .logicalAnd | .logicalOr => none

def i32Binary (op : BinaryOp) (a b : Int32) : Option Datum :=
  match op with
  | .add => some (.ofI32 (a + b))
  | .sub => some (.ofI32 (a - b))
  | .mul => some (.ofI32 (a * b))
  | .div => some (.ofI32 (if b = 0 || (a = Int32.minValue && b = -1) then a else a / b))
  | .rem => some (.ofI32 (if b = 0 || b = -1 then 0 else a % b))
  | .shl => some (.ofI32 (a <<< (b &&& 31)))
  | .shr => some (.ofI32 (a >>> (b &&& 31)))
  | .eq => some (.ofBool (a == b))
  | .ne => some (.ofBool (a != b))
  | .lt => some (.ofBool (a < b))
  | .le => some (.ofBool (a ≤ b))
  | .gt => some (.ofBool (b < a))
  | .ge => some (.ofBool (b ≤ a))
  | .and | .or | .xor | .logicalAnd | .logicalOr => none

def f32Binary (op : BinaryOp) (a b : Float32) : Option Datum :=
  match op with
  | .add => some (.ofFloat32 (a + b))
  | .sub => some (.ofFloat32 (a - b))
  | .mul => some (.ofFloat32 (a * b))
  | .div => some (.ofFloat32 (a / b))
  | .eq => some (.ofBool (a == b))
  | .ne => some (.ofBool (a != b))
  | .lt => some (.ofBool (a < b))
  | .le => some (.ofBool (a ≤ b))
  | .gt => some (.ofBool (b < a))
  | .ge => some (.ofBool (b ≤ a))
  | _ => none

def f64Binary (op : BinaryOp) (a b : Float) : Option Datum :=
  match op with
  | .add => some (.ofFloat (a + b))
  | .sub => some (.ofFloat (a - b))
  | .mul => some (.ofFloat (a * b))
  | .div => some (.ofFloat (a / b))
  | .eq => some (.ofBool (a == b))
  | .ne => some (.ofBool (a != b))
  | .lt => some (.ofBool (a < b))
  | .le => some (.ofBool (a ≤ b))
  | .gt => some (.ofBool (b < a))
  | .ge => some (.ofBool (b ≤ a))
  | _ => none

def binary (op : BinaryOp) (l r : Datum) : Except Stop Datum :=
  let result :=
    match l.type with
    | .bool => boolBinary op l.truth r.truth
    | .u32 => u32Binary op l.x r.x
    | .i32 => i32Binary op l.x.toInt32 r.x.toInt32
    | .f32 => f32Binary op l.float32 r.float32
    | .f64 => f64Binary op l.float64 r.float64
    | .vec2 | .vec3 | .vec4 => none
  match result with
  | some d => .ok d
  | none => .error (.fault ("binary " ++ op.symbol ++ " on " ++ l.type.name))

/-- A unary operator on the pattern of an integer. -/
def intUnary (op : UnaryOp) (a : UInt32) : Option UInt32 :=
  match op with
  | .not => some (~~~a)
  | .neg => some (0 - a)
  | .clz => some (Bits.clz32 a)
  | .ctz => some (Bits.ctz32 a)
  | .popcnt => some (Bits.popcnt32 a)
  | _ => none

/-- A unary operator that rounds, or takes a root. -/
def floatUnary (op : UnaryOp) (a : Float) : Option Float :=
  match op with
  | .ceil => some a.ceil
  | .floor => some a.floor
  | .trunc => some (Rounding.truncate a)
  | .nearest => some (Rounding.nearestEven a)
  | .sqrt => some a.sqrt
  | _ => none

def signWord : UInt32 := 0x80000000

/-- The result of a unary operator. The sign of a float is changed in its
pattern. -/
def unary (op : UnaryOp) (d : Datum) : Except Stop Datum :=
  let result : Option Datum :=
    match d.type, op with
    | .bool, .not => some (.ofBool (!d.truth))
    | .u32, _ | .i32, _ => (intUnary op d.x).map fun r => { type := d.type, x := r }
    | .f32, .neg => some { type := .f32, x := d.x ^^^ signWord }
    | .f32, .abs => some { type := .f32, x := d.x &&& ~~~signWord }
    | .f32, _ => (floatUnary op d.float32.toFloat).map fun r => .ofFloat32 r.toFloat32
    | .f64, .neg => some { d with y := d.y ^^^ signWord }
    | .f64, .abs => some { d with y := d.y &&& ~~~signWord }
    | .f64, _ => (floatUnary op d.float64).map .ofFloat
    | _, _ => none
  match result with
  | some r => .ok r
  | none => .error (.fault ("unary " ++ op.name ++ " on " ++ d.type.name))

/-- The number that a scalar stands for. -/
def number? (d : Datum) : Option Float :=
  match d.type with
  | .bool | .u32 => some d.x.toFloat
  | .i32 => some d.x.toInt32.toFloat
  | .f32 => some d.float32.toFloat
  | .f64 => some d.float64
  | .vec2 | .vec3 | .vec4 => none

/-- The result of a conversion to another scalar type. -/
def convert (d : Datum) (t : Ty) : Except Stop Datum :=
  match number? d, t with
  | some f, .f32 => .ok (.ofFloat32 f.toFloat32)
  | some f, .f64 => .ok (.ofFloat f)
  | some _, .u32 =>
    if d.type = .bool || d.type = .u32 then .ok (.ofU32 d.x) else .error unsupported
  | _, _ => .error unsupported
where
  unsupported : Stop := .fault ("convert " ++ d.type.name ++ " to " ++ t.name)

end WasmShader.Execution
