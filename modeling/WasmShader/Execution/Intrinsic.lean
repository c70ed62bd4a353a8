import WasmShader.Binary.Opcode
import WasmShader.Execution.Datum
import WasmShader.Text.Quoted
import WasmShader.Text.Utf8
import WasmShader.Value.Bits
import WasmShader.Value.Rounding

/-!
# Numeric operations of the backend

The numeric WebAssembly instructions, evaluated by name on values. Integer
division and conversions from floats trap where WebAssembly says so. 64-bit
floats that the hardware does not have are added, subtracted, multiplied and
divided as triples.
-/

namespace WasmShader.Execution

/-- The result of an operation that may trap; none if there is no such
operation. -/
abbrev Operated := Option (Except TrapCode Value)

namespace Operated

def value (v : Value) : Operated := some (.ok v)

def i32 (v : UInt32) : Operated := value (.ofU32 v)

def i64 (v : UInt64) : Operated := value (.ofU64 v)

def bool (b : Bool) : Operated := value (.ofBool b)

def f32 (x : Float32) : Operated := value (.ofFloat32 x)

def f64 (x : Float) : Operated := value (.ofFloat x)

def trap (code : TrapCode) : Operated := some (.error code)

end Operated

/-- A number rounded toward zero, as a 32-bit integer. -/
def truncToI32 (x : Float) (signed : Bool) : Operated :=
  let t := Rounding.truncate x
  if x.isNaN then .trap .invalidConversion
  else if signed then
    if t < -2147483648.0 || t > 2147483647.0 then .trap .intOverflow else .i32 t.toInt32.toUInt32
  else if t < 0 || t > 4294967295.0 then .trap .intOverflow
  else .i32 t.toUInt32

def truncToI64 (x : Float) (signed : Bool) : Operated :=
  let t := Rounding.truncate x
  if x.isNaN then .trap .invalidConversion
  else if signed then
    if t < -9223372036854775808.0 || t ≥ 9223372036854775808.0 then .trap .intOverflow
    else .i64 t.toInt64.toUInt64
  else if t < 0 || t ≥ 18446744073709551616.0 then .trap .intOverflow
  else .i64 t.toUInt64

/-- An operation on 32-bit integers. Conversions read the operand `v` itself. -/
def evalI32 (m : Mnemonic) (v : Value) (a b : UInt32) : Operated :=
  let sa := a.toInt32
  let sb := b.toInt32
  match m with
  | .eqz => .bool (a == 0)
  | .eq => .bool (a == b)
  | .ne => .bool (a != b)
  | .ltS => .bool (sa < sb)
  | .ltU => .bool (a < b)
  | .gtS => .bool (sb < sa)
  | .gtU => .bool (b < a)
  | .leS => .bool (sa ≤ sb)
  | .leU => .bool (a ≤ b)
  | .geS => .bool (sb ≤ sa)
  | .geU => .bool (b ≤ a)
  | .clz => .i32 (Bits.clz32 a)
  | .ctz => .i32 (Bits.ctz32 a)
  | .popcnt => .i32 (Bits.popcnt32 a)
  | .add => .i32 (a + b)
  | .sub => .i32 (a - b)
  | .mul => .i32 (a * b)
  | .divS =>
    if b = 0 then .trap .divByZero
    else if sa = Int32.minValue && sb = -1 then .trap .intOverflow
    else .i32 (sa / sb).toUInt32
  | .divU => if b = 0 then .trap .divByZero else .i32 (a / b)
  | .remS =>
    if b = 0 then .trap .divByZero
    else if sb = -1 then .i32 0
    else .i32 (sa % sb).toUInt32
  | .remU => if b = 0 then .trap .divByZero else .i32 (a % b)
  | .and => .i32 (a &&& b)
  | .or => .i32 (a ||| b)
  | .xor => .i32 (a ^^^ b)
  | .shl => .i32 (a <<< (b &&& 31))
  | .shrS => .i32 (sa >>> (sb &&& 31)).toUInt32
  | .shrU => .i32 (a >>> (b &&& 31))
  | .rotl => .i32 (Bits.rotl32 a b)
  | .rotr => .i32 (Bits.rotr32 a b)
  | .wrapI64 | .reinterpretF32 => .i32 a
  | .truncF32S => truncToI32 v.float32.toFloat true
  | .truncF32U => truncToI32 v.float32.toFloat false
  | .truncF64S => truncToI32 v.float64 true
  | .truncF64U => truncToI32 v.float64 false
  | .extend8S => .i32 a.toUInt8.toInt8.toInt32.toUInt32
  | .extend16S => .i32 a.toUInt16.toInt16.toInt32.toUInt32
  | _ => none

def evalI64 (m : Mnemonic) (v : Value) (a b : UInt64) : Operated :=
  let sa := a.toInt64
  let sb := b.toInt64
  let wa := WordPair.split a
  let wb := WordPair.split b
  match m with
  | .eqz => .bool (a == 0)
  | .eq => .bool (a == b)
  | .ne => .bool (a != b)
  | .ltS => .bool (WordPair.less true wa wb)
  | .ltU => .bool (WordPair.less false wa wb)
  | .gtS => .bool (WordPair.less true wb wa)
  | .gtU => .bool (WordPair.less false wb wa)
  | .leS => .bool (!WordPair.less true wb wa)
  | .leU => .bool (!WordPair.less false wb wa)
  | .geS => .bool (!WordPair.less true wa wb)
  | .geU => .bool (!WordPair.less false wa wb)
  | .clz => .i64 (Bits.clz64 a)
  | .ctz => .i64 (Bits.ctz64 a)
  | .popcnt => .i64 (Bits.popcnt64 a)
  | .add => .i64 (wa.add wb).join
  | .sub => .i64 (wa.sub wb).join
  | .mul => .i64 (a * b)
  | .divS =>
    if b = 0 then .trap .divByZero
    else if sa = Int64.minValue && sb = -1 then .trap .intOverflow
    else .i64 (sa / sb).toUInt64
  | .divU => if b = 0 then .trap .divByZero else .i64 (a / b)
  | .remS =>
    if b = 0 then .trap .divByZero
    else if sb = -1 then .i64 0
    else .i64 (sa % sb).toUInt64
  | .remU => if b = 0 then .trap .divByZero else .i64 (a % b)
  | .and => .i64 (a &&& b)
  | .or => .i64 (a ||| b)
  | .xor => .i64 (a ^^^ b)
  | .shl => .i64 (a <<< (b &&& 63))
  | .shrS => .i64 (sa >>> (sb &&& 63)).toUInt64
  | .shrU => .i64 (a >>> (b &&& 63))
  | .rotl => .i64 (Bits.rotl64 a b)
  | .rotr => .i64 (Bits.rotr64 a b)
  | .extendI32S | .extend32S => .i64 a.toUInt32.toInt32.toInt64.toUInt64
  | .extendI32U => .i64 a.toUInt32.toUInt64
  | .truncF32S => truncToI64 v.float32.toFloat true
  | .truncF32U => truncToI64 v.float32.toFloat false
  | .truncF64S => truncToI64 v.float64 true
  | .truncF64U => truncToI64 v.float64 false
  | .reinterpretF64 => .i64 a
  | .extend8S => .i64 a.toUInt8.toInt8.toInt64.toUInt64
  | .extend16S => .i64 a.toUInt16.toInt16.toInt64.toUInt64
  | _ => none

/-- A 32-bit float from a computation on 64-bit floats. -/
def narrow (x : Float) : Operated := .f32 x.toFloat32

/-- An operation on 32-bit floats. The second operand is `y`; its sign is taken
from the pattern `sign`. -/
def evalF32 (m : Mnemonic) (v : Value) (y : Float32) (sign : UInt32) : Operated :=
  let x := v.float32
  let wide := x.toFloat
  let bits := v.u32
  let signBit : UInt32 := 0x80000000
  match m with
  | .eq => .bool (x == y)
  | .ne => .bool (x != y)
  | .lt => .bool (x < y)
  | .gt => .bool (y < x)
  | .le => .bool (x ≤ y)
  | .ge => .bool (y ≤ x)
  | .abs => .value (.ofBits32 (bits &&& ~~~signBit))
  | .neg => .value (.ofBits32 (bits ^^^ signBit))
  | .ceil => narrow wide.ceil
  | .floor => narrow wide.floor
  | .trunc => narrow (Rounding.truncate wide)
  | .nearest => narrow (Rounding.nearestEven wide)
  | .sqrt => narrow wide.sqrt
  | .add => .f32 (x + y)
  | .sub => .f32 (x - y)
  | .mul => .f32 (x * y)
  | .div => .f32 (x / y)
  | .min => narrow (Rounding.minimum wide y.toFloat)
  | .max => narrow (Rounding.maximum wide y.toFloat)
  | .copysign => .value (.ofBits32 ((bits &&& ~~~signBit) ||| (sign &&& signBit)))
  | .convertI32S => .f32 bits.toInt32.toFloat32
  | .convertI32U => .f32 bits.toFloat32
  | .convertI64S => .f32 v.lo.toInt64.toFloat32
  | .convertI64U => .f32 v.lo.toFloat32
  | .demoteF64 => narrow v.float64
  | .reinterpretI32 => .value (.ofBits32 bits)
  | _ => none

/-- Arithmetic on triples. -/
def emulated (op : Triple → Triple → Triple) (x y : Float) : Operated :=
  .f64 (op (.ofFloat x) (.ofFloat y)).toFloat

/-- Arithmetic on 64-bit floats, on triples where the hardware has none. -/
def evalArith (l : Layout) (m : Mnemonic) (x y : Float) : Operated :=
  match m with
  | .add => if l.nativeF64 then .f64 (x + y) else emulated .add x y
  | .sub => if l.nativeF64 then .f64 (x - y) else emulated .sub x y
  | .mul => if l.nativeF64 then .f64 (x * y) else emulated .mul x y
  | .div => if l.nativeF64 then .f64 (x / y) else emulated .div x y
  | _ => none

/-- A minimum or maximum of 64-bit floats: one certain NaN if either is a NaN. Which NaN another
operation gives is left to the hardware, and is the one without a payload here. -/
def extreme (of : Float → Float → Float) (x y : Float) : Operated :=
  if x.isNaN || y.isNaN then .value (.ofBits64 0x7ff8000000000001) else .f64 (of x y)

def evalF64 (l : Layout) (m : Mnemonic) (v : Value) (y : Float) (sign : UInt64) : Operated :=
  let x := v.float64
  let signBit : UInt64 := 0x8000000000000000
  match m with
  | .eq => .bool (x == y)
  | .ne => .bool (x != y)
  | .lt => .bool (x < y)
  | .gt => .bool (y < x)
  | .le => .bool (x ≤ y)
  | .ge => .bool (y ≤ x)
  | .abs => .value (.ofBits64 (v.lo &&& ~~~signBit))
  | .neg => .value (.ofBits64 (v.lo ^^^ signBit))
  | .ceil => .f64 x.ceil
  | .floor => .f64 x.floor
  | .trunc => .f64 (Rounding.truncate x)
  | .nearest => .f64 (Rounding.nearestEven x)
  | .sqrt => .f64 x.sqrt
  | .add | .sub | .mul | .div => evalArith l m x y
  | .min => extreme Rounding.minimum x y
  | .max => extreme Rounding.maximum x y
  | .copysign => .value (.ofBits64 ((v.lo &&& ~~~signBit) ||| (sign &&& signBit)))
  | .convertI32S => .f64 v.u32.toInt32.toFloat
  | .convertI32U => .f64 v.u32.toFloat
  | .convertI64S => .f64 v.lo.toInt64.toFloat
  | .convertI64U => .f64 v.lo.toFloat
  | .promoteF32 => .f64 v.float32.toFloat
  | .reinterpretI64 => .value (.ofBits64 v.lo)
  | _ => none

/-- The types that operations are named for. -/
def operandType? : String → Option ValueType
  | "i32" => some .i32
  | "i64" => some .i64
  | "f32" => some .f32
  | "f64" => some .f64
  | _ => none

/-- An operation of a type on its operands. A second operand that is not there
counts as zero. -/
def evalTyped (l : Layout) (t : ValueType) (m : Mnemonic) (v w : Value) : Operated :=
  match t with
  | .i32 => evalI32 m v v.u32 w.u32
  | .i64 => evalI64 m v v.lo w.lo
  | .f32 => evalF32 m v w.float32 w.u32
  | .f64 => evalF64 l m v w.float64 w.lo
  | .v128 | .reserved _ => none

/-- Evaluates a numeric operation by name: three characters of type, one that is
passed over, and the mnemonic. -/
def evalNumeric (l : Layout) (name : String) (args : List Value) : Except Stop Value := do
  let bytes := name.toUTF8.toList
  if bytes.length < 3 then throw .crash
  match operandType? (Text.ofBytes (bytes.take 3)) with
  | none => throw (.fault ("unknown numeric op " ++ Text.quote name))
  | some t =>
    if bytes.length < 4 then throw .crash
    let op := Text.ofBytes (bytes.drop 4)
    match args with
    | [] => throw .crash
    | v :: rest =>
      let m := Mnemonic.ofName? op
      if m = some .copysign && (t = .f32 || t = .f64) && rest.isEmpty then throw .crash
      match m.bind fun m => evalTyped l t m v (rest.headD (.zero t)) with
      | some (.ok r) => return r
      | some (.error code) => throw (.trap code)
      | none => throw (.fault ("unknown op " ++ t.name ++ "." ++ op))

end WasmShader.Execution
