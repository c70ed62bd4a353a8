import WasmShader.Emit.Emitter

/-!
# Numeric instructions in the shader

Where the shader language has the operation of a numeric instruction it is
written with it, with checks in front for the operands it must not be given.
64-bit integer sums and differences are functions of the module; everything else
is an operation of the backend.
-/

namespace WasmShader.Emit

open Shader

def i64Add : String := "i64_add"
def i64Sub : String := "i64_sub"

def asI32 (x : Expr) : Expr := .bitcast .i32 x

def asU32 (x : Expr) : Expr := .bitcast .u32 x

def boolToU32 (c : Expr) : Expr := .select c (.u32 1) (.u32 0)

def mask31 (x : Expr) : Expr := .binary .and x (.u32 31)

def trapIf (cond : Expr) (code : TrapCode) : Stmt := .ifElse cond [.trap code.code] []

/-- The operator of a comparison and whether it reads its operands as signed. -/
def comparison? : Mnemonic → Option (BinaryOp × Bool)
  | .eq => some (.eq, false)
  | .ne => some (.ne, false)
  | .lt | .ltU => some (.lt, false)
  | .gt | .gtU => some (.gt, false)
  | .le | .leU => some (.le, false)
  | .ge | .geU => some (.ge, false)
  | .ltS => some (.lt, true)
  | .gtS => some (.gt, true)
  | .leS => some (.le, true)
  | .geS => some (.ge, true)
  | _ => none

/-- The operator of an instruction on one operand. -/
def unary? : Mnemonic → Option UnaryOp
  | .clz => some .clz
  | .ctz => some .ctz
  | .popcnt => some .popcnt
  | .abs => some .abs
  | .neg => some .neg
  | .ceil => some .ceil
  | .floor => some .floor
  | .trunc => some .trunc
  | .nearest => some .nearest
  | .sqrt => some .sqrt
  | _ => none

/-- Checks to run first, and the expression of a result. -/
structure Lowered where
  checks : List Stmt := []
  value : Expr

/-- A 32-bit integer instruction in the shader language. `b` is not used by
instructions on one operand. -/
def lowerI32 (m : Mnemonic) (a b : Expr) : Option Lowered :=
  let pure (x : Expr) : Option Lowered := some { value := x }
  let divCheck : Stmt := trapIf (.binary .eq b (.u32 0)) .divByZero
  match m with
  | .eqz => pure (boolToU32 (.binary .eq a (.u32 0)))
  | .eq | .ne | .ltS | .ltU | .gtS | .gtU | .leS | .leU | .geS | .geU | .lt | .gt | .le | .ge =>
    (comparison? m).map fun (op, signed) =>
      { value := boolToU32 (if signed then .binary op (asI32 a) (asI32 b) else .binary op a b) }
  | .add => pure (.binary .add a b)
  | .sub => pure (.binary .sub a b)
  | .mul => pure (.binary .mul a b)
  | .and => pure (.binary .and a b)
  | .or => pure (.binary .or a b)
  | .xor => pure (.binary .xor a b)
  | .clz | .ctz | .popcnt | .abs | .neg | .ceil | .floor | .trunc | .nearest | .sqrt =>
    (unary? m).map fun op => { value := .unary op a }
  | .divU => some ⟨[divCheck], .binary .div a b⟩
  | .remU => some ⟨[divCheck], .binary .rem a b⟩
  | .divS =>
    let overflow : Expr :=
      .binary .logicalAnd (.binary .eq a (.u32 0x80000000)) (.binary .eq b (.u32 0xffffffff))
    some ⟨[divCheck, trapIf overflow .intOverflow], asU32 (.binary .div (asI32 a) (asI32 b))⟩
  | .remS =>
    some ⟨[divCheck], .select (.binary .eq b (.u32 0xffffffff)) (.u32 0)
      (asU32 (.binary .rem (asI32 a) (asI32 b)))⟩
  | .shl => pure (.binary .shl a (mask31 b))
  | .shrU => pure (.binary .shr a (mask31 b))
  | .shrS => pure (asU32 (.binary .shr (asI32 a) (mask31 b)))
  | .rotl => pure (rotate .shl .shr)
  | .rotr => pure (rotate .shr .shl)
  | .extend8S => pure (extend 24)
  | .extend16S => pure (extend 16)
  | .wrapI64 => pure (.extract a 0)
  | .reinterpretF32 => pure (asU32 a)
  | _ => none
where
  rotate (first second : BinaryOp) : Expr :=
    let back := mask31 (.binary .sub (.u32 32) (mask31 b))
    .binary .or (.binary first a (mask31 b)) (.binary second a back)
  extend (n : UInt32) : Expr := asU32 (.binary .shr (asI32 (.binary .shl a (.u32 n))) (.u32 n))

/-- A conversion to a 64-bit integer in the shader language. -/
def lowerI64 (m : Mnemonic) (a : Expr) : Option Expr :=
  match m with
  | .extendI32U => some (.compose .vec2 [a, .u32 0])
  | .extendI32S => some (.compose .vec2 [a, asU32 (.binary .shr (asI32 a) (.u32 31))])
  | .reinterpretF64 => some (.bitcast .vec2 a)
  | _ => none

/-- A floating-point instruction in the shader language; `t` carries its type. -/
def lowerFloat (t : Ty) (m : Mnemonic) (a b : Expr) : Option Expr :=
  match m with
  | .add => some (.binary .add a b)
  | .sub => some (.binary .sub a b)
  | .mul => some (.binary .mul a b)
  | .div => some (.binary .div a b)
  | .eq | .ne | .lt | .gt | .le | .ge =>
    (comparison? m).map fun (op, _) => boolToU32 (.binary op a b)
  | .abs | .neg | .ceil | .floor | .trunc | .nearest | .sqrt =>
    (unary? m).map fun op => .unary op a
  | .convertI32S => some (.convert t (asI32 a))
  | .convertI32U | .demoteF64 | .promoteF32 => some (.convert t a)
  | .reinterpretI32 | .reinterpretI64 => some (.bitcast t a)
  | _ => none

/-- The instruction has a 64-bit float that the hardware does not have. -/
def needsEmulation (l : Layout) (op : NumericOp) : Bool :=
  !l.nativeF64 && (op.type = .f64 || op.signature.params.head? = some .f64)

/-- The statements of a numeric instruction on operands `args`, its result going
to `dst`. -/
def numericStmts (l : Layout) (op : NumericOp) (args : List Expr) (dst : String) : List Stmt :=
  let sig := op.signature
  let intrinsic : List Stmt :=
    [.assign dst (.intrinsic op.name args sig.params sig.results)]
  let a := args.getD 0 .absent
  let b := args.getD 1 .absent
  let orIntrinsic (x : Option Expr) : List Stmt :=
    match x with
    | some x => [.assign dst x]
    | none => intrinsic
  if needsEmulation l op then intrinsic
  else match op.type with
    | .i32 =>
      match lowerI32 op.mnemonic a b with
      | some low => low.checks ++ [.assign dst low.value]
      | none => intrinsic
    | .i64 =>
      match op.mnemonic with
      | .add => [.call i64Add args [dst]]
      | .sub => [.call i64Sub args [dst]]
      | m => orIntrinsic (lowerI64 m a)
    | .f32 | .f64 => orIntrinsic (lowerFloat (Ty.carrier l op.type) op.mnemonic a b)
    | .v128 | .reserved _ => intrinsic

def emitNumeric (ctx : Context) (op : NumericOp) : Emitter (List Stmt) := do
  let args ← Emitter.pop ctx op.signature.params.length
  let result ← entry op.signature.results 0
  let dst ← Emitter.push ctx result
  let _ ← entry op.signature.params 0
  return numericStmts ctx.layout op args dst

/-! ## 64-bit sums and differences -/

/-- A component of a variable. -/
def part (name : String) (i : Int) : Expr := .extract (.var name) i

def pairParams : List Variable := [⟨"a", .vec2⟩, ⟨"b", .vec2⟩]

/-- Adds two word pairs. The low words carry iff their sum is below the first. -/
def i64AddFunction : Shader.Function :=
  { name := i64Add, params := pairParams, results := [.vec2], locals := [⟨"lo", .u32⟩]
    body :=
      [.assign "lo" (.binary .add (part "a" 0) (part "b" 0)),
       .ret [.compose .vec2
        [.var "lo",
         .binary .add (.binary .add (part "a" 1) (part "b" 1))
          (boolToU32 (.binary .lt (.var "lo") (part "a" 0)))]]] }

/-- Subtracts two word pairs. The low words borrow iff the first is below the
second. -/
def i64SubFunction : Shader.Function :=
  { name := i64Sub, params := pairParams, results := [.vec2]
    body :=
      [.ret [.compose .vec2
        [.binary .sub (part "a" 0) (part "b" 0),
         .binary .sub (.binary .sub (part "a" 1) (part "b" 1))
          (boolToU32 (.binary .lt (part "a" 0) (part "b" 0)))]]] }

/-- The functions that numeric instructions call. -/
def numericFunctions : List Shader.Function := [i64AddFunction, i64SubFunction]

end WasmShader.Emit
